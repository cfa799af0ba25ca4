import FireMarshal.Lib.Run
import FireMarshal.Theorems.Accnet.Tx

/-! When the transmit queue runs. The driver stops the queue after a transmission, and wakes it after
    completions, by asking for room for `MAX_SKB_FRAGS` descriptors, but a buffer may take one more. A running
    queue has room for every buffer exactly as long as none of these tests finds just `MAX_SKB_FRAGS` descriptors
    free and `accnet_open`, which tests nothing, finds more. -/

namespace FireMarshal.Accnet

variable {k : Kernel} {cap : Nat}

namespace Tx

variable {s t u : Tx}

/-- While the queue runs, the engine has room for every buffer that the stack may hand over, and
    `accnet_start_xmit` accepts it. -/
structure Ready (k : Kernel) (cap : Nat) (s : Tx) : Prop where
  room : s.stopped = false → ∀ n ≤ k.maxSkbFrags, ((n + 1 : Nat) : Int) ≤ s.sendReqAvail
  accepts : s.stopped = false → ∀ (skb : Skb) (script : List (List TxStep)), skb.nrFrags ≤ k.maxSkbFrags →
    (startXmit k cap { s with script := script } skb).1 = .ok

structure Roomy (k : Kernel) (cap : Nat) (s : Tx) : Prop where
  bounded : s.eng.Bounded depth cap
  room : s.stopped = false → s.eng.queued.length + (k.maxSkbFrags + 1) ≤ 64

theorem room_iff (hq : s.eng.queued.length ≤ 64) :
    (∀ n ≤ k.maxSkbFrags, ((n + 1 : Nat) : Int) ≤ s.sendReqAvail) ↔
      s.eng.queued.length + (k.maxSkbFrags + 1) ≤ 64 := by
  rw [sendReqAvail]
  constructor
  · intro h
    have := h k.maxSkbFrags (Nat.le_refl _)
    omega
  · intro h n hn
    omega

theorem Roomy.ready (h : Roomy k cap s) : s.Ready k cap where
  room hrun := (room_iff h.bounded.queued).mpr (h.room hrun)
  accepts hrun skb script hfrags := by
    have hroom : (s.engAtCheck cap script).queued.length + skb.nsegments ≤ 64 := by
      have hle := (s.engAtCheck_progress cap script).queued
      have := h.room hrun
      rw [Skb.nsegments]
      omega
    obtain ⟨e, σ, st, heq, -⟩ := startXmit_ok (k := k) h.bounded hroom
    rw [heq]

theorem Ready.room_of_running (h : s.Ready k cap) (hb : s.eng.Bounded depth cap) (hrun : s.stopped = false) :
    s.eng.queued.length + (k.maxSkbFrags + 1) ≤ 64 :=
  (room_iff hb.queued).mp (h.room hrun)

/-! ### A transmission -/

def engAtStop (k : Kernel) (cap : Nat) (s : Tx) (skb : Skb) (script : List (List TxStep)) : TxEngine :=
  (s.xmit k cap skb script).eng

theorem xmit_stopped (skb : Skb) (script : List (List TxStep)) (hb : s.eng.Bounded depth cap) :
    (s.xmit k cap skb script).eng.Bounded depth cap ∧
      ((s.xmit k cap skb script).stopped = false ↔ s.stopped = false ∧
        (s.engAtCheck cap script).queued.length + skb.nsegments ≤ 64 ∧
        (s.engAtStop k cap skb script).queued.length + k.maxSkbFrags ≤ 64) := by
  by_cases hroom : (s.engAtCheck cap script).queued.length + skb.nsegments ≤ 64
  · obtain ⟨e, σ, st, heq, -, hbe, hst⟩ := startXmit_ok (k := k) hb hroom
    simp only [engAtStop, xmit, heq, hst, hroom, true_and, and_true]
    exact hbe
  · obtain ⟨e, σ, heq, hp⟩ := startXmit_busy (k := k) hb hroom
    simp only [xmit, heq, hroom, false_and, and_false, Bool.true_eq_false, and_true]
    exact hp.bounded hb

/-! ### A poll -/

structure Drains (cap : Nat) (s t : Tx) : Prop where
  stopped : t.stopped = s.stopped
  queued : t.eng.queued.length ≤ s.eng.queued.length
  bounded : s.eng.Bounded depth cap → t.eng.Bounded depth cap

theorem Drains.refl (cap : Nat) (s : Tx) : Drains cap s s := ⟨rfl, Nat.le_refl _, id⟩

theorem Drains.trans (h₁ : Drains cap s t) (h₂ : Drains cap t u) : Drains cap s u :=
  ⟨h₂.stopped.trans h₁.stopped, Nat.le_trans h₂.queued h₁.queued, h₂.bounded ∘ h₁.bounded⟩

theorem tick_drains (cap : Nat) (s : Tx) : Drains cap s (s.tick cap) := by
  obtain ⟨e, σ, heq, hp⟩ := tick_spec cap s
  rw [heq]
  exact ⟨rfl, hp.queued, hp.bounded⟩

theorem readComps_drains (cap n : Nat) (s : Tx) : Drains cap s (readComps cap n s) := by
  induction n generalizing s with
  | zero => exact .refl cap s
  | succ n ih =>
    have hread : Drains cap (s.tick cap) (s.readComp cap) := ⟨rfl, Nat.le_refl _, fun hb => hb.read⟩
    exact ((tick_drains cap s).trans hread).trans (ih _)

theorem completeSendLoop_drains (cap fuel n : Nat) (s : Tx) : Drains cap s (completeSendLoop cap fuel n s) := by
  induction fuel generalizing n s with
  | zero => exact .refl cap s
  | succ fuel ih =>
    simp only [completeSendLoop]
    split
    · exact .refl cap s
    split
    · exact ⟨rfl, Nat.le_refl _, id⟩
    split
    · exact .refl cap s
    · have hread := readComps_drains cap ((s.sendCq.entries s.sendCq.tail).nrFrags + 1) s
      refine Drains.trans ?_ (ih _ _)
      exact ⟨hread.stopped, hread.queued, hread.bounded⟩

def engAtWake (k : Kernel) (cap : Nat) (s : Tx) (script : List (List TxStep)) : TxEngine := (s.poll k cap script).eng

theorem poll_stopped (script : List (List TxStep)) (hb : s.eng.Bounded depth cap) :
    (s.engAtWake k cap script).Bounded depth cap ∧
      (s.engAtWake k cap script).queued.length ≤ s.eng.queued.length ∧
      ((s.poll k cap script).stopped = false ↔
        s.stopped = false ∨ (s.engAtWake k cap script).queued.length + k.maxSkbFrags ≤ 64) := by
  have hloop := (tick_drains cap { s with script := script }).trans
    (completeSendLoop_drains cap ({ s with script := script }.tick cap).sendCompAvail
      ({ s with script := script }.tick cap).sendCompAvail _)
  have hall := hloop.trans (tick_drains cap _)
  have hbe := hall.bounded hb
  refine ⟨hbe, hall.queued, ?_⟩
  simp only [poll, completeSend]
  rw [Bool.and_eq_false_iff, Bool.not_eq_false', sendSpace_iff hbe.queued, hall.stopped]
  rfl

end Tx

/-! ### Runs -/

/-- The condition on a step of a run that keeps a running queue ready: its test finds more than
    `MAX_SKB_FRAGS` descriptors free, or fewer. -/
def Nic.TestsClear (k : Kernel) (cap : Nat) (s : Nic) : Event → Prop
  | .startXmit skb script =>
    s.tx.stopped = false → (s.tx.engAtCheck cap script).queued.length + skb.nsegments ≤ 64 →
      (s.tx.engAtStop k cap skb script).queued.length + k.maxSkbFrags ≠ 64
  | .poll _ txScript _ =>
    s.tx.stopped = true → (s.tx.engAtWake k cap txScript).queued.length + k.maxSkbFrags ≠ 64
  | .openDev _ => s.tx.eng.queued.length + k.maxSkbFrags < 64
  | _ => True

theorem Nic.step_roomy {s : Nic} (ev : Event) (h : s.tx.Roomy k cap) (hclear : s.TestsClear k cap ev) :
    (s.step k cap ev).tx.Roomy k cap := by
  cases ev with
  | startXmit skb script =>
    obtain ⟨hb, hst⟩ := Tx.xmit_stopped (k := k) skb script h.bounded
    refine ⟨hb, fun hrun => ?_⟩
    obtain ⟨hrun, hroom, hle⟩ := hst.mp hrun
    have hne := hclear hrun hroom
    show (s.tx.engAtStop k cap skb script).queued.length + _ ≤ 64
    omega
  | poll budget txScript rxScript =>
    obtain ⟨hb, hq, hst⟩ := Tx.poll_stopped (k := k) txScript h.bounded
    refine ⟨hb, fun hrun => ?_⟩
    show (s.tx.engAtWake k cap txScript).queued.length + _ ≤ 64
    cases hrun' : s.tx.stopped with
    | false =>
      have := h.room hrun'
      omega
    | true =>
      have hle := (hst.mp hrun).resolve_left (by simp [hrun'])
      have hne := hclear hrun'
      omega
  | openDev script => exact ⟨h.bounded, fun _ => hclear⟩
  | stop => exact ⟨h.bounded, fun hrun => absurd hrun (by simp [step])⟩
  | txEngine st =>
    have hp := Engine.Progress.step depth cap s.tx.eng st
    exact ⟨hp.bounded h.bounded, fun hrun => Nat.le_trans (Nat.add_le_add_right hp.queued _) (h.room hrun)⟩
  | rxEngine st => exact h

theorem Nic.step_not_ready {s : Nic} (ev : Event) (h : s.tx.Roomy k cap) (hclear : ¬ s.TestsClear k cap ev) :
    ¬ (s.step k cap ev).tx.Ready k cap := by
  intro hready
  cases ev with
  | startXmit skb script =>
    obtain ⟨hb, hst⟩ := Tx.xmit_stopped (k := k) skb script h.bounded
    simp only [TestsClear, ne_eq, Classical.not_imp, not_not] at hclear
    obtain ⟨hrun, hroom, heq⟩ := hclear
    have hle := hready.room_of_running hb (hst.mpr ⟨hrun, hroom, Nat.le_of_eq heq⟩)
    have heq' : (s.tx.xmit k cap skb script).eng.queued.length + k.maxSkbFrags = 64 := heq
    simp only [step] at hle
    omega
  | poll budget txScript rxScript =>
    obtain ⟨hb, -, hst⟩ := Tx.poll_stopped (k := k) txScript h.bounded
    simp only [TestsClear, ne_eq, Classical.not_imp, not_not] at hclear
    have hle := hready.room_of_running hb (hst.mpr (.inr (Nat.le_of_eq hclear.2)))
    have heq' : (s.tx.poll k cap txScript).eng.queued.length + k.maxSkbFrags = 64 := hclear.2
    simp only [step] at hle
    omega
  | openDev script => exact hclear (hready.room_of_running h.bounded rfl)
  | _ => exact hclear trivial

theorem ready_iff_testsClear (k : Kernel) (cap : Nat) (evs : List Event) :
    Run.Always (Nic.step k cap) Nic.init evs (fun s => s.tx.Ready k cap) ↔
      k.maxSkbFrags < 64 ∧ Run.Guarded (Nic.step k cap) Nic.init evs (Nic.TestsClear k cap) := by
  have hb : Nic.init.tx.eng.Bounded depth cap := Engine.bounded_init
  by_cases hmax : k.maxSkbFrags < 64
  · have h0 : Nic.init.tx.Roomy k cap := ⟨hb, fun _ => by
      have hzero : Nic.init.tx.eng.queued.length = 0 := rfl
      omega⟩
    rw [and_iff_right hmax]
    exact Run.always_iff_guarded h0 (fun _ ev => Nic.step_roomy ev) (fun _ h => h.ready)
      fun _ ev => Nic.step_not_ready ev
  · refine iff_of_false (fun h => hmax ?_) fun h => hmax h.1
    have hinit : Nic.init.tx.Ready k cap := h [] List.nil_prefix
    have hzero : Nic.init.tx.eng.queued.length = 0 := rfl
    have := hinit.room_of_running hb rfl
    omega

/-- Three buffers leave exactly 17 descriptors free: the queue runs, but a buffer with 17 fragments needs 18. -/
theorem queue_runs_without_room : ¬ Run.Always (Nic.step plainKernel 127) Nic.init
    [.startXmit ⟨0, 4096, 17060, 60, List.replicate 17 ⟨8192, 0, 1000⟩⟩ [],
      .startXmit ⟨1, 4096, 17060, 60, List.replicate 17 ⟨8192, 0, 1000⟩⟩ [],
      .startXmit ⟨2, 4096, 10060, 60, List.replicate 10 ⟨8192, 0, 1000⟩⟩ []] fun s => s.tx.Ready plainKernel 127 := by
  intro h
  have hready := h _ (List.prefix_refl _)
  have hle := hready.room (by decide +kernel) 17 (Nat.le_refl _)
  revert hle
  decide +kernel

end FireMarshal.Accnet
