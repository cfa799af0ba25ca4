import FireMarshal.Lib.Run
import FireMarshal.Theorems.Accnet.Tx

/-! Transmission over whole runs of the accnet driver: the segments of the buffers in `send_cq` are the
    descriptors that the engine holds, `complete_send` frees exactly the completed buffers, and every buffer
    is released once as long as `accnet_start_xmit` finds room. -/

namespace FireMarshal.Accnet

variable {k : Kernel} {cap : Nat}

namespace Tx

variable {s : Tx}

/-! ### Segments and completions -/

/-- The segments of the buffers in `send_cq` are as many as the descriptors that are queued, in flight or
    completed and unread, and no function used an entry of an empty `send_cq`. -/
structure Conserved (s : Tx) : Prop where
  segments : (s.sendCq.contents.map Skb.nsegments).sum =
    s.eng.queued.length + s.eng.inflight.length + s.eng.comps.length
  noFault : s.fault = false

/-- A poll with this script releases the buffers `done` at the front of `send_cq`: those all of whose
    descriptors are completed when it reads `ACCNET_TX_COUNT`. It consumes their completions. -/
structure Completes (k : Kernel) (cap : Nat) (s : Tx) (script : List (List TxStep)) (done : List Skb) : Prop where
  front : s.sendCq.contents = done ++ (s.poll k cap script).sendCq.contents
  released : (s.poll k cap script).consumed = s.consumed ++ done
  completed : descs k done <+: (s.engAtCheck cap script).comps.map Prod.fst
  all : ∀ skb ∈ (s.poll k cap script).sendCq.contents.head?,
    ¬ descs k (done ++ [skb]) <+: (s.engAtCheck cap script).comps.map Prod.fst
  reads : (s.poll k cap script).compReads = s.compReads ++ (descs k done).map some
  noFault : (s.poll k cap script).fault = false

theorem Inv.conserved (h : Inv k cap s) : s.Conserved where
  segments := by
    rw [← length_descs (k := k), ← h.outstanding, Engine.length_outstanding]
    omega
  noFault := h.noFault

theorem Inv.completes (h : Inv k cap s) (script : List (List TxStep)) : ∃ done, Completes k cap s script done := by
  obtain ⟨hinv, hfront, hcons, hreads, -⟩ := poll_spec h script rfl
  obtain ⟨rest, hq, hle, hnext⟩ :=
    completable_spec k (s.engAtCheck cap script).comps.length s.sendCq.contents
  obtain rfl := List.append_cancel_left (hq.symm.trans hfront)
  -- The completions come first in what the engine holds, which are the descriptors of the queue.
  have hcomps : (s.engAtCheck cap script).comps.map Prod.fst <+: descs k s.sendCq.contents := by
    rw [← h.outstanding, ← (s.engAtCheck_progress cap script).outstanding, Engine.outstanding, List.append_assoc]
    exact List.prefix_append _ _
  refine ⟨_, hfront, hcons, ?_, fun skb hmem hpre => ?_, hreads, hinv.noFault⟩
  · refine List.prefix_of_prefix_length_le ?_ hcomps (by simpa using hle)
    nth_rewrite 2 [hfront]
    rw [descs_append]
    exact List.prefix_append _ _
  · have hlt := hnext skb hmem
    have hle' := hpre.length_le
    rw [List.length_map] at hle'
    omega

theorem Inv.length_contents_lt (h : Inv k cap s) (hcap : cap ≤ 127) {skb : Skb} {script : List (List TxStep)}
    (hroom : (s.engAtCheck cap script).queued.length + skb.nsegments ≤ 64) : s.sendCq.contents.length < 255 := by
  have hp := s.engAtCheck_progress cap script
  have hb := hp.bounded h.bounded
  have hi := hb.inflight
  have hc : (s.engAtCheck cap script).comps.length ≤ 64 := hb.comps
  have hle := length_le_length_descs (k := k) s.sendCq.contents
  rw [← h.outstanding, ← hp.outstanding, Engine.length_outstanding] at hle
  simp only [Skb.nsegments] at hroom
  omega

theorem Inv.not_conserved_xmit (h : Inv k cap s) {skb : Skb} {script : List (List TxStep)}
    (hroom : (s.engAtCheck cap script).queued.length + skb.nsegments ≤ 64)
    (hring : s.sendCq.contents.length = 255) : ¬ (s.xmit k cap skb script).Conserved := by
  intro hcons
  obtain ⟨hout, hcq, -⟩ := xmit_overflow h hroom hring
  have hsum := hcons.segments
  have hlen := congrArg List.length hout
  rw [Engine.length_outstanding, List.length_append, length_sendDescs, h.outstanding, length_descs,
    Skb.nsegments] at hlen
  rw [hcq] at hsum
  omega

end Tx

theorem Nic.step_txInv {s : Nic} (ev : Event) (h : s.tx.Inv k cap)
    (hring : ∀ skb script, ev = .startXmit skb script →
      (s.tx.engAtCheck cap script).queued.length + skb.nsegments ≤ 64 → s.tx.sendCq.contents.length < 255) :
    (s.step k cap ev).tx.Inv k cap := by
  cases ev with
  | startXmit skb script =>
    by_cases hroom : (s.tx.engAtCheck cap script).queued.length + skb.nsegments ≤ 64
    · exact (Tx.xmit_ok h hroom (hring skb script rfl hroom)).1
    · exact (Tx.xmit_busy h hroom).1
  | poll budget txScript rxScript => exact (Tx.poll_spec h txScript rfl).1
  | openDev script => exact h.congr rfl rfl rfl
  | stop => exact h.congr rfl rfl rfl
  | txEngine st => exact h.progress (.step _ _ _ _)
  | rxEngine st => exact h

theorem Nic.init_txInv : Nic.init.tx.Inv k cap :=
  ⟨by simp [Nic.init], Engine.bounded_init, rfl⟩

/-- The condition on a step of a run that keeps the segments: a buffer that `post_send` pushes finds fewer than 255
    buffers in `send_cq`. -/
def Nic.PushesBelow (cap : Nat) (s : Nic) : Event → Prop
  | .startXmit skb script =>
    (s.tx.engAtCheck cap script).queued.length + skb.nsegments ≤ 64 → s.tx.sendCq.contents.length < 255
  | _ => True

theorem Nic.step_not_conserved {s : Nic} (ev : Event) (h : s.tx.Inv k cap) (hpush : ¬ s.PushesBelow cap ev) :
    ¬ (s.step k cap ev).tx.Conserved := by
  cases ev with
  | startXmit skb script =>
    obtain ⟨hroom, hfull⟩ := Classical.not_imp.mp hpush
    have hle := s.tx.sendCq.length_contents_le
    exact h.not_conserved_xmit hroom (by omega)
  | _ => exact absurd trivial hpush

/-- Exactly the runs in which no push finds 255 buffers in `send_cq` keep its segments and the descriptors of the
    engine in step, with polls that release exactly the completed buffers. -/
theorem send_conserved_iff (k : Kernel) (cap : Nat) (evs : List Event) :
    Run.Always (Nic.step k cap) Nic.init evs
        (fun s => s.tx.Conserved ∧ ∀ script, ∃ done, s.tx.Completes k cap script done) ↔
      Run.Guarded (Nic.step k cap) Nic.init evs (Nic.PushesBelow cap) := by
  refine Run.always_iff_guarded Nic.init_txInv (fun s ev h hpush => ?_) (fun s h => ⟨h.conserved, h.completes⟩)
    fun s ev h hpush hgood => Nic.step_not_conserved ev h hpush hgood.1
  refine Nic.step_txInv ev h fun skb script hev hroom => ?_
  subst hev
  exact hpush hroom

theorem send_conserved (k : Kernel) (cap : Nat) (hcap : cap ≤ 127) (evs : List Event) :
    Run.Always (Nic.step k cap) Nic.init evs fun s =>
      s.tx.Conserved ∧ ∀ script, ∃ done, s.tx.Completes k cap script done := by
  have hinv : Run.Always (Nic.step k cap) Nic.init evs fun s => s.tx.Inv k cap := by
    refine Run.always_of_step Nic.init_txInv fun s ev h => ?_
    exact Nic.step_txInv ev h fun skb script _ hroom => h.length_contents_lt hcap hroom
  exact hinv.mono fun s h => ⟨h.conserved, h.completes⟩

def plainSkb : Skb := ⟨0, 4096, 60, 60, []⟩

/-! ### More descriptors in flight -/

def sendPlain : Event := .startXmit plainSkb [Engine.busy () 64]

theorem room_sendPlain {s : Tx} {n : Nat} (h : s.Inv k 128) (hq : s.sendCq.contents = List.replicate n plainSkb)
    (hn : n ≤ 255) : (s.engAtCheck 128 [Engine.busy () 64]).queued.length + plainSkb.nsegments ≤ 64 := by
  have hlen := congrArg List.length h.outstanding
  rw [length_descs, hq, List.map_replicate, List.sum_replicate_nat] at hlen
  have hqueued : (s.engAtCheck 128 [Engine.busy () 64]).queued.length ≤ s.eng.outstanding.length - (64 + 128) :=
    Engine.length_queued_busy (by decide) h.bounded h.bounded.queued
  have hseg : plainSkb.nsegments = 1 := rfl
  rw [hseg] at hlen ⊢
  omega

theorem fill_ring {n : Nat} (hn : n ≤ 255) :
    ((List.replicate n sendPlain).foldl (Nic.step k 128) Nic.init).tx.Inv k 128 ∧
      ((List.replicate n sendPlain).foldl (Nic.step k 128) Nic.init).tx.sendCq.contents =
        List.replicate n plainSkb := by
  induction n with
  | zero => exact ⟨Nic.init_txInv, SkBuffCq.contents_init _⟩
  | succ n ih =>
    obtain ⟨hinv, hq⟩ := ih (by omega)
    have hroom := room_sendPlain hinv hq (by omega)
    obtain ⟨hinv', hq', -⟩ := Tx.xmit_ok hinv hroom (by rw [hq, List.length_replicate]; omega)
    rw [List.replicate_succ' (a := sendPlain), List.foldl_append]
    exact ⟨hinv', by rw [List.replicate_succ' (a := plainSkb), ← hq]; exact hq'⟩

/-- With 128 descriptors in flight the ring overflows at the 256th buffer, which `send_cq` loses. -/
theorem send_not_conserved : ¬ Run.Always (Nic.step plainKernel 128) Nic.init (List.replicate 256 sendPlain) fun s =>
    s.tx.Conserved ∧ ∀ script, ∃ done, s.tx.Completes plainKernel 128 script done := by
  intro h
  obtain ⟨hinv, hq⟩ := fill_ring (k := plainKernel) (Nat.le_refl 255)
  have hbad := hinv.not_conserved_xmit (room_sendPlain hinv hq (Nat.le_refl _)) (by rw [hq, List.length_replicate])
  have hrun := h _ (List.prefix_refl _)
  rw [List.replicate_succ' (n := 255), List.foldl_append] at hrun
  exact hbad hrun.1

end FireMarshal.Accnet
