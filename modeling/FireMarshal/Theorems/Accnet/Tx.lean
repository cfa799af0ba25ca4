import FireMarshal.Accnet.Driver

/-! What the transmit functions of the accnet driver do, one specification for each. They keep the
    invariant that the descriptors the engine holds are those of the buffers in `send_cq`, in order. -/

namespace FireMarshal.Accnet

variable {k : Kernel} {cap : Nat}

theorem length_fragDescs : ∀ fs : List Frag, (fragDescs fs).length = fs.length
  | [] => rfl
  | _ :: rest => by rw [fragDescs, List.length_cons, List.length_cons, length_fragDescs rest]

theorem length_sendDescs (k : Kernel) (skb : Skb) : (sendDescs k skb).length = skb.nsegments := by
  unfold sendDescs
  split
  · simp [length_fragDescs, Skb.nsegments, Skb.nrFrags]
  · next h => simp only [List.length_singleton, Skb.nsegments]; omega

def descs (k : Kernel) (q : List Skb) : List Desc := q.flatMap (sendDescs k)

@[simp] theorem descs_nil : descs k [] = [] := rfl

@[simp] theorem descs_cons (skb : Skb) (q : List Skb) : descs k (skb :: q) = sendDescs k skb ++ descs k q := by
  simp [descs]

@[simp] theorem descs_append (q r : List Skb) : descs k (q ++ r) = descs k q ++ descs k r := by
  simp [descs]

theorem length_descs (q : List Skb) : (descs k q).length = (q.map Skb.nsegments).sum := by
  induction q with
  | nil => rfl
  | cons skb q ih => simp [ih, length_sendDescs]

theorem length_le_length_descs (q : List Skb) : q.length ≤ (descs k q).length := by
  induction q with
  | nil => simp
  | cons skb q ih =>
    simp only [List.length_cons, descs_cons, List.length_append, length_sendDescs, Skb.nsegments]
    omega

namespace Tx

variable {s : Tx}

/-! ### Register accesses -/

theorem tick_spec (cap : Nat) (s : Tx) : ∃ e σ, s.tick cap = { s with eng := e, script := σ } ∧
    Engine.Progress depth cap s.eng e :=
  ⟨_, _, rfl, .foldl _ _ _ _⟩

theorem sendSpace_iff (hq : s.eng.queued.length ≤ 64) {n : Nat} :
    s.sendSpace n = true ↔ s.eng.queued.length + n ≤ 64 := by
  rw [sendSpace, decide_eq_true_iff, sendReqAvail]
  omega

theorem sendCompAvail_eq (hc : s.eng.comps.length ≤ 64) : s.sendCompAvail = s.eng.comps.length :=
  Nat.mod_eq_of_lt (by omega)

theorem writeReqs_spec (cap : Nat) (ds : List Desc) (hroom : s.eng.queued.length + ds.length ≤ 64) :
    ∃ e σ, ds.foldl (writeReq cap) s = { s with eng := e, script := σ } ∧
      e.outstanding = s.eng.outstanding ++ ds ∧ (s.eng.Bounded depth cap → e.Bounded depth cap) := by
  induction ds generalizing s with
  | nil => exact ⟨s.eng, s.script, rfl, by simp, id⟩
  | cons d ds ih =>
    obtain ⟨e, σ, ht, hp⟩ := tick_spec cap s
    simp only [List.length_cons] at hroom
    have hlt : e.queued.length < depth := by
      have := hp.queued
      show e.queued.length < 64
      omega
    have hw : s.writeReq cap d = { s with eng := e.request depth d, script := σ } := by
      simp only [writeReq, ht]
    rw [List.foldl_cons, hw]
    have hroom' : (e.request depth d).queued.length + ds.length ≤ 64 := by
      have h1 : (e.request depth d).queued.length ≤ e.queued.length + 1 := Engine.length_queued_request
      have h2 := hp.queued
      omega
    obtain ⟨e', σ', heq, hout, hb⟩ := ih (s := { s with eng := e.request depth d, script := σ }) hroom'
    refine ⟨e', σ', heq, ?_, fun h => hb (hp.bounded h).request⟩
    rw [hout, Engine.outstanding_request hlt, hp.outstanding, List.append_assoc, List.singleton_append]

theorem readComps_spec (cap n : Nat) (hn : n ≤ s.eng.comps.length) :
    ∃ e σ, readComps cap n s = { s with
        eng := e, script := σ, compReads := s.compReads ++ (s.eng.outstanding.take n).map some } ∧
      e.outstanding = s.eng.outstanding.drop n ∧ s.eng.comps.length ≤ e.comps.length + n ∧
      (s.eng.Bounded depth cap → e.Bounded depth cap) := by
  induction n generalizing s with
  | zero => exact ⟨s.eng, s.script, by simp [readComps], by simp, by simp, id⟩
  | succ n ih =>
    obtain ⟨e, σ, ht, hp⟩ := tick_spec cap s
    have hle := hp.comps.length_le
    obtain ⟨c, hc, hout, hlen⟩ := Engine.read_of_pos (e := e) (by omega)
    have hr : s.readComp cap = { s with
        eng := e.read, script := σ, compReads := s.compReads ++ [some c.1] } := by
      simp only [readComp, ht, hc, Option.map_some]
    obtain ⟨e', σ', heq, hout', hcomps, hb⟩ :=
      ih (s := { s with eng := e.read, script := σ, compReads := s.compReads ++ [some c.1] })
        (show n ≤ e.read.comps.length by omega)
    rw [hp.outstanding] at hout
    refine ⟨e', σ', ?_, ?_, ?_, fun h => hb (hp.bounded h).read⟩
    · rw [readComps, hr, heq]
      simp [hout]
    · rw [hout', hout]
      rfl
    · simp only at hcomps
      omega

/-- The engine as the first register read of a function finds it. -/
def engAtCheck (cap : Nat) (s : Tx) (script : List (List TxStep)) : TxEngine :=
  (script.headD []).foldl (Engine.step depth cap) s.eng

theorem engAtCheck_progress (s : Tx) (cap : Nat) (script : List (List TxStep)) :
    Engine.Progress depth cap s.eng (s.engAtCheck cap script) :=
  .foldl _ _ _ _

/-! ### `accnet_start_xmit` -/

theorem startXmit_busy {skb : Skb} {script : List (List TxStep)} (hb : s.eng.Bounded depth cap)
    (hroom : ¬ (s.engAtCheck cap script).queued.length + skb.nsegments ≤ 64) :
    ∃ e σ, startXmit k cap { s with script := script } skb = (.busy, { s with
        eng := e, script := σ, stopped := true, freed := s.freed ++ [skb], txDropped := s.txDropped + 1 }) ∧
      Engine.Progress depth cap s.eng e := by
  have hp := s.engAtCheck_progress cap script
  have hspace : ({ s with script := script }.tick cap).sendSpace (skb.nrFrags + 1) = false := by
    rw [← Bool.not_eq_true, sendSpace_iff (hp.bounded hb).queued]
    exact hroom
  exact ⟨_, script.tail, by rw [startXmit, hspace]; rfl, hp⟩

theorem startXmit_ok {skb : Skb} {script : List (List TxStep)} (hb : s.eng.Bounded depth cap)
    (hroom : (s.engAtCheck cap script).queued.length + skb.nsegments ≤ 64) :
    ∃ e σ st, startXmit k cap { s with script := script } skb = (.ok, { s with
        eng := e, script := σ, sendCq := s.sendCq.push skb, stopped := st
        txPackets := s.txPackets + 1, txBytes := s.txBytes + skb.len }) ∧
      e.outstanding = s.eng.outstanding ++ sendDescs k skb ∧ e.Bounded depth cap ∧
      (st = false ↔ s.stopped = false ∧ e.queued.length + k.maxSkbFrags ≤ 64) := by
  have hp := s.engAtCheck_progress cap script
  have ht : { s with script := script }.tick cap =
      { s with eng := s.engAtCheck cap script, script := script.tail } := rfl
  have hspace : ({ s with script := script }.tick cap).sendSpace (skb.nrFrags + 1) = true :=
    (sendSpace_iff (hp.bounded hb).queued).mpr hroom
  obtain ⟨e, σ, hw, hout, hbe⟩ := writeReqs_spec cap (sendDescs k skb)
    (s := { s with eng := s.engAtCheck cap script, script := script.tail })
    (by rw [length_sendDescs]; exact hroom)
  -- The two remaining register reads only let the engine advance.
  have hp1 := Engine.Progress.foldl depth cap e (σ.headD [])
  have hp2 := hp1.trans (.foldl _ _ _ (σ.tail.headD []))
  have hb2 := hp2.bounded (hbe (hp.bounded hb))
  rw [startXmit, hspace]
  simp only [Bool.not_true, Bool.false_eq_true, if_false, postSend, ht, hw]
  refine ⟨_, _, _, rfl, hp2.outstanding.trans (by rw [hout, hp.outstanding]), hb2, ?_⟩
  rw [Bool.or_eq_false_iff, Bool.not_eq_false', sendSpace_iff hb2.queued]
  rfl

/-! ### `complete_send` -/

/-- The buffers at the front of `q` that `n` completions cover. -/
def completable : Nat → List Skb → List Skb
  | _, [] => []
  | n, skb :: q => if skb.nsegments ≤ n then skb :: completable (n - skb.nsegments) q else []

theorem completable_zero (q : List Skb) : completable 0 q = [] := by
  cases q with
  | nil => rfl
  | cons skb q => simp [completable, Skb.nsegments]

theorem completable_spec (k : Kernel) (n : Nat) (q : List Skb) :
    ∃ rest, q = completable n q ++ rest ∧ (descs k (completable n q)).length ≤ n ∧
      ∀ skb ∈ rest.head?, n < (descs k (completable n q ++ [skb])).length := by
  induction q generalizing n with
  | nil => exact ⟨[], by simp [completable]⟩
  | cons skb q ih =>
    by_cases hfit : skb.nsegments ≤ n
    · obtain ⟨rest, hq, hle, hnext⟩ := ih (n - skb.nsegments)
      rw [completable, if_pos hfit]
      refine ⟨rest, by rw [List.cons_append, ← hq], ?_, fun next hmem => ?_⟩
      · rw [descs_cons, List.length_append, length_sendDescs]
        omega
      · have := hnext next hmem
        rw [List.cons_append, descs_cons, List.length_append, length_sendDescs]
        omega
    · rw [completable, if_neg hfit]
      exact ⟨skb :: q, by simp, by simp, by simpa [length_sendDescs] using hfit⟩

/-- As long as the engine holds the descriptors of the queued buffers, in order, the loop pops the
    buffers that the completions cover, reads their completions, and finds no empty queue. -/
theorem completeSendLoop_spec (k : Kernel) (cap : Nat) {fuel n : Nat} (hfuel : n ≤ fuel) (hn : n ≤ s.eng.comps.length)
    (hout : s.eng.outstanding = descs k s.sendCq.contents) :
    ∃ e σ cq, completeSendLoop cap fuel n s = { s with
        eng := e, script := σ, sendCq := cq
        consumed := s.consumed ++ completable n s.sendCq.contents
        compReads := s.compReads ++ (descs k (completable n s.sendCq.contents)).map some } ∧
      s.sendCq.contents = completable n s.sendCq.contents ++ cq.contents ∧
      e.outstanding = descs k cq.contents ∧ (s.eng.Bounded depth cap → e.Bounded depth cap) := by
  induction fuel generalizing n s with
  | zero =>
    obtain rfl : n = 0 := by omega
    exact ⟨s.eng, s.script, s.sendCq, by simp [completeSendLoop, completable_zero], by simp [completable_zero],
      hout, id⟩
  | succ fuel ih =>
    by_cases hn0 : n = 0
    · subst hn0
      exact ⟨s.eng, s.script, s.sendCq, by simp [completeSendLoop, completable_zero], by simp [completable_zero],
        hout, id⟩
    cases hq : s.sendCq.contents with
    | nil =>
      -- There are completions, so the engine holds descriptors and the queue is not empty.
      have hlen := congrArg List.length hout
      rw [Engine.length_outstanding, hq, descs_nil, List.length_nil] at hlen
      omega
    | cons skb q =>
      have hempty : s.sendCq.isEmpty = false := by
        rw [← Bool.not_eq_true, SkBuffCq.isEmpty_iff, hq]
        exact List.cons_ne_nil _ _
      have htail : (s.sendCq.entries s.sendCq.tail).nrFrags + 1 = skb.nsegments := by
        rw [SkBuffCq.entries_tail hq, Skb.nsegments]
      by_cases hfit : skb.nsegments ≤ n
      · obtain ⟨e, σ, hread, hout', hcomps, hb⟩ := readComps_spec cap (s := s) skb.nsegments (by omega)
        obtain ⟨hpop, hrest⟩ := SkBuffCq.pop_of_cons hq
        have hds : s.eng.outstanding = sendDescs k skb ++ descs k q := by rw [hout, hq, descs_cons]
        have hlen := length_sendDescs k skb
        rw [hds, List.take_left' hlen] at hread
        rw [hds, List.drop_left' hlen] at hout'
        obtain ⟨e', σ', cq, hloop, hcq, hout'', hb'⟩ := ih (n := n - skb.nsegments) (s := { s with
            eng := e, script := σ, compReads := s.compReads ++ (sendDescs k skb).map some
            sendCq := s.sendCq.pop.2, consumed := s.consumed ++ [skb] })
          (by simp only [Skb.nsegments]; omega) (show n - skb.nsegments ≤ e.comps.length by omega)
          (by rw [hout', hrest])
        simp only [hrest] at hloop hcq
        refine ⟨e', σ', cq, ?_, ?_, hout'', hb' ∘ hb⟩
        · rw [completeSendLoop, if_neg hn0, hempty, htail]
          simp only [Bool.false_eq_true, if_false, Nat.not_lt.mpr hfit, hread, hpop, Option.toList_some,
            hloop, completable, if_pos hfit, descs_cons, List.map_append, List.append_assoc,
            List.singleton_append]
        · rw [completable, if_pos hfit, List.cons_append, ← hcq]
      · have hstop : completable n (skb :: q) = [] := by rw [completable, if_neg hfit]
        refine ⟨s.eng, s.script, s.sendCq, ?_, by rw [hstop, hq, List.nil_append], hout, id⟩
        rw [completeSendLoop, if_neg hn0, hempty, htail, hstop]
        simp [Nat.lt_of_not_le hfit]

/-! ### The invariant -/

/-- The engine holds the descriptors of the buffers in `send_cq`, in order, and the driver never used an
    entry of an empty `send_cq`. -/
structure Inv (k : Kernel) (cap : Nat) (s : Tx) : Prop where
  outstanding : s.eng.outstanding = descs k s.sendCq.contents
  bounded : s.eng.Bounded depth cap
  noFault : s.fault = false

theorem Inv.congr {t : Tx} (h : Inv k cap s) (heng : t.eng = s.eng) (hcq : t.sendCq = s.sendCq)
    (hf : t.fault = s.fault) : Inv k cap t :=
  ⟨by rw [heng, hcq]; exact h.outstanding, by rw [heng]; exact h.bounded, hf.trans h.noFault⟩

theorem Inv.progress {e : TxEngine} (h : Inv k cap s) (hp : Engine.Progress depth cap s.eng e) :
    Inv k cap { s with eng := e } :=
  ⟨hp.outstanding.trans h.outstanding, hp.bounded h.bounded, h.noFault⟩

theorem xmit_busy {skb : Skb} {script : List (List TxStep)} (h : Inv k cap s)
    (hroom : ¬ (s.engAtCheck cap script).queued.length + skb.nsegments ≤ 64) :
    Inv k cap (s.xmit k cap skb script) ∧ (s.xmit k cap skb script).calls = s.calls ++ [⟨skb, .busy, true⟩] := by
  obtain ⟨e, σ, heq, hp⟩ := startXmit_busy (k := k) h.bounded hroom
  simp only [xmit, heq]
  exact ⟨(h.progress hp).congr rfl rfl rfl, by simp⟩

theorem xmit_ok {skb : Skb} {script : List (List TxStep)} (h : Inv k cap s)
    (hroom : (s.engAtCheck cap script).queued.length + skb.nsegments ≤ 64)
    (hring : s.sendCq.contents.length < 255) :
    Inv k cap (s.xmit k cap skb script) ∧
      (s.xmit k cap skb script).sendCq.contents = s.sendCq.contents ++ [skb] ∧
      (s.xmit k cap skb script).calls = s.calls ++ [⟨skb, .ok, false⟩] ∧
      (s.xmit k cap skb script).freed = s.freed ∧ (s.xmit k cap skb script).consumed = s.consumed := by
  obtain ⟨e, σ, st, heq, hout, hb, -⟩ := startXmit_ok (k := k) h.bounded hroom
  have hcq := SkBuffCq.contents_push skb hring
  simp only [xmit, heq]
  refine ⟨⟨?_, hb, h.noFault⟩, hcq, by simp, by trivial⟩
  rw [hout, h.outstanding, hcq, descs_append, descs_cons, descs_nil, List.append_nil]

/-- A call with room in the engine but a full ring accepts the buffer and loses it: the engine gets its
    descriptors, but `send_cq` does not keep it. -/
theorem xmit_overflow {skb : Skb} {script : List (List TxStep)} (h : Inv k cap s)
    (hroom : (s.engAtCheck cap script).queued.length + skb.nsegments ≤ 64)
    (hring : s.sendCq.contents.length = 255) :
    (s.xmit k cap skb script).eng.outstanding = s.eng.outstanding ++ sendDescs k skb ∧
      (s.xmit k cap skb script).sendCq = s.sendCq ∧
      (s.xmit k cap skb script).calls = s.calls ++ [⟨skb, .ok, false⟩] ∧
      (s.xmit k cap skb script).freed = s.freed ∧ (s.xmit k cap skb script).consumed = s.consumed := by
  obtain ⟨e, σ, st, heq, hout, -⟩ := startXmit_ok (k := k) h.bounded hroom
  simp only [xmit, heq]
  exact ⟨hout, SkBuffCq.push_of_full hring, by simp, by trivial⟩

theorem poll_spec (h : Inv k cap s) (script : List (List TxStep)) {n : Nat}
    (hn : n = (s.engAtCheck cap script).comps.length) :
    Inv k cap (s.poll k cap script) ∧
      s.sendCq.contents = completable n s.sendCq.contents ++ (s.poll k cap script).sendCq.contents ∧
      (s.poll k cap script).consumed = s.consumed ++ completable n s.sendCq.contents ∧
      (s.poll k cap script).compReads = s.compReads ++ (descs k (completable n s.sendCq.contents)).map some ∧
      (s.poll k cap script).calls = s.calls ∧ (s.poll k cap script).freed = s.freed := by
  have hp := s.engAtCheck_progress cap script
  have hcomp : ({ s with script := script }.tick cap).sendCompAvail = n :=
    (sendCompAvail_eq (hp.bounded h.bounded).comps).trans hn.symm
  obtain ⟨e, σ, cq, heq, hcq, hout, hb⟩ := completeSendLoop_spec k cap
    (s := { s with script := script }.tick cap) (Nat.le_refl n) (Nat.le_of_eq hn)
    (hp.outstanding.trans h.outstanding)
  have hp' := Engine.Progress.foldl depth cap e (σ.headD [])
  simp only [poll, completeSend, hcomp, heq]
  exact ⟨⟨hp'.outstanding.trans hout, hp'.bounded (hb (hp.bounded h.bounded)), h.noFault⟩, hcq, rfl, rfl, rfl, rfl⟩

end Tx
end FireMarshal.Accnet
