import Mathlib.Data.List.Count
import Mathlib.Tactic.Common
import Mathlib.Tactic.SplitIfs

/-! Reliable connected queue pairs: work requests that a program posts, the adapter that processes them in order, and the
    completion queue that the program polls. The send queue and the receive queue share one completion queue, and every
    send is signaled.

A work request takes a place in its queue from the time it is posted until its completion is polled. -/

namespace Verbs

structure Caps where
  maxSendWr : Nat
  maxRecvWr : Nat
  cqe : Nat
deriving DecidableEq, Repr

inductive Wc where
  | recv
  | send
  | error
deriving DecidableEq, Repr

structure Qp where
  recvs : Nat := 0
  unsent : Nat := 0
  sent : Nat := 0
  cq : List Wc := []
  /-- After an error, all that is posted completes with an error. -/
  broken : Bool := false
  overrun : Bool := false
deriving DecidableEq, Repr

namespace Qp

def sends (q : Qp) : Nat := q.unsent + q.sent + q.cq.count .send

def receives (q : Qp) : Nat := q.recvs + q.cq.count .recv

def complete (c : Caps) (q : Qp) (wcs : List Wc) : Qp :=
  if q.cq.length + wcs.length ≤ c.cqe then { q with cq := q.cq ++ wcs } else { q with overrun := true }

def flush (c : Caps) (q : Qp) : Qp := if q.broken then q.complete c [.error] else q

/-! ### The program -/

def postSend (c : Caps) (q : Qp) : Option Qp :=
  if q.sends < c.maxSendWr then some (flush c { q with unsent := q.unsent + 1 }) else none

def postRecv (c : Caps) (q : Qp) : Option Qp :=
  if q.receives < c.maxRecvWr then some (flush c { q with recvs := q.recvs + 1 }) else none

def poll (q : Qp) : Option (Wc × Qp) :=
  match q.cq with
  | [] => none
  | wc :: rest => some (wc, { q with cq := rest })

/-! ### The adapter -/

/-- A message arrives. Without a receive, its sender tries again. -/
def receive (c : Caps) (q : Qp) : Option Qp :=
  if q.broken ∨ q.recvs = 0 then none else some (complete c { q with recvs := q.recvs - 1 } [.recv])

def transmit (q : Qp) : Option Qp :=
  if q.broken ∨ q.unsent = 0 then none else some { q with unsent := q.unsent - 1, sent := q.sent + 1 }

def acknowledge (c : Caps) (q : Qp) : Option Qp :=
  if q.broken ∨ q.sent = 0 then none else some (complete c { q with sent := q.sent - 1 } [.send])

def fail (c : Caps) (q : Qp) : Option Qp :=
  if q.broken then none
  else some (complete c { q with broken := true } (List.replicate (q.recvs + q.unsent + q.sent) .error))

/-! ### Counts -/

structure Tally where
  recvs : Nat
  unsent : Nat
  arrived : Nat
  sends : Nat
deriving DecidableEq, Repr

def Tally.add (t : Tally) : Wc → Tally
  | .recv => { t with arrived := t.arrived + 1 }
  | .send => { t with sends := t.sends + 1 }
  | .error => t

def tally (q : Qp) : Tally := ⟨q.recvs, q.unsent, q.cq.count .recv, q.sends⟩

/-- `n` requests have not been polled, and the completion queue has room for all of them. -/
structure Balanced (n : Nat) (q : Qp) : Prop where
  total : q.receives + q.sends = n
  clean : q.broken = false → Wc.error ∉ q.cq
  length : q.cq.length ≤ n
  overrun : q.overrun = false

variable {c : Caps} {q q' : Qp} {n : Nat} {wc : Wc} {wcs : List Wc}

theorem balanced_init : Balanced 0 {} := ⟨rfl, fun _ => List.not_mem_nil, Nat.le_refl _, rfl⟩

theorem length_eq_counts (wcs : List Wc) : wcs.length = wcs.count .recv + wcs.count .send + wcs.count .error := by
  induction wcs with
  | nil => rfl
  | cons wc wcs ih =>
    rw [List.length_cons, ih]
    cases wc <;> simp <;> omega

theorem Balanced.length_add (h : Balanced n q) (hbroken : q.broken = false) :
    q.cq.length + (q.recvs + q.unsent + q.sent) = n := by
  have hlength := length_eq_counts q.cq
  have hzero := List.count_eq_zero.mpr (h.clean hbroken)
  have htotal := h.total
  simp only [receives, sends] at htotal
  omega

theorem tally_complete (h : q.cq.length + wcs.length ≤ c.cqe) :
    (q.complete c wcs).tally =
      ⟨q.recvs, q.unsent, q.cq.count .recv + wcs.count .recv, q.sends + wcs.count .send⟩ := by
  simp only [complete, if_pos h, tally, sends, List.count_append, Nat.add_assoc]

theorem balanced_complete (hn : n ≤ c.cqe) (hlength : q.cq.length + wcs.length ≤ n)
    (htotal : q.receives + q.sends + (wcs.count .recv + wcs.count .send) = n)
    (hclean : q.broken = false → Wc.error ∉ q.cq ++ wcs) (hoverrun : q.overrun = false) :
    Balanced n (q.complete c wcs) := by
  rw [complete, if_pos (Nat.le_trans hlength hn)]
  refine ⟨?_, hclean, by rw [List.length_append]; exact hlength, hoverrun⟩
  simp only [receives, sends, List.count_append] at htotal ⊢
  omega

@[simp] theorem tally_flush (c : Caps) (q : Qp) : (q.flush c).tally = q.tally := by
  unfold flush complete tally sends
  split_ifs <;> simp

theorem balanced_flush (hn : n ≤ c.cqe) (htotal : q.receives + q.sends = n)
    (hclean : q.broken = false → Wc.error ∉ q.cq) (hlength : q.cq.length + 1 ≤ n) (hoverrun : q.overrun = false) :
    Balanced n (q.flush c) := by
  rw [flush]
  split_ifs with hbroken
  · exact balanced_complete hn hlength htotal (fun h => absurd (hbroken.symm.trans h) (by decide)) hoverrun
  · exact ⟨htotal, hclean, Nat.le_of_succ_le hlength, hoverrun⟩

theorem Balanced.postSend (h : Balanced n q) (hsend : n < c.maxSendWr) (hn : n < c.cqe) :
    ∃ q', q.postSend c = some q' ∧ Balanced (n + 1) q' ∧
      q'.tally = { q.tally with unsent := q.tally.unsent + 1, sends := q.tally.sends + 1 } := by
  have htotal := h.total
  refine ⟨_, if_pos (by omega), balanced_flush hn ?_ h.clean (Nat.succ_le_succ h.length) h.overrun, ?_⟩
  · simp only [receives, sends] at htotal ⊢
    omega
  · rw [tally_flush]
    simp only [tally, sends, Tally.mk.injEq, true_and]
    omega

theorem Balanced.postRecv (h : Balanced n q) (hrecv : n < c.maxRecvWr) (hn : n < c.cqe) :
    ∃ q', q.postRecv c = some q' ∧ Balanced (n + 1) q' ∧
      q'.tally = { q.tally with recvs := q.tally.recvs + 1 } := by
  have htotal := h.total
  refine ⟨_, if_pos (by omega), balanced_flush hn ?_ h.clean (Nat.succ_le_succ h.length) h.overrun, tally_flush _ _⟩
  simp only [receives, sends] at htotal ⊢
  omega

theorem Balanced.complete_one {r t : Nat} (h : Balanced n q) (hn : n ≤ c.cqe) (hbroken : ¬q.broken = true)
    (htaken : r + t + 1 = q.recvs + q.sent) (hwc : wc ≠ .error) :
    q.cq.length + 1 ≤ c.cqe ∧ Balanced n (complete c { q with recvs := r, sent := t } [wc]) := by
  rw [Bool.not_eq_true] at hbroken
  have hlength := h.length_add hbroken
  have htotal := h.total
  have hroom : q.cq.length + 1 ≤ n := by omega
  have hcount : [wc].count .recv + [wc].count .send = 1 := by
    cases wc with
    | recv => rfl
    | send => rfl
    | error => exact absurd rfl hwc
  refine ⟨Nat.le_trans hroom hn, balanced_complete hn hroom ?_ ?_ h.overrun⟩
  · rw [hcount]
    simp only [receives, sends] at htotal ⊢
    omega
  · intro _ hmem
    rcases List.mem_append.mp hmem with hmem | hmem
    · exact h.clean hbroken hmem
    · exact hwc (List.mem_singleton.mp hmem).symm

theorem Balanced.receive (h : Balanced n q) (hn : n ≤ c.cqe) (heq : q.receive c = some q') :
    Balanced n q' ∧ q.tally.recvs ≠ 0 ∧
      q'.tally = { q.tally with recvs := q.tally.recvs - 1, arrived := q.tally.arrived + 1 } := by
  rw [Qp.receive] at heq
  split_ifs at heq with hguard
  obtain ⟨hbroken, hrecvs⟩ := not_or.mp hguard
  obtain ⟨hroom, hbalanced⟩ := h.complete_one (r := q.recvs - 1) (t := q.sent) hn hbroken (by omega)
    (show Wc.recv ≠ .error by decide)
  obtain rfl := Option.some.inj heq
  exact ⟨hbalanced, hrecvs, tally_complete hroom⟩

theorem Balanced.transmit (h : Balanced n q) (heq : q.transmit = some q') :
    Balanced n q' ∧ q.tally.unsent ≠ 0 ∧ q'.tally = { q.tally with unsent := q.tally.unsent - 1 } := by
  rw [Qp.transmit] at heq
  split_ifs at heq with hguard
  obtain ⟨-, hunsent⟩ := not_or.mp hguard
  obtain rfl := Option.some.inj heq
  have hsends : sends { q with unsent := q.unsent - 1, sent := q.sent + 1 } = q.sends := by
    simp only [sends]
    omega
  refine ⟨⟨?_, h.clean, h.length, h.overrun⟩, hunsent, ?_⟩
  · rw [hsends]
    exact h.total
  · rw [tally, hsends]
    rfl

theorem Balanced.acknowledge (h : Balanced n q) (hn : n ≤ c.cqe) (heq : q.acknowledge c = some q') :
    Balanced n q' ∧ q'.tally = q.tally := by
  rw [Qp.acknowledge] at heq
  split_ifs at heq with hguard
  obtain ⟨hbroken, hsent⟩ := not_or.mp hguard
  obtain ⟨hroom, hbalanced⟩ := h.complete_one (r := q.recvs) (t := q.sent - 1) hn hbroken (by omega)
    (show Wc.send ≠ .error by decide)
  obtain rfl := Option.some.inj heq
  refine ⟨hbalanced, (tally_complete hroom).trans ?_⟩
  rw [show [Wc.send].count .recv = 0 from rfl, show [Wc.send].count .send = 1 from rfl]
  simp only [tally, sends, Tally.mk.injEq, true_and]
  omega

theorem Balanced.fail (h : Balanced n q) (hn : n ≤ c.cqe) (heq : q.fail c = some q') :
    Balanced n q' ∧ q'.tally = q.tally := by
  rw [Qp.fail] at heq
  split_ifs at heq with hbroken
  rw [Bool.not_eq_true] at hbroken
  have hlength := h.length_add hbroken
  have hroom : q.cq.length + (List.replicate (q.recvs + q.unsent + q.sent) Wc.error).length ≤ n := by
    rw [List.length_replicate]
    omega
  obtain rfl := Option.some.inj heq
  refine ⟨balanced_complete hn hroom ?_ (fun h => absurd h (by simp)) h.overrun, ?_⟩
  · simpa [List.count_replicate, receives, sends] using h.total
  · rw [tally_complete (q := { q with broken := true }) (Nat.le_trans hroom hn)]
    simp [tally, sends, List.count_replicate]

theorem poll_eq_some (h : q.poll = some (wc, q')) : q.cq = wc :: q'.cq ∧ q' = { q with cq := q'.cq } := by
  rw [poll] at h
  split at h
  next => cases h
  next hcq =>
    obtain ⟨rfl, rfl⟩ := Prod.mk.inj (Option.some.inj h)
    exact ⟨hcq, rfl⟩

theorem tally_poll (h : q.poll = some (wc, q')) : q.tally = q'.tally.add wc := by
  obtain ⟨hcq, hq'⟩ := poll_eq_some h
  rw [tally, sends, hcq, hq']
  cases wc <;> simp [tally, sends, Tally.add, Nat.add_assoc]

theorem Balanced.clean_poll (h : Balanced n q) (heq : q.poll = some (wc, q')) :
    (q'.broken = false → Wc.error ∉ q'.cq) ∧ q'.cq.length + 1 ≤ n ∧ q'.overrun = false := by
  obtain ⟨hcq, hq'⟩ := poll_eq_some heq
  have hlength := h.length
  rw [hcq, List.length_cons] at hlength
  refine ⟨fun hbroken => ?_, hlength, by rw [hq']; exact h.overrun⟩
  rw [hq'] at hbroken
  have hclean := h.clean hbroken
  rw [hcq] at hclean
  exact fun hmem => hclean (List.mem_cons_of_mem _ hmem)

theorem tally_total (q : Qp) : q.receives + q.sends = q.tally.recvs + q.tally.arrived + q.tally.sends := rfl

theorem Balanced.poll (h : Balanced (n + 1) q) (heq : q.poll = some (wc, q')) (hwc : wc ≠ .error) : Balanced n q' := by
  obtain ⟨hclean, hlength, hoverrun⟩ := h.clean_poll heq
  refine ⟨?_, hclean, Nat.le_of_succ_le_succ hlength, hoverrun⟩
  have htotal := h.total
  rw [tally_total, tally_poll heq] at htotal
  rw [tally_total]
  cases wc with
  | recv => simp only [Tally.add] at htotal; omega
  | send => simp only [Tally.add] at htotal; omega
  | error => exact absurd rfl hwc

theorem Balanced.answer {q₁ : Qp} (h : Balanced n q) (hpoll : q.poll = some (.recv, q₁)) (hsend : n ≤ c.maxSendWr)
    (hn : n ≤ c.cqe) :
    ∃ q', q₁.postSend c = some q' ∧ Balanced n q' ∧ q'.tally.unsent = q.tally.unsent + 1 ∧
      q.tally.arrived = q'.tally.arrived + 1 ∧ q'.tally.sends = q.tally.sends + 1 := by
  obtain ⟨-, hlength, -⟩ := h.clean_poll hpoll
  obtain ⟨m, rfl⟩ : ∃ m, n = m + 1 := ⟨n - 1, by omega⟩
  obtain ⟨q', hpost, hbalanced, htally⟩ := (h.poll hpoll (by decide)).postSend hsend hn
  refine ⟨q', hpost, hbalanced, ?_⟩
  rw [htally, tally_poll hpoll]
  exact ⟨rfl, rfl, rfl⟩

theorem Balanced.renew {q₁ : Qp} (h : Balanced n q) (hpoll : q.poll = some (.send, q₁)) (hrecv : n ≤ c.maxRecvWr)
    (hn : n ≤ c.cqe) :
    ∃ q', q₁.postRecv c = some q' ∧ Balanced n q' ∧ q'.tally.unsent = q.tally.unsent ∧
      q'.tally.arrived = q.tally.arrived ∧ q.tally.sends = q'.tally.sends + 1 := by
  obtain ⟨-, hlength, -⟩ := h.clean_poll hpoll
  obtain ⟨m, rfl⟩ : ∃ m, n = m + 1 := ⟨n - 1, by omega⟩
  obtain ⟨q', hpost, hbalanced, htally⟩ := (h.poll hpoll (by decide)).postRecv hrecv hn
  refine ⟨q', hpost, hbalanced, ?_⟩
  rw [htally, tally_poll hpoll]
  exact ⟨rfl, rfl, rfl⟩

theorem Balanced.poll_error (h : Balanced n q) (heq : q.poll = some (.error, q')) : Balanced n q' := by
  obtain ⟨hclean, hlength, hoverrun⟩ := h.clean_poll heq
  refine ⟨?_, hclean, Nat.le_of_succ_le hlength, hoverrun⟩
  rw [tally_total, show q'.tally = q.tally from (tally_poll heq).symm]
  exact h.total

/-! ### Without errors -/

section Sound

theorem postSend_eq (hbroken : q.broken = false) (h : q.sends < c.maxSendWr) :
    q.postSend c = some { q with unsent := q.unsent + 1 } := by
  rw [Qp.postSend, if_pos h, flush, if_neg (by simp [hbroken])]

theorem postRecv_eq (hbroken : q.broken = false) (h : q.receives < c.maxRecvWr) :
    q.postRecv c = some { q with recvs := q.recvs + 1 } := by
  rw [Qp.postRecv, if_pos h, flush, if_neg (by simp [hbroken])]

theorem transmit_eq (hbroken : q.broken = false) (h : q.unsent ≠ 0) :
    q.transmit = some { q with unsent := q.unsent - 1, sent := q.sent + 1 } := by
  rw [Qp.transmit, if_neg (by simp [hbroken, h])]

theorem Balanced.receive_eq (h : Balanced n q) (hn : n ≤ c.cqe) (hbroken : q.broken = false) (hrecvs : q.recvs ≠ 0) :
    q.receive c = some { q with recvs := q.recvs - 1, cq := q.cq ++ [.recv] } := by
  have hlength := h.length_add hbroken
  rw [Qp.receive, if_neg (by simp [hbroken, hrecvs]), complete, if_pos]
  show q.cq.length + 1 ≤ c.cqe
  omega

theorem Balanced.acknowledge_eq (h : Balanced n q) (hn : n ≤ c.cqe) (hbroken : q.broken = false) (hsent : q.sent ≠ 0) :
    q.acknowledge c = some { q with sent := q.sent - 1, cq := q.cq ++ [.send] } := by
  have hlength := h.length_add hbroken
  rw [Qp.acknowledge, if_neg (by simp [hbroken, hsent]), complete, if_pos]
  show q.cq.length + 1 ≤ c.cqe
  omega

theorem Balanced.poll_cases (h : Balanced n q) (hbroken : q.broken = false) :
    (q.cq = [] ∧ q.poll = none) ∨
    ∃ wc rest, wc ≠ .error ∧ q.cq = wc :: rest ∧ q.poll = some (wc, { q with cq := rest }) := by
  cases hcq : q.cq with
  | nil => exact .inl ⟨rfl, by rw [Qp.poll, hcq]⟩
  | cons wc rest =>
    refine .inr ⟨wc, rest, ?_, rfl, by rw [Qp.poll, hcq]⟩
    rintro rfl
    exact h.clean hbroken (hcq ▸ List.mem_cons_self)

end Sound

end Qp

end Verbs
