import FireMarshal.Lib.Run

/-! First-in first-out queues of bounded capacity, as machines that answer every operation. -/

namespace Fifo

inductive Op (α : Type) where
  | push (x : α)
  | pop
deriving DecidableEq, Repr

inductive Out (α : Type) where
  | pushed (accepted : Bool)
  | popped (x : Option α)
deriving DecidableEq, Repr

variable {α : Type}

/-- The queue `q`, oldest element first, rejects a push when it holds `cap` elements. -/
def step (cap : Nat) (q : List α) : Op α → List α × Out α
  | .push x => if q.length < cap then (q ++ [x], .pushed true) else (q, .pushed false)
  | .pop => (q.tail, .popped q.head?)

def next (cap : Nat) (q : List α) (op : Op α) : List α := (step cap q op).1

def Below (n : Nat) (q : List α) : Op α → Prop
  | .push _ => q.length < n
  | .pop => True

variable {c d : Nat} {q : List α} {op : Op α}

theorem length_next (h : q.length ≤ c) : (next c q op).length ≤ c := by
  cases op with
  | push x =>
    simp only [next, step]
    split
    · next hlt => simpa using Nat.succ_le_of_lt hlt
    · exact h
  | pop =>
    simp only [next, step, List.length_tail]
    omega

theorem step_eq_iff (h : c < d) (hq : q.length ≤ c) :
    (step c q op).2 = (step d q op).2 ↔ Below c q op := by
  cases op with
  | push x =>
    have hd : q.length < d := by omega
    simp only [step, if_pos hd, Below]
    split
    · next hlt => exact iff_of_true rfl hlt
    · next hge => exact iff_of_false (by simp) hge
  | pop => exact iff_of_true rfl trivial

theorem next_eq_of_below (h : c < d) (hb : Below c q op) : next c q op = next d q op := by
  cases op with
  | push x =>
    have hc : q.length < c := hb
    have hd : q.length < d := by omega
    simp only [next, step, if_pos hc, if_pos hd]
  | pop => rfl

/-- A queue passes for one of a larger capacity exactly in the runs whose pushes find it below its own. -/
theorem outputs_eq_iff (ops : List (Op α)) (h : c < d) (hq : q.length ≤ c) :
    Run.outputs (step c) q ops = Run.outputs (step d) q ops ↔ Run.Guarded (next d) q ops (Below c) := by
  induction ops generalizing q with
  | nil => exact iff_of_true rfl Run.guarded_nil
  | cons op ops ih =>
    rw [Run.outputs, Run.outputs, List.cons.injEq, step_eq_iff h hq, Run.guarded_cons]
    refine and_congr_right fun hb => ?_
    have heq : (step d q op).1 = (step c q op).1 := (next_eq_of_below h hb).symm
    rw [next, heq]
    exact ih (length_next hq)

end Fifo
