import FireMarshal.Accnet.Cq
import FireMarshal.Lib.Fifo

/-! `sk_buff_cq` as a queue: over every sequence of pushes and pops it answers as a first-in first-out queue
    of capacity 255 does. It passes for one with the `CONFIG_ACCNET_RING_SIZE - 1` places of its array as long as
    no push finds 255 buffers queued. -/

namespace FireMarshal.Accnet

variable {α : Type}

namespace SkBuffCq

/-- One operation with what it answers: whether a push stores its buffer, and what a pop returns. -/
def op (cq : SkBuffCq α) : Fifo.Op α → SkBuffCq α × Fifo.Out α
  | .push skb => (cq.push skb, .pushed (!cq.isFull))
  | .pop => (cq.pop.2, .popped cq.pop.1)

theorem pop_of_empty {cq : SkBuffCq α} (h : cq.contents = []) : cq.pop = (none, cq) := by
  simp only [pop, isEmpty_iff.mpr h, if_true]

theorem op_push (cq : SkBuffCq α) (skb : α) :
    (cq.op (.push skb)).2 = (Fifo.step 255 cq.contents (.push skb)).2 ∧
      (cq.op (.push skb)).1.contents = (Fifo.step 255 cq.contents (.push skb)).1 := by
  by_cases hlt : cq.contents.length < 255
  · have hfull : cq.isFull = false := by
      rw [← Bool.not_eq_true, isFull_iff]
      omega
    simp only [op, Fifo.step, if_pos hlt, hfull, Bool.not_false, contents_push skb hlt, and_self]
  · have hle := cq.length_contents_le
    have heq : cq.contents.length = 255 := by omega
    simp only [op, Fifo.step, if_neg hlt, isFull_iff.mpr heq, Bool.not_true, push_of_full heq, and_self]

theorem op_pop (cq : SkBuffCq α) :
    (cq.op .pop).2 = (Fifo.step 255 cq.contents .pop).2 ∧
      (cq.op .pop).1.contents = (Fifo.step 255 cq.contents .pop).1 := by
  cases hq : cq.contents with
  | nil => simp [op, Fifo.step, pop_of_empty hq, hq]
  | cons skb rest =>
    obtain ⟨hpop, hrest⟩ := pop_of_cons hq
    simp [op, Fifo.step, hpop, hrest]

theorem outputs_eq_fifo (cq : SkBuffCq α) (ops : List (Fifo.Op α)) :
    Run.outputs op cq ops = Run.outputs (Fifo.step 255) cq.contents ops := by
  refine Run.outputs_eq_of_sim (R := fun cq q => cq.contents = q) (fun cq q o h => ?_) rfl
  subst h
  cases o with
  | push skb => exact cq.op_push skb
  | pop => exact cq.op_pop

/-- The queue answers the operations as a queue of `CONFIG_ACCNET_RING_SIZE - 1` places, and its indices stay
    within the entries. -/
structure Refines (cq : SkBuffCq α) (ops : List (Fifo.Op α)) : Prop where
  answers : Run.outputs op cq ops = Run.outputs (Fifo.step (ringSize - 1)) [] ops
  indices : Run.Always (fun cq o => (op cq o).1) cq ops fun cq => cq.head < ringSize ∧ cq.tail < ringSize

theorem refines_iff_below (entries : Nat → α) (ops : List (Fifo.Op α)) :
    (init entries).Refines ops ↔ Run.Guarded (Fifo.next (ringSize - 1)) [] ops (Fifo.Below 255) := by
  have hfifo : Run.outputs op (init entries) ops = Run.outputs (Fifo.step 255) [] ops := by
    rw [outputs_eq_fifo, contents_init]
  have hiff := Fifo.outputs_eq_iff (c := 255) (d := ringSize - 1) (q := []) ops (by decide) (by simp)
  constructor
  · intro h
    exact hiff.mp (hfifo.symm.trans h.answers)
  · intro h
    refine ⟨hfifo.trans (hiff.mpr h), fun pre _ => ?_⟩
    have hslots : ringSlots ≤ ringSize := by decide
    exact ⟨Nat.lt_of_lt_of_le (head_lt _) hslots, Nat.lt_of_lt_of_le (tail_lt _) hslots⟩

theorem push_rejected_at_255 : ¬ (init fun _ => 0).Refines (List.replicate 256 (.push 1)) := by
  intro h
  have hcq : (Run.outputs op (init fun _ => 0) (List.replicate 256 (.push 1))).getLast? = some (.pushed false) := by
    decide +kernel
  have hfifo : (Run.outputs (Fifo.step (ringSize - 1)) [] (List.replicate 256 (.push 1))).getLast? =
      some (.pushed true) := by
    decide +kernel
  rw [h.answers, hfifo] at hcq
  exact absurd hcq (by decide)

end SkBuffCq
end FireMarshal.Accnet
