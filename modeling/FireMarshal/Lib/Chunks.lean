import Mathlib.Data.List.Basic
import Mathlib.Tactic.Common

/-! A stream that arrives in chunks. A read gets the rest of a chunk, or as much of it as was asked for. -/

namespace Chunks

variable {α : Type}

/-- A read of at most `n` elements, and what is left; at the end of the stream it gets nothing. -/
def read (n : Nat) : List (List α) → List α × List (List α)
  | [] => ([], [])
  | c :: cs => if c.length ≤ n then (c, cs) else (c.take n, c.drop n :: cs)

/-- What reads of at most `n` elements get, up to the first that gets nothing. -/
def reads (n : Nat) : Nat → List (List α) → List (List α)
  | 0, _ => []
  | fuel + 1, cs => if (read n cs).1 = [] then [] else (read n cs).1 :: reads n fuel (read n cs).2

def Proper (cs : List (List α)) : Prop := [] ∉ cs

variable {n : Nat} {cs : List (List α)}

theorem read_append (n : Nat) (cs : List (List α)) : (read n cs).1 ++ (read n cs).2.flatten = cs.flatten := by
  cases cs with
  | nil => rfl
  | cons c cs =>
    rw [read]
    split
    · rfl
    · rw [List.flatten_cons, List.flatten_cons, ← List.append_assoc, List.take_append_drop]

theorem length_read_le (n : Nat) (cs : List (List α)) : (read n cs).1.length ≤ n := by
  cases cs with
  | nil => exact Nat.zero_le n
  | cons c cs =>
    rw [read]
    split
    · next h => exact h
    · exact (List.length_take_le n c)

theorem Proper.read (h : Proper cs) (n : Nat) : Proper (read n cs).2 := by
  cases cs with
  | nil => exact h
  | cons c cs =>
    rw [Chunks.read]
    split
    · exact fun hmem => h (List.mem_cons_of_mem _ hmem)
    · next hlong =>
      rintro (hmem : [] ∈ c.drop n :: cs)
      rcases List.mem_cons.mp hmem with hnil | hmem
      · exact hlong (List.drop_eq_nil_iff.mp hnil.symm)
      · exact h (List.mem_cons_of_mem _ hmem)

theorem Proper.read_eq_nil (h : Proper cs) (hn : 0 < n) : (Chunks.read n cs).1 = [] ↔ cs.flatten = [] := by
  cases cs with
  | nil => simp [Chunks.read]
  | cons c cs =>
    have hc : c ≠ [] := fun hc => h (hc ▸ List.mem_cons_self)
    rw [Chunks.read]
    split
    · simp [hc]
    · simp [hc, Nat.ne_of_gt hn]

theorem Proper.flatten_reads (h : Proper cs) (hn : 0 < n) {fuel : Nat} (hfuel : cs.flatten.length ≤ fuel) :
    (reads n fuel cs).flatten = cs.flatten := by
  induction fuel generalizing cs with
  | zero => exact (List.eq_nil_of_length_eq_zero (Nat.le_zero.mp hfuel)).symm
  | succ fuel ih =>
    rw [reads]
    split
    · next hnil => exact ((h.read_eq_nil hn).mp hnil).symm
    · next hsome =>
      have hlen := congrArg List.length (read_append n cs)
      rw [List.length_append] at hlen
      have hpos := List.length_pos_iff.mpr hsome
      rw [List.flatten_cons, ih (h.read n) (by omega), read_append]

end Chunks
