import Mathlib.Data.List.Basic
import Mathlib.Tactic.Common

/-! Streams of packets whose items carry a continuation mark: every item of a packet but its last one says
    that the packet goes on. -/

namespace Framing

variable {α : Type}

def mark : List α → List (Bool × α)
  | [] => []
  | x :: rest => (!rest.isEmpty, x) :: mark rest

/-- The packets of a stream, cut after each item without a mark, and the items after the last of them;
    `cur` holds the items of the packet that is going on. -/
def cut (cur : List α) : List (Bool × α) → List (List α) × List α
  | [] => ([], cur)
  | (true, x) :: rest => cut (cur ++ [x]) rest
  | (false, x) :: rest => ((cur ++ [x]) :: (cut [] rest).1, (cut [] rest).2)

theorem cut_mark_append {p : List α} (hp : p ≠ []) (cur : List α) (rest : List (Bool × α)) :
    cut cur (mark p ++ rest) = ((cur ++ p) :: (cut [] rest).1, (cut [] rest).2) := by
  induction p generalizing cur with
  | nil => exact absurd rfl hp
  | cons x q ih =>
    cases q with
    | nil => rfl
    | cons y q =>
      have hstep : cut cur (mark (x :: y :: q) ++ rest) = cut (cur ++ [x]) (mark (y :: q) ++ rest) := rfl
      rw [hstep, ih (List.cons_ne_nil y q), List.append_assoc, List.singleton_append]

/-- Cutting a stream recovers its packets, none of which is empty. -/
theorem cut_flatMap_mark {ps : List (List α)} (h : ∀ p ∈ ps, p ≠ []) : cut [] (ps.flatMap mark) = (ps, []) := by
  induction ps with
  | nil => rfl
  | cons p ps ih =>
    obtain ⟨hp, hps⟩ := List.forall_mem_cons.mp h
    rw [List.flatMap_cons, cut_mark_append hp, ih hps, List.nil_append]

end Framing
