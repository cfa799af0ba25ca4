import Mathlib.Data.List.Basic
import Mathlib.Tactic.Common

/-! Tables that grow at their end. -/

namespace Table

variable {α : Type} {l l' : List α} {a x : α} {k : Nat}

theorem getElem?_concat_iff : (l ++ [a])[k]? = some x ↔ l[k]? = some x ∨ k = l.length ∧ a = x := by
  rcases Nat.lt_trichotomy k l.length with hlt | rfl | hgt
  · rw [List.getElem?_append_left hlt]
    simp [Nat.ne_of_lt hlt]
  · simp
  · rw [List.getElem?_eq_none (by rw [List.length_append, List.length_singleton]; exact hgt),
      List.getElem?_eq_none (Nat.le_of_lt hgt)]
    simp [Nat.ne_of_gt hgt]

theorem getElem?_mono (h : l <+: l') (hk : l[k]? = some x) : l'[k]? = some x := by
  obtain ⟨later, rfl⟩ := h
  rw [List.getElem?_append_left (List.getElem?_eq_some_iff.mp hk).1]
  exact hk

end Table
