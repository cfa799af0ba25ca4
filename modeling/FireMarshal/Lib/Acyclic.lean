import Mathlib.Data.List.Basic
import Mathlib.Logic.Relation
import Mathlib.Tactic.Common

/-! Relations without cycles. -/

variable {α : Type} {R : α → α → Prop}

def Acyclic (R : α → α → Prop) : Prop := ∀ x, ¬ Relation.TransGen R x x

theorem acyclic_of_lt (rank : α → Nat) (h : ∀ x y, R x y → rank y < rank x) : Acyclic R := by
  have hlt : ∀ x y, Relation.TransGen R x y → rank y < rank x := by
    intro x y hxy
    induction hxy with
    | single hr => exact h _ _ hr
    | tail _ hr ih => exact Nat.lt_trans (h _ _ hr) ih
  exact fun x hx => Nat.lt_irrefl _ (hlt x x hx)

theorem not_transGen_of_acc {x : α} (h : Acc (fun b a => R a b) x) : ¬ Relation.TransGen R x x := by
  induction h with
  | intro x _ ih =>
    intro hx
    obtain ⟨y, hxy, hyx⟩ := Relation.TransGen.head'_iff.mp hx
    exact ih y hxy (.tail' hyx hxy)

theorem countP_lt_of_mem {p q : α → Bool} {l : List α} (hpq : ∀ x, p x = true → q x = true) {r : α} (hr : r ∈ l)
    (hp : p r = false) (hq : q r = true) : l.countP p < l.countP q := by
  induction l with
  | nil => cases hr
  | cons x l ih =>
    have hle : l.countP p ≤ l.countP q := List.countP_mono_left fun x _ => hpq x
    rcases List.mem_cons.mp hr with rfl | hr
    · simp only [List.countP_cons, hp, hq, Bool.false_eq_true, if_true, if_false]
      omega
    · have := ih hr
      have hx := hpq x
      cases hpx : p x with
      | false =>
        simp only [List.countP_cons, hpx, Bool.false_eq_true, if_false]
        omega
      | true =>
        simp only [List.countP_cons, hpx, hx hpx, if_true]
        omega

namespace Acyclic

/-- The number of objects of `l` that are reached from `x`. -/
noncomputable def height (R : α → α → Prop) (l : List α) (x : α) : Nat :=
  open Classical in l.countP fun y => Relation.TransGen R x y

theorem height_le (R : α → α → Prop) (l : List α) (x : α) : height R l x ≤ l.length := List.countP_le_length

theorem height_lt (h : Acyclic R) {l : List α} {x y : α} (hxy : R x y) (hy : y ∈ l) : height R l y < height R l x := by
  refine countP_lt_of_mem (fun z hz => ?_) hy ?_ ?_
  · simp only [decide_eq_true_eq] at hz ⊢
    exact .head hxy hz
  · simpa using h y
  · simp only [decide_eq_true_eq]
    exact .single hxy

end Acyclic
