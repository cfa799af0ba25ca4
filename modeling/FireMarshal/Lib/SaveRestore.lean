import Mathlib.Data.List.Basic
import Mathlib.Logic.Function.Basic
import Mathlib.Tactic.Common

/-! Values that are saved, overwritten, and put back. What is saved may be less than the value, and a place may be
    listed more than once: then what was overwritten is saved too, and put back last. -/

namespace SaveRestore

variable {ι V : Type} [DecidableEq ι] (sv : V → V) (top : V)

def overwrite : List ι → (ι → V) → ι → V
  | [], v => v
  | i :: l, v => overwrite l (Function.update v i top)

def saves : List ι → (ι → V) → List V
  | [], _ => []
  | i :: l, v => sv (v i) :: saves l (Function.update v i top)

def putBack : List (ι × V) → (ι → V) → ι → V
  | [], w => w
  | (i, x) :: l, w => putBack l (Function.update w i x)

/-- The value of a place that is listed a number of times, once all is put back. -/
def settled (n : Nat) (v : V) : V := if n = 0 then v else if n = 1 then sv v else sv top

variable {sv top} {i : ι} {v : V}

theorem length_saves (l : List ι) (v : ι → V) : (saves sv top l v).length = l.length := by
  induction l generalizing v with
  | nil => rfl
  | cons i l ih => simp [saves, ih]

theorem exists_of_mem_saves {x : V} {l : List ι} {v : ι → V} (h : x ∈ saves sv top l v) : ∃ w, sv w = x := by
  induction l generalizing v with
  | nil => simp [saves] at h
  | cons i l ih =>
    rcases List.mem_cons.mp h with rfl | h
    · exact ⟨v i, rfl⟩
    · exact ih h

theorem overwrite_of_not_mem {l : List ι} (h : i ∉ l) (v : ι → V) : overwrite top l v i = v i := by
  induction l generalizing v with
  | nil => rfl
  | cons j l ih =>
    rw [List.mem_cons, not_or] at h
    obtain ⟨hj, hl⟩ := h
    rw [overwrite, ih hl, Function.update_of_ne hj]

theorem overwrite_of_mem {l : List ι} (h : i ∈ l) (v : ι → V) : overwrite top l v i = top := by
  induction l generalizing v with
  | nil => simp at h
  | cons j l ih =>
    rw [overwrite]
    by_cases hl : i ∈ l
    · exact ih hl _
    · obtain rfl : i = j := (List.mem_cons.mp h).resolve_right hl
      rw [overwrite_of_not_mem hl, Function.update_self]

theorem saves_append_singleton (l : List ι) (i : ι) (v : ι → V) :
    saves sv top (l ++ [i]) v = saves sv top l v ++ [sv (overwrite top l v i)] := by
  induction l generalizing v with
  | nil => rfl
  | cons j l ih => simp [saves, overwrite, ih]

theorem saves_take (n : Nat) (l : List ι) (v : ι → V) : saves sv top (l.take n) v = (saves sv top l v).take n := by
  induction l generalizing n v with
  | nil => simp [saves]
  | cons i l ih =>
    cases n with
    | zero => rfl
    | succ n => simp [saves, ih]

theorem putBack_saves (l : List ι) (v w : ι → V) (i : ι) :
    putBack (l.zip (saves sv top l v)) w i = if l.count i = 0 then w i else settled sv top (l.count i) (v i) := by
  induction l generalizing v w with
  | nil => simp [putBack]
  | cons j l ih =>
    rw [saves, List.zip_cons_cons, putBack, ih]
    by_cases hj : j = i
    · -- From the second time on, `top` is what is saved.
      subst hj
      simp only [List.count_cons_self, Function.update_self, settled]
      by_cases hzero : l.count j = 0
      · simp [hzero]
      · simp [hzero]
    · simp [List.count_cons_of_ne hj, Function.update_of_ne (Ne.symm hj)]

/-! ### Several rounds -/

/-- The value of a place after rounds that list it these numbers of times. -/
def settle (sv : V → V) (top : V) (counts : List Nat) (v : V) : V := counts.foldl (fun v n => settled sv top n v) v

theorem settle_eq (hsv : ∀ v, sv (sv v) = sv v) (htop : sv top = top) (counts : List Nat) (v : V) :
    settle sv top counts v =
      if ∃ n ∈ counts, 2 ≤ n then top else if ∃ n ∈ counts, n ≠ 0 then sv v else v := by
  induction counts generalizing v with
  | nil => simp [settle]
  | cons n counts ih =>
    have hrest : settle sv top (n :: counts) v = settle sv top counts (settled sv top n v) := rfl
    rw [hrest, ih]
    rcases n with _ | _ | n
    · simp [settled]
    · simp [settled, hsv]
    · simp [settled, htop]

/-- A value that rounds list survives them only if they list it once each and all of it is saved, or if overwriting
    does not change it. -/
theorem settle_eq_self_iff (hsv : ∀ v, sv (sv v) = sv v) (htop : sv top = top) {counts : List Nat}
    (hlisted : ∃ n ∈ counts, n ≠ 0) :
    settle sv top counts v = v ↔ v = top ∨ sv v = v ∧ ∀ n ∈ counts, n ≤ 1 := by
  rw [settle_eq hsv htop]
  by_cases htwice : ∃ n ∈ counts, 2 ≤ n
  · have hnot : ¬ ∀ n ∈ counts, n ≤ 1 := by
      obtain ⟨n, hn, htwo⟩ := htwice
      intro h
      have := h n hn
      omega
    simp [htwice, hnot, eq_comm]
  · have hone : ∀ n ∈ counts, n ≤ 1 := by
      intro n hn
      by_contra h
      exact htwice ⟨n, hn, by omega⟩
    rw [if_neg htwice, if_pos hlisted]
    constructor
    · intro h
      exact .inr ⟨h, hone⟩
    · rintro (rfl | ⟨h, -⟩)
      · exact htop
      · exact h

/-! ### Rounds that stop half-way -/

/-- The value of a place after a round that overwrote it a number of times and put it back a number of times. -/
def halfSettled (sv : V → V) (top : V) (overwritten back : Nat) (v : V) : V :=
  if back = 0 then if overwritten = 0 then v else top else settled sv top back v

theorem halfSettled_of_back {overwritten back : Nat} {v x : V}
    (h : back = 0 → x = halfSettled sv top overwritten 0 v) :
    (if back = 0 then x else settled sv top back v) = halfSettled sv top overwritten back v := by
  by_cases hback : back = 0
  · rw [if_pos hback, h hback, hback]
  · rw [if_neg hback, halfSettled, if_neg hback]

def halfSettle (sv : V → V) (top : V) (rounds : List (Nat × Nat)) (v : V) : V :=
  rounds.foldl (fun v r => halfSettled sv top r.1 r.2 v) v

theorem halfSettle_singleton (r : Nat × Nat) (v : V) : halfSettle sv top [r] v = halfSettled sv top r.1 r.2 v := rfl

theorem halfSettle_eq (htop : sv top = top) {rounds : List (Nat × Nat)} (hback : ∀ r ∈ rounds, r.2 ≤ r.1) {v : V}
    (hv : sv v = v) :
    halfSettle sv top rounds v = if ∃ r ∈ rounds, r.1 ≠ 0 ∧ r.2 ≠ 1 then top else v := by
  induction rounds generalizing v with
  | nil => simp [halfSettle]
  | cons r rounds ih =>
    obtain ⟨hr, hrest⟩ := List.forall_mem_cons.mp hback
    have hcons : halfSettle sv top (r :: rounds) v = halfSettle sv top rounds (halfSettled sv top r.1 r.2 v) := rfl
    rw [hcons]
    by_cases hbad : r.1 ≠ 0 ∧ r.2 ≠ 1
    · -- The place holds `top`, which later rounds keep.
      have hfirst : halfSettled sv top r.1 r.2 v = top := by
        by_cases hzero : r.2 = 0
        · simp [halfSettled, hzero, hbad.1]
        · simp [halfSettled, settled, hzero, hbad.2, htop]
      rw [hfirst, ih hrest htop, ite_self, if_pos ⟨r, List.mem_cons_self, hbad⟩]
    · have hfirst : halfSettled sv top r.1 r.2 v = v := by
        by_cases hzero : r.1 = 0
        · simp [halfSettled, Nat.le_zero.mp (hzero ▸ hr), hzero]
        · have hone : r.2 = 1 := by
            by_contra hne
            exact hbad ⟨hzero, hne⟩
          simp [halfSettled, settled, hone, hv]
      have hsame : (∃ x ∈ r :: rounds, x.1 ≠ 0 ∧ x.2 ≠ 1) ↔ ∃ x ∈ rounds, x.1 ≠ 0 ∧ x.2 ≠ 1 := by
        rw [List.exists_mem_cons_iff, or_iff_right hbad]
      rw [hfirst, ih hrest hv]
      exact if_congr hsame.symm rfl rfl

/-- A value survives rounds exactly if each round that overwrites it puts it back once, or if overwriting does not
    change it. -/
theorem halfSettle_eq_self_iff (htop : sv top = top) {rounds : List (Nat × Nat)} (hback : ∀ r ∈ rounds, r.2 ≤ r.1)
    (hv : sv v = v) : halfSettle sv top rounds v = v ↔ v = top ∨ ∀ r ∈ rounds, r.1 ≠ 0 → r.2 = 1 := by
  rw [halfSettle_eq htop hback hv]
  by_cases hbad : ∃ r ∈ rounds, r.1 ≠ 0 ∧ r.2 ≠ 1
  · have hnot : ¬ ∀ r ∈ rounds, r.1 ≠ 0 → r.2 = 1 := by
      obtain ⟨r, hr, hzero, hne⟩ := hbad
      intro h
      exact hne (h r hr hzero)
    rw [if_pos hbad]
    constructor
    · intro h
      exact .inl h.symm
    · intro h
      exact (h.resolve_right hnot).symm
  · rw [if_neg hbad]
    refine iff_of_true rfl (.inr fun r hr hzero => ?_)
    by_contra hne
    exact hbad ⟨r, hr, hzero, hne⟩

end SaveRestore
