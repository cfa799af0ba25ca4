import Mathlib.Data.List.Induction
import Mathlib.Data.List.Infix
import Mathlib.Tactic.Common

/-! Steps that may raise: the state that they leave, and the exception if there is one. -/

namespace Raising

variable {σ α ε : Type}

def andThen (x : σ × Option ε) (g : σ → σ × Option ε) : σ × Option ε :=
  match x with
  | (s, some e) => (s, some e)
  | (s, none) => g s

/-- `try` and `finally`: what the second part raises replaces the exception of the first. -/
def andFinally (x : σ × Option ε) (g : σ → σ × Option ε) : σ × Option ε := ((g x.1).1, (g x.1).2.or x.2)

def each (f : α → σ → σ × Option ε) : List α → σ → σ × Option ε
  | [], s => (s, none)
  | x :: xs, s => andThen (f x s) (each f xs)

@[simp] theorem andThen_done (s : σ) (g : σ → σ × Option ε) : andThen (s, none) g = g s := rfl

@[simp] theorem andThen_raised (s : σ) (e : ε) (g : σ → σ × Option ε) : andThen (s, some e) g = (s, some e) := rfl

theorem andThen_none {x : σ × Option ε} {g : σ → σ × Option ε} {t : σ} :
    andThen x g = (t, none) ↔ ∃ s, x = (s, none) ∧ g s = (t, none) := by
  obtain ⟨s, e⟩ := x
  cases e with
  | none => simp [andThen]
  | some e => simp [andThen]

theorem andThen_state {P : σ → Prop} {x : σ × Option ε} {g : σ → σ × Option ε} (hx : P x.1)
    (hg : ∀ s, x = (s, none) → P (g s).1) : P (andThen x g).1 := by
  obtain ⟨s, e⟩ := x
  cases e with
  | none => exact hg s rfl
  | some e => exact hx

variable {f : α → σ → σ × Option ε} {xs : List α} {s t : σ}

theorem each_cons_none {x : α} (h : each f (x :: xs) s = (t, none)) :
    ∃ u, f x s = (u, none) ∧ each f xs u = (t, none) := andThen_none.mp h

theorem each_state {P : σ → Prop} (hs : P s) (hstep : ∀ x ∈ xs, ∀ s, P s → P (f x s).1) : P (each f xs s).1 := by
  induction xs generalizing s with
  | nil => exact hs
  | cons x xs ih =>
    have hx := hstep x List.mem_cons_self s hs
    refine andThen_state hx fun u hu => ih ?_ fun y hy => hstep y (List.mem_cons_of_mem x hy)
    rwa [hu] at hx

theorem each_congr {g : α → σ → σ × Option ε} (h : ∀ x ∈ xs, ∀ s, f x s = g x s) : each f xs s = each g xs s := by
  induction xs generalizing s with
  | nil => rfl
  | cons x xs ih =>
    obtain ⟨hx, hrest⟩ := List.forall_mem_cons.mp h
    rw [each, each, hx]
    exact congrArg _ (funext fun u => ih hrest)

theorem each_append (xs ys : List α) (s : σ) : each f (xs ++ ys) s = andThen (each f xs s) (each f ys) := by
  induction xs generalizing s with
  | nil => rfl
  | cons x xs ih =>
    rw [List.cons_append, each, each]
    cases hx : f x s with
    | mk u e =>
      cases e with
      | none => exact ih u
      | some e => rfl

theorem each_append_singleton_none {x : α} :
    each f (xs ++ [x]) s = (t, none) ↔ ∃ u, each f xs s = (u, none) ∧ f x u = (t, none) := by
  have hlast : ∀ u, each f [x] u = (t, none) ↔ f x u = (t, none) := fun u => by simp [each, andThen_none]
  simp [each_append, andThen_none, hlast]

theorem each_some {e : ε} (h : each f xs s = (t, some e)) :
    ∃ pre x rest u, xs = pre ++ x :: rest ∧ each f pre s = (u, none) ∧ f x u = (t, some e) := by
  induction xs generalizing s with
  | nil => cases h
  | cons x xs ih =>
    rw [each] at h
    cases hx : f x s with
    | mk u eu =>
      rw [hx] at h
      cases eu with
      | some e' =>
        cases h
        exact ⟨[], x, xs, s, rfl, rfl, hx⟩
      | none =>
        obtain ⟨pre, y, rest, v, rfl, hpre, hy⟩ := ih h
        exact ⟨x :: pre, y, rest, v, rfl, by rw [each, hx]; exact hpre, hy⟩

/-! ### How far a loop comes -/

/-- Every element has a property that depends on those before it. -/
def InTurn (P : List α → α → Prop) (xs : List α) : Prop := ∀ before x rest, xs = before ++ x :: rest → P before x

section InTurn

variable {P : List α → α → Prop}

theorem InTurn.nil : InTurn P [] := fun before x rest h => by simp at h

theorem InTurn.pre {ys : List α} (h : InTurn P ys) (hxs : xs <+: ys) : InTurn P xs := by
  obtain ⟨zs, rfl⟩ := hxs
  intro before x rest hsplit
  exact h before x (rest ++ zs) (by rw [hsplit, List.append_assoc, List.cons_append])

theorem inTurn_append_singleton {x : α} : InTurn P (xs ++ [x]) ↔ InTurn P xs ∧ P xs x := by
  refine ⟨fun h => ⟨h.pre (List.prefix_append ..), h xs x [] rfl⟩, ?_⟩
  rintro ⟨hxs, hx⟩ before y rest hsplit
  rcases List.eq_nil_or_concat rest with rfl | ⟨rest, z, rfl⟩
  · obtain ⟨rfl, hy⟩ := List.append_inj' hsplit rfl
    cases hy
    exact hx
  · have hlast : xs ++ [x] = (before ++ y :: rest) ++ [z] := by simpa using hsplit
    exact hxs before y rest (List.append_inj' hlast rfl).1

theorem inTurn_of_forall_mem (h : ∀ x ∈ xs, ∀ before, P before x) : InTurn P xs := by
  rintro before x rest rfl
  exact h x (by simp) before

theorem InTurn.prefix_of_not {ys before rest : List α} {x : α} (h : InTurn P ys) (hys : ys <+: before ++ x :: rest)
    (hx : ¬ P before x) : ys <+: before := by
  have hlonger : ¬ before ++ [x] <+: ys := fun hpre => hx ((h.pre hpre) before x [] rfl)
  have hsame : before ++ [x] <+: before ++ x :: rest := ⟨rest, by simp⟩
  rcases List.prefix_or_prefix_of_prefix hys hsame with hpre | hpre
  · rcases List.prefix_concat_iff.mp hpre with rfl | hpre
    · exact absurd List.prefix_rfl hlonger
    · exact hpre
  · exact absurd hpre hlonger

/-- A loop goes as far as the property does that lets its rounds return. -/
theorem each_inTurn
    (hstep : ∀ pre x u, pre ++ [x] <+: xs → each f pre s = (u, none) → ((∃ v, f x u = (v, none)) ↔ P pre x)) :
    (∃ t, each f xs s = (t, none)) ↔ InTurn P xs := by
  induction xs using List.reverseRecOn with
  | nil => exact iff_of_true ⟨s, rfl⟩ .nil
  | append_singleton xs x ih =>
    have hxs := ih fun pre y u hpre => hstep pre y u (hpre.trans (List.prefix_append ..))
    rw [inTurn_append_singleton, ← hxs]
    constructor
    · rintro ⟨t, ht⟩
      obtain ⟨u, hu, hx⟩ := each_append_singleton_none.mp ht
      exact ⟨⟨u, hu⟩, (hstep xs x u List.prefix_rfl hu).mp ⟨t, hx⟩⟩
    · rintro ⟨⟨u, hu⟩, hx⟩
      obtain ⟨t, ht⟩ := (hstep xs x u List.prefix_rfl hu).mpr hx
      exact ⟨t, each_append_singleton_none.mpr ⟨u, hu, ht⟩⟩

theorem each_stops {e : ε} (h : each f xs s = (t, some e))
    (hstep : ∀ pre x u, pre ++ [x] <+: xs → each f pre s = (u, none) → ((∃ v, f x u = (v, none)) ↔ P pre x)) :
    ∃ pre x rest u, xs = pre ++ x :: rest ∧ each f pre s = (u, none) ∧ f x u = (t, some e) ∧
      ∀ ys, ys <+: xs → (InTurn P ys ↔ ys <+: pre) := by
  obtain ⟨pre, x, rest, u, rfl, hpre, hx⟩ := each_some h
  have hinTurn : InTurn P pre := by
    refine (each_inTurn fun before y v hbefore => hstep before y v ?_).mp ⟨u, hpre⟩
    exact hbefore.trans (List.prefix_append ..)
  have hnot : ¬ P pre x := by
    rw [← hstep pre x u ⟨rest, by simp⟩ hpre, hx]
    simp
  exact ⟨pre, x, rest, u, rfl, hpre, hx, fun ys hys => ⟨fun h => h.prefix_of_not hys hnot, hinTurn.pre⟩⟩

end InTurn

/-! ### Refinement -/

section Refinement

variable {τ : Type} {R : σ → τ → Prop}

/-- Steps on a state do what a computation on values does: if nothing is raised they leave a state for its value, and
    they raise its exception or one of those that may come at any time. -/
def Refines (may : ε → Prop) (R : σ → τ → Prop) (x : σ × Option ε) (y : Except ε τ) : Prop :=
  match x.2 with
  | none => ∃ t, y = .ok t ∧ R x.1 t
  | some e => y = .error e ∨ may e

variable {may : ε → Prop}

theorem Refines.mono {Q : σ → τ → Prop} {x : σ × Option ε} {y : Except ε τ} (h : Refines may R x y)
    (hRQ : ∀ s t, R s t → Q s t) : Refines may Q x y := by
  obtain ⟨s, e⟩ := x
  cases e with
  | none =>
    obtain ⟨t, hy, hR⟩ := h
    exact ⟨t, hy, hRQ s t hR⟩
  | some e => exact h

theorem Refines.andThen {Q : σ → τ → Prop} {x : σ × Option ε} {y : Except ε τ} {f : σ → σ × Option ε}
    {g : τ → Except ε τ} (h : Refines may R x y) (hfg : ∀ s t, R s t → Refines may Q (f s) (g t)) :
    Refines may Q (Raising.andThen x f) (y >>= g) := by
  obtain ⟨s, e⟩ := x
  cases e with
  | none =>
    obtain ⟨t, rfl, hR⟩ := h
    exact hfg s t hR
  | some e =>
    rcases h with rfl | hmay
    · exact .inl rfl
    · exact .inr hmay

theorem Refines.each {g : τ → α → Except ε τ} {t : τ} (h : R s t)
    (hstep : ∀ x ∈ xs, ∀ s t, R s t → Refines may R (f x s) (g t x)) :
    Refines may R (Raising.each f xs s) (xs.foldlM g t) := by
  induction xs generalizing s t with
  | nil => exact ⟨t, rfl, h⟩
  | cons x xs ih =>
    rw [List.foldlM_cons]
    exact Refines.andThen (hstep x List.mem_cons_self s t h)
      fun s t h => ih h fun y hy => hstep y (List.mem_cons_of_mem x hy)

end Refinement

end Raising
