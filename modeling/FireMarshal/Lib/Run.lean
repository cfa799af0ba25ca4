import Mathlib.Data.List.Basic
import Mathlib.Tactic.Common

/-! Runs of a step function. A run is a list of actions, folded from a start state; the states it
    reaches are those after each of its prefixes. -/

namespace Run

variable {S A : Type} {step : S → A → S} {s : S} {as : List A}

/-- Every state that the run `as` from `s` reaches satisfies `p`. -/
def Always (step : S → A → S) (s : S) (as : List A) (p : S → Prop) : Prop :=
  ∀ pre, pre <+: as → p (pre.foldl step s)

/-- Every step of the run `as` from `s` meets `c` in the state it is taken from. -/
def Guarded (step : S → A → S) (s : S) (as : List A) (c : S → A → Prop) : Prop :=
  ∀ pre a, pre ++ [a] <+: as → c (pre.foldl step s) a

theorem always_nil {p : S → Prop} : Always step s [] p ↔ p s := by
  constructor
  · intro h
    exact h [] (List.prefix_refl _)
  · intro h pre hpre
    obtain rfl := List.prefix_nil.mp hpre
    exact h

theorem always_cons {p : S → Prop} {a : A} : Always step s (a :: as) p ↔ p s ∧ Always step (step s a) as p := by
  constructor
  · intro h
    refine ⟨h [] (List.nil_prefix), fun pre hpre => ?_⟩
    exact h (a :: pre) (List.cons_prefix_cons.mpr ⟨rfl, hpre⟩)
  · rintro ⟨h0, h⟩ pre hpre
    cases pre with
    | nil => exact h0
    | cons b pre =>
      obtain ⟨rfl, hrest⟩ := List.cons_prefix_cons.mp hpre
      exact h pre hrest

theorem always_append {p : S → Prop} {bs : List A} :
    Always step s (as ++ bs) p ↔ Always step s as p ∧ Always step (as.foldl step s) bs p := by
  induction as generalizing s with
  | nil => exact ⟨fun h => ⟨always_nil.mpr (h [] List.nil_prefix), h⟩, fun h => h.2⟩
  | cons a as ih => rw [List.cons_append, always_cons, always_cons, ih, List.foldl_cons, and_assoc]

theorem guarded_nil {c : S → A → Prop} : Guarded step s [] c := by
  intro pre a h
  have := List.prefix_nil.mp h
  simp at this

theorem guarded_cons {c : S → A → Prop} {a : A} :
    Guarded step s (a :: as) c ↔ c s a ∧ Guarded step (step s a) as c := by
  constructor
  · intro h
    refine ⟨h [] a (by simp), fun pre b hpre => ?_⟩
    exact h (a :: pre) b (List.cons_prefix_cons.mpr ⟨rfl, hpre⟩)
  · rintro ⟨h0, h⟩ pre b hpre
    cases pre with
    | nil =>
      obtain ⟨rfl, -⟩ := List.cons_prefix_cons.mp hpre
      exact h0
    | cons d pre =>
      obtain ⟨rfl, hrest⟩ := List.cons_prefix_cons.mp hpre
      exact h pre b hrest

instance decidableGuarded {c : S → A → Prop} [∀ s a, Decidable (c s a)] :
    ∀ (as : List A) (s : S), Decidable (Guarded step s as c)
  | [], _ => isTrue guarded_nil
  | a :: as, s =>
    have : Decidable (Guarded step (step s a) as c) := decidableGuarded as (step s a)
    decidable_of_iff (c s a ∧ Guarded step (step s a) as c) guarded_cons.symm

theorem always_of_guarded {inv : S → Prop} {c : S → A → Prop} (h0 : inv s)
    (hstep : ∀ s a, inv s → c s a → inv (step s a)) (hg : Guarded step s as c) : Always step s as inv := by
  induction as generalizing s with
  | nil => exact always_nil.mpr h0
  | cons a as ih =>
    obtain ⟨ha, hg⟩ := guarded_cons.mp hg
    exact always_cons.mpr ⟨h0, ih (hstep s a h0 ha) hg⟩

theorem always_of_step {inv : S → Prop} (h0 : inv s) (hstep : ∀ s a, inv s → inv (step s a)) :
    Always step s as inv :=
  always_of_guarded (c := fun _ _ => True) h0 (fun s a h _ => hstep s a h) fun _ _ _ => trivial

theorem Always.mono {p q : S → Prop} (hpq : ∀ s, p s → q s) (h : Always step s as p) : Always step s as q :=
  fun pre hpre => hpq _ (h pre hpre)

theorem always_of_always {inv p : S → Prop} (h0 : inv s) (hstep : ∀ s a, inv s → p s → inv (step s a))
    (hp : Always step s as p) : Always step s as inv :=
  always_of_guarded (c := fun s _ => p s) h0 hstep fun pre a hpre => hp pre ((List.prefix_append pre [a]).trans hpre)

/-- If guarded steps keep an invariant that makes a state good, and an unguarded step leads to a bad
    state, then exactly the guarded runs stay good. -/
theorem always_iff_guarded {inv good : S → Prop} {c : S → A → Prop} (h0 : inv s)
    (hstep : ∀ s a, inv s → c s a → inv (step s a)) (hgood : ∀ s, inv s → good s)
    (hbad : ∀ s a, inv s → ¬c s a → ¬good (step s a)) : Always step s as good ↔ Guarded step s as c := by
  constructor
  · intro h
    induction as generalizing s with
    | nil => exact guarded_nil
    | cons a as ih =>
      obtain ⟨-, h⟩ := always_cons.mp h
      have ha : c s a := by
        by_contra hc
        refine hbad s a h0 hc ?_
        exact h [] (List.nil_prefix)
      exact guarded_cons.mpr ⟨ha, ih (hstep s a h0 ha) h⟩
  · intro hg
    exact (always_of_guarded h0 hstep hg).mono hgood

/-- If every guarded step keeps an invariant and uses up some of a measure, a guarded run is no longer than the measure
    at its start. -/
theorem length_le_of_guarded (inv : S → Prop) {c : S → A → Prop} {work : S → Nat} (h0 : inv s)
    (hstep : ∀ s a, inv s → c s a → inv (step s a) ∧ work (step s a) < work s) (hg : Guarded step s as c) :
    as.length + work (as.foldl step s) ≤ work s ∧ inv (as.foldl step s) := by
  induction as generalizing s with
  | nil => exact ⟨by simp, h0⟩
  | cons a as ih =>
    obtain ⟨ha, hg⟩ := guarded_cons.mp hg
    obtain ⟨hinv, hless⟩ := hstep s a h0 ha
    obtain ⟨hle, hinv⟩ := ih hinv hg
    refine ⟨?_, hinv⟩
    rw [List.length_cons, List.foldl_cons]
    omega

/-! ### Outputs -/

section Outputs

variable {T O : Type}

/-- The answers of a machine to the actions `as` from `s`. -/
def outputs (step : S → A → S × O) (s : S) : List A → List O
  | [] => []
  | a :: as => (step s a).2 :: outputs step (step s a).1 as

/-- Machines whose related states answer alike and stay related have the same answers. -/
theorem outputs_eq_of_sim {step : S → A → S × O} {step' : T → A → T × O} {R : S → T → Prop} {t : T}
    (hsim : ∀ s t a, R s t → (step s a).2 = (step' t a).2 ∧ R (step s a).1 (step' t a).1) (h0 : R s t) :
    outputs step s as = outputs step' t as := by
  induction as generalizing s t with
  | nil => rfl
  | cons a as ih =>
    obtain ⟨hout, hrel⟩ := hsim s t a h0
    rw [outputs, outputs, hout, ih hrel]

end Outputs

end Run
