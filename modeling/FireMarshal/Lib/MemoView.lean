import FireMarshal.Lib.Memo

/-! Views of the values in a memoised initialisation.

A view of an object is determined by the objects above it, if combining an object twice with the one above it shows
the same as combining it once. It is then the same after every run, even if objects are entered while they wait. -/

namespace Memo

variable {ρ α β ε : Type} {M : System ρ α ε} {s₀ : St ρ α} {π : α → β} {f : β → β → β}

/-- What is seen of an object once everything above it is combined into it. -/
inductive View (M : System ρ α ε) (s₀ : St ρ α) (π : α → β) (f : β → β → β) : ρ → β → Prop where
  | alone {r : ρ} (hup : M.up r = none) : View M s₀ π f r (π (s₀.val r))
  | combined {r b : ρ} {y : β} (hup : M.up r = some b) (hb : View M s₀ π f b y) : View M s₀ π f r (f (π (s₀.val r)) y)

theorem View.unique {r : ρ} {x y : β} (hx : View M s₀ π f r x) (hy : View M s₀ π f r y) : x = y := by
  induction hx generalizing y with
  | alone hup =>
    cases hy with
    | alone => rfl
    | combined hup' => rw [hup] at hup'; cases hup'
  | combined hup hb ih =>
    cases hy with
    | alone hup' => rw [hup] at hup'; cases hup'
    | combined hup' hb' =>
      obtain rfl := Option.some.inj (hup.symm.trans hup')
      rw [ih hb']

theorem View.of_up {r b : ρ} {x y : β} (hup : M.up r = some b) (hx : View M s₀ π f r x) (hy : View M s₀ π f b y) :
    x = f (π (s₀.val r)) y := hx.unique (.combined hup hy)

theorem View.of_alone {r : ρ} {x : β} (hup : M.up r = none) (hx : View M s₀ π f r x) : x = π (s₀.val r) :=
  hx.unique (.alone hup)

variable [DecidableEq ρ] {n : Nat} {rs : List ρ} {t : St ρ α}

/-- After a run, objects that are done show their view, and each value has what combining gives it. -/
theorem view_of_run {E : ρ → α → Prop} (hidem : ∀ x y, f (f x y) y = f x y)
    (halone : ∀ r v, M.up r = none → E r v → E r (M.alone v) ∧ π (M.alone v) = π v)
    (hcombine : ∀ r b v w v', M.up r = some b → E r v → View M s₀ π f b (π w) → M.combine v w = .ok v' →
      E r v' ∧ π v' = f (π v) (π w))
    (hdone : ∀ r, s₀.done r = true → M.up r = none) (hstart : ∀ r, E r (s₀.val r)) (hrun : M.initAll n rs s₀ = .ok t) :
    Holds E (fun r v => View M s₀ π f r (π v)) t := by
  suffices h : Holds (fun r v => E r v ∧ (π v = π (s₀.val r) ∨ View M s₀ π f r (π v)))
      (fun r v => View M s₀ π f r (π v)) t from fun x => ⟨(h x).1.1, (h x).2⟩
  refine Holds.initAll (fun r v hup hv => ?_) (fun r b v w v' hup hv _ hw hok => ?_) (fun x => ?_) hrun
  · obtain ⟨hE, heq⟩ := halone r v hup hv.1
    have hview : View M s₀ π f r (π (M.alone v)) := by
      rw [heq]
      rcases hv.2 with hv | hv
      · exact hv ▸ .alone hup
      · exact hv
    exact ⟨⟨hE, .inr hview⟩, hview⟩
  · obtain ⟨hE, heq⟩ := hcombine r b v w v' hup hv.1 hw hok
    have hview : View M s₀ π f r (π v') := by
      rcases hv.2 with hv | hv
      · rw [heq, hv]
        exact .combined hup hw
      · rw [heq, hv.of_up hup hw, hidem]
        exact .combined hup hw
    exact ⟨⟨hE, .inr hview⟩, hview⟩
  · exact ⟨⟨hstart x, .inl rfl⟩, fun hx => .alone (hdone x hx)⟩

end Memo
