import Mathlib.Tactic.Common

/-! Computations that may fail: what is known of the parts of one that succeeds. -/

namespace Except

variable {ε α β σ : Type}

theorem bind_eq_ok {x : Except ε α} {f : α → Except ε β} {b : β} :
    (x >>= f) = .ok b ↔ ∃ a, x = .ok a ∧ f a = .ok b := by
  cases x with
  | error e => exact ⟨nofun, fun ⟨_, h, _⟩ => nomatch h⟩
  | ok a => exact ⟨fun h => ⟨a, rfl, h⟩, fun ⟨_, h, h'⟩ => by cases h; exact h'⟩

theorem bind_ok {x : Except ε α} {f : α → Except ε β} {b : β} (h : (x >>= f) = .ok b) :
    ∃ a, x = .ok a ∧ f a = .ok b := bind_eq_ok.mp h

theorem ok_bind (a : α) (f : α → Except ε β) : ((.ok a : Except ε α) >>= f) = f a := rfl

theorem bind_congr_ok {x : Except ε α} {f g : α → Except ε β} (h : ∀ a, x = .ok a → f a = g a) :
    (x >>= f) = (x >>= g) := by
  cases x with
  | error e => rfl
  | ok a => exact h a rfl

theorem toOption_eq_some {x : Except ε α} {a : α} : x.toOption = some a ↔ x = .ok a := by
  cases x with
  | error e => simp [Except.toOption]
  | ok b => simp [Except.toOption]

theorem exists_ok {x : Except ε α} {P : α → Prop} [DecidablePred P]
    (h : x.toOption.any (fun a => decide (P a)) = true) : ∃ a, x = .ok a ∧ P a := by
  cases x with
  | error e => cases h
  | ok a => exact ⟨a, rfl, of_decide_eq_true h⟩

theorem foldlM_cons_ok {f : σ → α → Except ε σ} {x : α} {xs : List α} {s t : σ}
    (h : (x :: xs).foldlM f s = .ok t) : ∃ u, f s x = .ok u ∧ xs.foldlM f u = .ok t := by
  rw [List.foldlM_cons] at h
  exact bind_ok h

theorem foldlM_mem_ok {f : σ → α → Except ε σ} {x : α} {xs : List α} {s t : σ} (h : xs.foldlM f s = .ok t)
    (hx : x ∈ xs) : ∃ s u, f s x = .ok u := by
  induction xs generalizing s with
  | nil => cases hx
  | cons y xs ih =>
    obtain ⟨u, hu, h⟩ := foldlM_cons_ok h
    rcases List.mem_cons.mp hx with rfl | hx
    · exact ⟨s, u, hu⟩
    · exact ih h hx

theorem foldlM_inv {f : σ → α → Except ε σ} {P : σ → Prop} {xs : List α} {s t : σ} (hs : P s)
    (hstep : ∀ s, ∀ x ∈ xs, ∀ u, P s → f s x = .ok u → P u) (h : xs.foldlM f s = .ok t) : P t := by
  induction xs generalizing s with
  | nil =>
    cases h
    exact hs
  | cons x xs ih =>
    obtain ⟨u, hu, h⟩ := foldlM_cons_ok h
    exact ih (hstep s x List.mem_cons_self u hs hu) (fun s y hy => hstep s y (List.mem_cons_of_mem x hy)) h

theorem foldlM_ok_of_step {f g : σ → α → Except ε σ} (hstep : ∀ s x u, f s x = .ok u → g s x = .ok u) {xs : List α}
    {s t : σ} (h : xs.foldlM f s = .ok t) : xs.foldlM g s = .ok t := by
  induction xs generalizing s with
  | nil => exact h
  | cons x xs ih =>
    obtain ⟨u, hu, h⟩ := foldlM_cons_ok h
    rw [List.foldlM_cons, hstep s x u hu]
    exact ih h

end Except
