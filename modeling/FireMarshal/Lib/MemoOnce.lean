import FireMarshal.Lib.Memo

/-! Memoised initialisation in which no object is entered while it waits for the object above it.

`Enters` lists the calls that a call makes. A call is quiet if its object cannot be reached from the object above
it over objects that are not done; if all calls of a run are quiet, every object is combined once, with the
resolved object above it. -/

namespace Memo

variable {ρ α ε : Type} {M : System ρ α ε} {s₀ : St ρ α}

/-! ### Resolved values -/

/-- The value of an object once everything above it is combined into it. -/
inductive Resolved (M : System ρ α ε) (s₀ : St ρ α) : ρ → α → Prop where
  | done {r : ρ} (hr : s₀.done r = true) : Resolved M s₀ r (s₀.val r)
  | alone {r : ρ} (hr : s₀.done r = false) (hup : M.up r = none) : Resolved M s₀ r (M.alone (s₀.val r))
  | combined {r b : ρ} {v w : α} (hr : s₀.done r = false) (hup : M.up r = some b) (hb : Resolved M s₀ b w)
      (hv : M.combine (s₀.val r) w = .ok v) : Resolved M s₀ r v

theorem Resolved.unique {r : ρ} {v w : α} (hv : Resolved M s₀ r v) (hw : Resolved M s₀ r w) : v = w := by
  induction hv generalizing w with
  | done hr =>
    cases hw with
    | done => rfl
    | alone hr' | combined hr' => rw [hr] at hr'; cases hr'
  | alone hr hup =>
    cases hw with
    | done hr' => rw [hr] at hr'; cases hr'
    | alone => rfl
    | combined _ hup' => rw [hup] at hup'; cases hup'
  | combined hr hup _ hv ih =>
    cases hw with
    | done hr' => rw [hr] at hr'; cases hr'
    | alone _ hup' => rw [hup] at hup'; cases hup'
    | combined _ hup' hb' hv' =>
      rw [hup] at hup'
      cases hup'
      rw [ih hb', hv'] at hv
      cases hv
      rfl

/-! ### Calls -/

/-- `r` cannot be reached from the object above it over objects that are not done. -/
def Quiet (M : System ρ α ε) (s : St ρ α) (r : ρ) : Prop :=
  ∀ b, M.up r = some b → ¬ Relation.ReflTransGen (M.White s) b r

variable [DecidableEq ρ]

/-- The call on `r` in the state `s` makes the call on `r'` in the state `s'`, or is this call. -/
inductive Enters (M : System ρ α ε) : Nat → ρ → St ρ α → ρ → St ρ α → Prop where
  | here {n : Nat} {r : ρ} {s : St ρ α} : Enters M (n + 1) r s r s
  | up {n : Nat} {r b r' : ρ} {s s' : St ρ α} (hr : s.done r = false) (hup : M.up r = some b)
      (hb : s.done b = false) (h : Enters M n b s r' s') : Enters M (n + 1) r s r' s'
  | down {n : Nat} {r j r' : ρ} {s u v s' : St ρ α} {pre post : List ρ} (hr : s.done r = false)
      (hprep : Prepared M n r s u) (hj : M.down r = pre ++ j :: post) (hpre : M.initAll n pre (u.mark r) = .ok v)
      (h : Enters M n j v r' s') : Enters M (n + 1) r s r' s'

def EntersAll (M : System ρ α ε) (n : Nat) (rs : List ρ) (s : St ρ α) (r' : ρ) (s' : St ρ α) : Prop :=
  ∃ pre r post v, rs = pre ++ r :: post ∧ M.initAll n pre s = .ok v ∧ Enters M n r v r' s'

variable {s t : St ρ α}

theorem EntersAll.head {n : Nat} {r r' : ρ} {rs : List ρ} {s' : St ρ α} (h : Enters M n r s r' s') :
    EntersAll M n (r :: rs) s r' s' := ⟨[], r, rs, s, rfl, rfl, h⟩

theorem initAll_cons {n : Nat} {r : ρ} {rs : List ρ} {u : St ρ α} (hu : M.init n r s = .ok u) :
    M.initAll n (r :: rs) s = M.initAll n rs u := by
  rw [System.initAll, List.foldlM_cons, hu]
  rfl

theorem EntersAll.tail {n : Nat} {r r' : ρ} {rs : List ρ} {u s' : St ρ α} (hu : M.init n r s = .ok u)
    (h : EntersAll M n rs u r' s') : EntersAll M n (r :: rs) s r' s' := by
  obtain ⟨pre, q, post, v, rfl, hpre, hq⟩ := h
  exact ⟨r :: pre, q, post, v, rfl, (initAll_cons hu).trans hpre, hq⟩

theorem Quiet.not_done {m : Nat} {r b : ρ} (hq : Quiet M s r) (hrd : s.done r = false) (hup : M.up r = some b)
    (hrun : M.init m b s = .ok t) : t.done r = false := by
  rw [← Bool.not_eq_true]
  intro hd
  obtain ⟨q, hq', -, hp⟩ := (init_effect hrun).1.reach r hrd hd
  obtain rfl := List.mem_singleton.mp hq'
  exact hq _ hup hp

/-! ### The invariant -/

/-- Objects that are done have their resolved value, others their first value; each call of `combine` was on a
    resolved object above, and there was one for each object that became done below another. -/
structure Inv (M : System ρ α ε) (s₀ s : St ρ α) : Prop where
  done : ∀ x, s.done x = true → Resolved M s₀ x (s.val x)
  raw : ∀ x, s.done x = false → s₀.done x = false ∧ s.val x = s₀.val x
  calls : ∀ c ∈ s.calls, M.up c.child = some c.parent ∧ Resolved M s₀ c.parent c.value ∧ c.ready = true
  once : ∀ x, s.calls.countP (·.child = x) =
    if s.done x = true ∧ s₀.done x = false ∧ M.up x ≠ none then 1 else 0

theorem inv_start (h : s₀.calls = []) : Inv M s₀ s₀ := by
  refine ⟨fun x hx => .done hx, fun x hx => ⟨hx, rfl⟩, fun c hc => ?_, fun x => ?_⟩
  · rw [h] at hc
    cases hc
  · rw [h, if_neg]
    · rfl
    · rintro ⟨hx, hx', -⟩
      rw [hx] at hx'
      cases hx'

theorem done_mark (s : St ρ α) (r x : ρ) : (s.mark r).done x = true ↔ x = r ∨ s.done x = true := by
  simp only [St.mark, Function.update_apply]
  by_cases hx : x = r <;> simp [hx]

theorem Inv.alone {r : ρ} (h : Inv M s₀ s) (hr : s.done r = false) (hup : M.up r = none) :
    Inv M s₀ ((s.set r (M.alone (s.val r))).mark r) := by
  obtain ⟨hr₀, hval⟩ := h.raw r hr
  refine ⟨fun x hx => ?_, fun x hx => ?_, h.calls, fun x => ?_⟩
  · by_cases hxr : x = r
    · subst hxr
      simp only [St.mark, St.set, Function.update_self, hval]
      exact .alone hr₀ hup
    · simp only [St.mark, St.set, Function.update_of_ne hxr] at hx ⊢
      exact h.done x hx
  · have hxr : x ≠ r := by
      rintro rfl
      simp [St.mark] at hx
    simp only [St.mark, St.set, Function.update_of_ne hxr] at hx ⊢
    exact h.raw x hx
  · by_cases hxr : x = r
    · subst hxr
      rw [if_neg (fun hc => hc.2.2 hup)]
      exact (h.once x).trans (if_neg fun hc => hc.2.2 hup)
    · simp only [St.mark, St.set, Function.update_of_ne hxr]
      exact h.once x

theorem Inv.combined {r b : ρ} {v : α} (h : Inv M s₀ s) (hr : s.done r = false) (hup : M.up r = some b)
    (hb : s.done b = true) (hv : M.combine (s.val r) (s.val b) = .ok v) :
    Inv M s₀ ((s.call r b v).mark r) := by
  obtain ⟨hr₀, hval⟩ := h.raw r hr
  refine ⟨fun x hx => ?_, fun x hx => ?_, fun c hc => ?_, fun x => ?_⟩
  · by_cases hxr : x = r
    · subst hxr
      simp only [St.mark, St.call, St.set, Function.update_self]
      exact .combined hr₀ hup (h.done b hb) (hval ▸ hv)
    · simp only [St.mark, St.call, St.set, Function.update_of_ne hxr] at hx ⊢
      exact h.done x hx
  · have hxr : x ≠ r := by
      rintro rfl
      simp [St.mark] at hx
    simp only [St.mark, St.call, St.set, Function.update_of_ne hxr] at hx ⊢
    exact h.raw x hx
  · rcases List.mem_append.mp hc with hc | hc
    · exact h.calls c hc
    · obtain rfl := List.mem_singleton.mp hc
      exact ⟨hup, h.done b hb, hb⟩
  · have hcount := h.once x
    simp only [St.mark, St.call, St.set, List.countP_append, hcount]
    by_cases hxr : x = r
    · subst hxr
      simp [hr, hr₀, hup]
    · simp [Function.update_of_ne hxr, Ne.symm hxr]

theorem Inv.initAll_of {m : Nat} {rs : List ρ}
    (hinit : ∀ {r s t}, Inv M s₀ s → (∀ r' s', Enters M m r s r' s' → Quiet M s' r') → M.init m r s = .ok t →
      Inv M s₀ t)
    (h : Inv M s₀ s) (hq : ∀ r' s', EntersAll M m rs s r' s' → Quiet M s' r') (hrun : M.initAll m rs s = .ok t) :
    Inv M s₀ t := by
  induction rs generalizing s with
  | nil =>
    cases hrun
    exact h
  | cons r rs ih =>
    obtain ⟨u, hu, hrest⟩ := Except.foldlM_cons_ok hrun
    exact ih (hinit h (fun r' s' he => hq r' s' (.head he)) hu) (fun r' s' he => hq r' s' (.tail hu he)) hrest

theorem Inv.init {n : Nat} {r : ρ} (h : Inv M s₀ s) (hq : ∀ r' s', Enters M n r s r' s' → Quiet M s' r')
    (hrun : M.init n r s = .ok t) : Inv M s₀ t := by
  induction n generalizing r s t with
  | zero => cases hrun
  | succ m ih =>
    obtain ⟨m', hm, hcase⟩ := init_eq_ok hrun
    cases hm
    rcases hcase with ⟨-, rfl⟩ | ⟨hrd, u, hprep, hdown⟩
    · exact h
    have hu : Inv M s₀ (u.mark r) := by
      rcases hprep with ⟨hup, rfl⟩ | ⟨b, u', hup, hb, hfin⟩
      · exact h.alone hrd hup
      obtain ⟨v, hv, rfl⟩ := finish_eq_ok hfin
      rcases hb with ⟨hbd, rfl⟩ | ⟨hbd, hrec⟩
      · exact h.combined hrd hup hbd hv
      · have hrd' := (hq r s .here).not_done hrd hup hrec
        exact (ih h (fun r' s' he => hq r' s' (.up hrd hup hbd he)) hrec).combined hrd' hup (init_effect hrec).2 hv
    refine hu.initAll_of ih (fun r' s' he => ?_) hdown
    obtain ⟨pre, j, post, v, hj, hpre, he⟩ := he
    exact hq r' s' (.down hrd hprep hj hpre he)

theorem Inv.initAll {n : Nat} {rs : List ρ} (h : Inv M s₀ s)
    (hq : ∀ r' s', EntersAll M n rs s r' s' → Quiet M s' r') (hrun : M.initAll n rs s = .ok t) : Inv M s₀ t :=
  h.initAll_of Inv.init hq hrun

end Memo
