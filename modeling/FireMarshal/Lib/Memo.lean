import FireMarshal.Lib.Except
import Mathlib.Data.List.Basic
import Mathlib.Logic.Function.Basic
import Mathlib.Logic.Relation
import Mathlib.Tactic.Common

/-! Memoised initialisation of objects that refer to each other.

An object needs the object `up` of it first, is combined with it, is marked as done, and then has the objects
`down` of it initialised. The mark stands only after the combination: while an object waits for the one above
it, it can be entered again. `Effect` says what a call does in any case, `Inv` what it does when no object is
entered while it waits. -/

namespace Memo

structure System (ρ α ε : Type) where
  up : ρ → Option ρ
  down : ρ → List ρ
  /-- Combine the value of an object with that of the object above it. -/
  combine : α → α → Except ε α
  alone : α → α

inductive Failure (ε : Type) where
  | outOfFuel
  | raised (e : ε)
deriving DecidableEq, Repr

/-- A call of `combine`: the object, the one above it with its value, and whether that one was done. -/
structure Call (ρ α : Type) where
  child : ρ
  parent : ρ
  value : α
  ready : Bool
deriving DecidableEq, Repr

structure St (ρ α : Type) where
  val : ρ → α
  done : ρ → Bool
  calls : List (Call ρ α)

variable {ρ α ε : Type} {M : System ρ α ε}

/-! ### Effects -/

def System.Edge (M : System ρ α ε) (x y : ρ) : Prop := M.up x = some y ∨ y ∈ M.down x

def System.White (M : System ρ α ε) (s : St ρ α) (x y : ρ) : Prop :=
  M.Edge x y ∧ s.done x = false ∧ s.done y = false

/-- From `s` to `t`, objects that are reached from `starts` over objects that were not done became done, with all
    that they refer to, and those with an object above them were combined with it. -/
structure Effect (M : System ρ α ε) (s t : St ρ α) (starts : List ρ) : Prop where
  grows : ∀ x, s.done x = true → t.done x = true
  reach : ∀ x, s.done x = false → t.done x = true →
    ∃ r ∈ starts, s.done r = false ∧ Relation.ReflTransGen (M.White s) r x
  closed : ∀ x, s.done x = false → t.done x = true → ∀ y, M.Edge x y → t.done y = true
  calls : ∃ new, t.calls = s.calls ++ new ∧
    ∀ x, s.done x = false → t.done x = true → M.up x ≠ none → ∃ c ∈ new, c.child = x

namespace Effect

variable {s t u : St ρ α} {rs qs : List ρ}

theorem refl (s : St ρ α) (rs : List ρ) : Effect M s s rs := by
  have hno : ∀ {x}, s.done x = false → s.done x = true → False := fun h h' => by
    rw [h] at h'
    cases h'
  exact ⟨fun _ h => h, fun x h h' => (hno h h').elim, fun x h h' => (hno h h').elim,
    [], by simp, fun x h h' => (hno h h').elim⟩

theorem refl_of_eq (hdone : t.done = s.done) (hcalls : t.calls = s.calls) : Effect M s t rs := by
  have h := refl (M := M) s rs
  exact ⟨by rw [hdone]; exact h.grows, by rw [hdone]; exact h.reach, by rw [hdone]; exact h.closed,
    by rw [hdone, hcalls]; exact h.calls⟩

theorem not_done (h : Effect M s t rs) {x : ρ} (hx : t.done x = false) : s.done x = false := by
  cases hs : s.done x with
  | false => rfl
  | true => rw [h.grows x hs] at hx; cases hx

theorem white (h : Effect M s t rs) {x y : ρ} (hp : Relation.ReflTransGen (M.White t) x y) :
    Relation.ReflTransGen (M.White s) x y :=
  Relation.ReflTransGen.mono (fun _ _ hw => ⟨hw.1, h.not_done hw.2.1, h.not_done hw.2.2⟩) _ _ hp

theorem trans (h₁ : Effect M s t rs) (h₂ : Effect M t u qs) : Effect M s u (rs ++ qs) := by
  obtain ⟨new₁, hcalls₁, hcalled₁⟩ := h₁.calls
  obtain ⟨new₂, hcalls₂, hcalled₂⟩ := h₂.calls
  refine ⟨fun x hx => h₂.grows x (h₁.grows x hx), fun x hx hu => ?_, fun x hx hu y hy => ?_, new₁ ++ new₂, ?_,
    fun x hx hu hup => ?_⟩
  · cases ht : t.done x with
    | true =>
      obtain ⟨r, hr, hrd, hp⟩ := h₁.reach x hx ht
      exact ⟨r, List.mem_append_left _ hr, hrd, hp⟩
    | false =>
      obtain ⟨r, hr, hrd, hp⟩ := h₂.reach x ht hu
      exact ⟨r, List.mem_append_right _ hr, h₁.not_done hrd, h₁.white hp⟩
  · cases ht : t.done x with
    | true => exact h₂.grows y (h₁.closed x hx ht y hy)
    | false => exact h₂.closed x ht hu y hy
  · rw [hcalls₂, hcalls₁, List.append_assoc]
  · cases ht : t.done x with
    | true =>
      obtain ⟨c, hc, hcx⟩ := hcalled₁ x hx ht hup
      exact ⟨c, List.mem_append_left _ hc, hcx⟩
    | false =>
      obtain ⟨c, hc, hcx⟩ := hcalled₂ x ht hu hup
      exact ⟨c, List.mem_append_right _ hc, hcx⟩

theorem calls_le (h : Effect M s t rs) : s.calls <+: t.calls := by
  obtain ⟨new, hnew, -⟩ := h.calls
  exact ⟨new, hnew.symm⟩

end Effect

/-! ### Initialisation -/

variable [DecidableEq ρ]

namespace St

def set (s : St ρ α) (r : ρ) (v : α) : St ρ α := { s with val := Function.update s.val r v }

def mark (s : St ρ α) (r : ρ) : St ρ α := { s with done := Function.update s.done r true }

/-- `r` gets the value `v` from the object `b` above it. -/
def call (s : St ρ α) (r b : ρ) (v : α) : St ρ α :=
  { s.set r v with calls := s.calls ++ [⟨r, b, s.val b, s.done b⟩] }

end St

/-- Bring the object above into the value of `r`, once that object is done. -/
def System.finish (M : System ρ α ε) (r : ρ) (b : ρ) (s : St ρ α) : Except (Failure ε) (St ρ α) :=
  match M.combine (s.val r) (s.val b) with
  | .error e => .error (.raised e)
  | .ok v => .ok (s.call r b v)

def System.init (M : System ρ α ε) : Nat → ρ → St ρ α → Except (Failure ε) (St ρ α)
  | 0, _, _ => .error .outOfFuel
  | n + 1, r, s =>
    if s.done r then .ok s
    else
      (match M.up r with
        | none => .ok (s.set r (M.alone (s.val r)))
        | some b => (if s.done b then .ok s else M.init n b s) >>= M.finish r b) >>= fun s =>
      (M.down r).foldlM (fun s j => M.init n j s) (s.mark r)

def System.initAll (M : System ρ α ε) (n : Nat) (rs : List ρ) (s : St ρ α) : Except (Failure ε) (St ρ α) :=
  rs.foldlM (fun s r => M.init n r s) s

/-! ### Results of a call -/

theorem finish_eq_ok {r b : ρ} {s t : St ρ α} (h : M.finish r b s = .ok t) :
    ∃ v, M.combine (s.val r) (s.val b) = .ok v ∧ t = s.call r b v := by
  unfold System.finish at h
  split at h
  · cases h
  · next v hv =>
    cases h
    exact ⟨v, hv, rfl⟩

def Prepared (M : System ρ α ε) (m : Nat) (r : ρ) (s u : St ρ α) : Prop :=
  M.up r = none ∧ u = s.set r (M.alone (s.val r)) ∨
    ∃ b u', M.up r = some b ∧ (s.done b = true ∧ u' = s ∨ s.done b = false ∧ M.init m b s = .ok u') ∧
      M.finish r b u' = .ok u

/-- What a call that returns did: nothing, or it brought `r` to a state `u` with its value, marked it and
    initialised the objects below. -/
theorem init_eq_ok {n : Nat} {r : ρ} {s t : St ρ α} (h : M.init n r s = .ok t) :
    ∃ m, n = m + 1 ∧ (s.done r = true ∧ t = s ∨ s.done r = false ∧
      ∃ u, Prepared M m r s u ∧ M.initAll m (M.down r) (u.mark r) = .ok t) := by
  cases n with
  | zero => cases h
  | succ m =>
    refine ⟨m, rfl, ?_⟩
    rw [System.init] at h
    cases hr : s.done r with
    | true =>
      rw [if_pos hr] at h
      cases h
      exact .inl ⟨rfl, rfl⟩
    | false =>
      rw [if_neg (by simp [hr])] at h
      obtain ⟨u, hu, hdown⟩ := Except.bind_ok h
      refine .inr ⟨rfl, u, ?_, hdown⟩
      cases hup : M.up r with
      | none =>
        rw [hup] at hu
        cases hu
        exact .inl ⟨hup, rfl⟩
      | some b =>
        rw [hup] at hu
        obtain ⟨u', hu', hfin⟩ := Except.bind_ok hu
        refine .inr ⟨b, u', hup, ?_, hfin⟩
        cases hb : s.done b with
        | true =>
          rw [if_pos hb] at hu'
          cases hu'
          exact .inl ⟨rfl, rfl⟩
        | false =>
          rw [if_neg (by simp [hb])] at hu'
          exact .inr ⟨rfl, hu'⟩

theorem Prepared.init {m : Nat} {r : ρ} {s u : St ρ α} (h : Prepared M m r s u) (hr : s.done r = false) :
    M.init (m + 1) r s = M.initAll m (M.down r) (u.mark r) := by
  rw [System.init, if_neg (by simp [hr])]
  rcases h with ⟨hup, rfl⟩ | ⟨b, u', hup, hb, hfin⟩
  · rw [hup]
    rfl
  · have hu' : (if s.done b then .ok s else M.init m b s) = .ok u' := by
      rcases hb with ⟨hb, rfl⟩ | ⟨hb, hrec⟩
      · exact if_pos hb
      · rw [if_neg (by simp [hb]), hrec]
    simp only [hup, hu', Except.ok_bind, hfin]
    rfl

/-! ### Fuel -/

theorem initAll_mono_of {n m : Nat} (hinit : ∀ {r s t}, M.init n r s = .ok t → M.init m r s = .ok t)
    {rs : List ρ} {s t : St ρ α} (h : M.initAll n rs s = .ok t) : M.initAll m rs s = .ok t :=
  Except.foldlM_ok_of_step (fun _ _ _ hu => hinit hu) h

theorem Prepared.mono_of {n m : Nat} (hinit : ∀ {r s t}, M.init n r s = .ok t → M.init m r s = .ok t)
    {r : ρ} {s u : St ρ α} (h : Prepared M n r s u) : Prepared M m r s u := by
  rcases h with hnone | ⟨b, u', hup, hb, hfin⟩
  · exact .inl hnone
  · exact .inr ⟨b, u', hup, hb.imp_right fun hrec => ⟨hrec.1, hinit hrec.2⟩, hfin⟩

theorem init_mono {n m : Nat} (hle : n ≤ m) {r : ρ} {s t : St ρ α} (h : M.init n r s = .ok t) :
    M.init m r s = .ok t := by
  induction n generalizing m r s t with
  | zero => cases h
  | succ n ih =>
    cases m with
    | zero => cases hle
    | succ m =>
      have hstep : ∀ {r s t}, M.init n r s = .ok t → M.init m r s = .ok t := ih (Nat.le_of_succ_le_succ hle)
      obtain ⟨n', hn, hcase⟩ := init_eq_ok h
      cases hn
      rcases hcase with ⟨hr, rfl⟩ | ⟨hr, u, hprep, hdown⟩
      · rw [System.init, if_pos hr]
      · rw [(hprep.mono_of hstep).init hr]
        exact initAll_mono_of hstep hdown

theorem initAll_mono {n m : Nat} (hle : n ≤ m) {rs : List ρ} {s t : St ρ α} (h : M.initAll n rs s = .ok t) :
    M.initAll m rs s = .ok t := initAll_mono_of (init_mono hle) h

/-! ### What a call does in any case -/

theorem initAll_effect_of {m : Nat} {rs : List ρ} {s t : St ρ α}
    (hinit : ∀ {r s t}, M.init m r s = .ok t → Effect M s t [r] ∧ t.done r = true)
    (h : M.initAll m rs s = .ok t) : Effect M s t rs ∧ ∀ r ∈ rs, t.done r = true := by
  induction rs generalizing s with
  | nil =>
    cases h
    exact ⟨.refl _ [], fun r hr => by cases hr⟩
  | cons r rs ih =>
    obtain ⟨u, hu, hrest⟩ := Except.foldlM_cons_ok h
    obtain ⟨heff, hdone⟩ := hinit hu
    obtain ⟨heff', hall⟩ := ih hrest
    refine ⟨heff.trans heff', fun q hq => ?_⟩
    rcases List.mem_cons.mp hq with rfl | hq
    · exact heff'.grows q hdone
    · exact hall q hq

theorem prepared_effect {m : Nat} {r : ρ} {s u : St ρ α}
    (hinit : ∀ {r s t}, M.init m r s = .ok t → Effect M s t [r] ∧ t.done r = true) (h : Prepared M m r s u) :
    Effect M s u (M.up r).toList ∧ (∀ b, M.up r = some b → u.done b = true) ∧
      (M.up r ≠ none → ∃ c new, u.calls = s.calls ++ new ++ [c] ∧ c.child = r) := by
  rcases h with ⟨hup, rfl⟩ | ⟨b, u', hup, hb, hfin⟩
  · rw [hup]
    exact ⟨.refl_of_eq rfl rfl, fun b hb => (by cases hb), fun hno => absurd rfl hno⟩
  · obtain ⟨v, -, rfl⟩ := finish_eq_ok hfin
    have heff : Effect M s u' [b] ∧ u'.done b = true := by
      rcases hb with ⟨hdone, rfl⟩ | ⟨-, hrec⟩
      · exact ⟨.refl _ _, hdone⟩
      · exact hinit hrec
    obtain ⟨new, hcalls, hcalled⟩ := heff.1.calls
    rw [hup]
    refine ⟨⟨heff.1.grows, heff.1.reach, heff.1.closed, new ++ [⟨r, b, u'.val b, u'.done b⟩], ?_, ?_⟩,
      fun b' hb' => (by cases hb'; exact heff.2), fun _ => ⟨⟨r, b, u'.val b, u'.done b⟩, new, ?_, rfl⟩⟩
    · simp only [St.call, hcalls, List.append_assoc]
    · intro x hx hd hupx
      obtain ⟨c, hc, hcx⟩ := hcalled x hx hd hupx
      exact ⟨c, List.mem_append_left _ hc, hcx⟩
    · simp only [St.call, hcalls]

theorem init_effect {n : Nat} {r : ρ} {s t : St ρ α} (h : M.init n r s = .ok t) :
    Effect M s t [r] ∧ t.done r = true := by
  induction n generalizing r s t with
  | zero => cases h
  | succ m ih =>
    obtain ⟨m', hm, hcase⟩ := init_eq_ok h
    cases hm
    rcases hcase with ⟨hr, rfl⟩ | ⟨hr, u, hprep, hdown⟩
    · exact ⟨.refl _ _, hr⟩
    obtain ⟨hup, hupdone, hcall⟩ := prepared_effect ih hprep
    obtain ⟨hjobs, hjobsdone⟩ := initAll_effect_of ih hdown
    have hmark : ∀ x, (u.mark r).done x = true ↔ x = r ∨ u.done x = true := by
      intro x
      simp only [St.mark, Function.update_apply]
      by_cases hx : x = r <;> simp [hx]
    have hrt : t.done r = true := hjobs.grows r ((hmark r).mpr (.inl rfl))
    have hgrow : ∀ x, u.done x = true → t.done x = true := fun x hx => hjobs.grows x ((hmark x).mpr (.inr hx))
    have hwhite : ∀ x, (u.mark r).done x = false → s.done x = false := by
      intro x hx
      cases hs : s.done x with
      | false => rfl
      | true =>
        rw [(hmark x).mpr (.inr (hup.grows x hs))] at hx
        cases hx
    have hcases : ∀ x, u.done x = true ∨ x = r ∨ (u.mark r).done x = false := by
      intro x
      cases hx : (u.mark r).done x with
      | false => exact .inr (.inr rfl)
      | true => exact ((hmark x).mp hx).elim (fun h => .inr (.inl h)) .inl
    refine ⟨⟨fun x hx => hgrow x (hup.grows x hx), fun x hx ht => ?_, fun x hx ht y hy => ?_, ?_⟩, hrt⟩
    · -- `x` became done on the way up, or is `r`, or became done on the way down.
      rcases hcases x with hu | rfl | hm
      · obtain ⟨b, hb, hbd, hp⟩ := hup.reach x hx hu
        have hb' : M.up r = some b := by simpa using hb
        exact ⟨r, List.mem_singleton_self r, hr, .head ⟨.inl hb', hr, hbd⟩ hp⟩
      · exact ⟨x, List.mem_singleton_self x, hx, .refl⟩
      · obtain ⟨j, hj, hjd, hp⟩ := hjobs.reach x hm ht
        have hp' : Relation.ReflTransGen (M.White s) j x :=
          Relation.ReflTransGen.mono (fun _ _ hw => ⟨hw.1, hwhite _ hw.2.1, hwhite _ hw.2.2⟩) _ _ hp
        exact ⟨r, List.mem_singleton_self r, hr, .head ⟨.inr hj, hr, hwhite j hjd⟩ hp'⟩
    · rcases hcases x with hu | rfl | hm
      · exact hgrow y (hup.closed x hx hu y hy)
      · exact hy.elim (fun h => hgrow y (hupdone y h)) (hjobsdone y)
      · exact hjobs.closed x hm ht y hy
    · obtain ⟨new₁, hnew₁, hcalled₁⟩ := hup.calls
      obtain ⟨new₂, hnew₂, hcalled₂⟩ := hjobs.calls
      refine ⟨new₁ ++ new₂, by rw [hnew₂, St.mark, hnew₁, List.append_assoc], fun x hx ht hupx => ?_⟩
      rcases hcases x with hu | rfl | hm
      · obtain ⟨c, hc, hcx⟩ := hcalled₁ x hx hu hupx
        exact ⟨c, List.mem_append_left _ hc, hcx⟩
      · obtain ⟨c, new, hnew, hcx⟩ := hcall hupx
        have heq : new₁ = new ++ [c] := List.append_cancel_left (hnew₁.symm.trans (hnew.trans (List.append_assoc ..)))
        exact ⟨c, List.mem_append_left _ (heq ▸ List.mem_append_right _ (List.mem_singleton_self c)), hcx⟩
      · obtain ⟨c, hc, hcx⟩ := hcalled₂ x hm ht hupx
        exact ⟨c, List.mem_append_right _ hc, hcx⟩

theorem initAll_effect {n : Nat} {rs : List ρ} {s t : St ρ α} (h : M.initAll n rs s = .ok t) :
    Effect M s t rs ∧ ∀ r ∈ rs, t.done r = true :=
  initAll_effect_of init_effect h

theorem done_of_white {n : Nat} {r x : ρ} {s t : St ρ α} (h : M.init n r s = .ok t)
    (hp : Relation.ReflTransGen (M.White s) r x) : t.done x = true := by
  obtain ⟨heff, hr⟩ := init_effect h
  induction hp with
  | refl => exact hr
  | tail _ hw ih => exact heff.closed _ hw.2.1 ih _ hw.1

/-! ### Invariants of values -/

/-- `P` holds of all values, and `Q` of those of objects that are done. -/
def Holds (P Q : ρ → α → Prop) (s : St ρ α) : Prop := ∀ x, P x (s.val x) ∧ (s.done x = true → Q x (s.val x))

section
variable {P Q : ρ → α → Prop} {n : Nat} {r : ρ} {rs : List ρ} {s t : St ρ α}

theorem Holds.set {v : α} (h : Holds P Q s) (hP : P r v) (hQ : Q r v) : Holds P Q ((s.set r v).mark r) := by
  intro x
  by_cases hx : x = r
  · subst hx
    simpa only [St.set, St.mark, Function.update_self] using ⟨hP, fun _ => hQ⟩
  · simpa only [St.set, St.mark, Function.update_of_ne hx] using h x

theorem Holds.initAll_of (hinit : ∀ {r s t}, Holds P Q s → M.init n r s = .ok t → Holds P Q t)
    (h : Holds P Q s) (hrun : M.initAll n rs s = .ok t) : Holds P Q t :=
  Except.foldlM_inv h (fun _ _ _ _ hs hu => hinit hs hu) hrun

theorem Holds.init (halone : ∀ r v, M.up r = none → P r v → P r (M.alone v) ∧ Q r (M.alone v))
    (hcombine : ∀ r b v w v', M.up r = some b → P r v → P b w → Q b w → M.combine v w = .ok v' → P r v' ∧ Q r v')
    (h : Holds P Q s) (hrun : M.init n r s = .ok t) : Holds P Q t := by
  induction n generalizing r s t with
  | zero => cases hrun
  | succ m ih =>
    obtain ⟨m', hm, hcase⟩ := init_eq_ok hrun
    cases hm
    rcases hcase with ⟨-, rfl⟩ | ⟨-, u, hprep, hdown⟩
    · exact h
    refine Holds.initAll_of ih ?_ hdown
    rcases hprep with ⟨hup, rfl⟩ | ⟨b, u', hup, hb, hfin⟩
    · obtain ⟨hP, hQ⟩ := halone r _ hup (h r).1
      exact h.set hP hQ
    · have hu' : Holds P Q u' ∧ u'.done b = true := by
        rcases hb with ⟨hdone, rfl⟩ | ⟨-, hrec⟩
        · exact ⟨h, hdone⟩
        · exact ⟨ih h hrec, (init_effect hrec).2⟩
      obtain ⟨v, hv, rfl⟩ := finish_eq_ok hfin
      obtain ⟨hP, hQ⟩ := hcombine r b _ _ v hup (hu'.1 r).1 (hu'.1 b).1 ((hu'.1 b).2 hu'.2) hv
      exact hu'.1.set hP hQ

theorem Holds.initAll (halone : ∀ r v, M.up r = none → P r v → P r (M.alone v) ∧ Q r (M.alone v))
    (hcombine : ∀ r b v w v', M.up r = some b → P r v → P b w → Q b w → M.combine v w = .ok v' → P r v' ∧ Q r v')
    (h : Holds P Q s) (hrun : M.initAll n rs s = .ok t) : Holds P Q t :=
  h.initAll_of (Holds.init halone hcombine) hrun

theorem init_values (hcombine : ∀ r v w v', P r v → M.combine v w = .ok v' → P r v')
    (halone : ∀ r v, P r v → P r (M.alone v)) (h : ∀ x, P x (s.val x)) (hrun : M.init n r s = .ok t) :
    ∀ x, P x (t.val x) := by
  have hholds : Holds P (fun _ _ => True) t :=
    Holds.init (fun r v _ hv => ⟨halone r v hv, trivial⟩)
      (fun r b v w v' _ hv _ _ hok => ⟨hcombine r v w v' hv hok, trivial⟩) (fun x => ⟨h x, fun _ => trivial⟩) hrun
  exact fun x => (hholds x).1

end

end Memo
