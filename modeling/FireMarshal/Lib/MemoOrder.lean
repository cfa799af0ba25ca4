import FireMarshal.Lib.Acyclic
import FireMarshal.Lib.MemoOnce

/-! Memoised initialisation of finitely many objects, entered in any order of the keys.

The keys are the objects that the run enters and those above others; another object is only entered from the one
that lists it. -/

namespace Memo

variable {ρ α ε : Type} {M : System ρ α ε} {s₀ : St ρ α} {keys : List ρ}

/-- Objects above others are keys, and an object that is not a key is listed by one object at most. -/
structure Entries (M : System ρ α ε) (key : ρ → Prop) : Prop where
  up_key : ∀ r b, M.up r = some b → key b
  down_unique : ∀ r p q, ¬ key r → r ∈ M.down p → r ∈ M.down q → p = q

def Live (M : System ρ α ε) (keys : List ρ) (x : ρ) : Prop := ∃ k ∈ keys, Relation.ReflTransGen M.Edge k x

/-- The objects form a finite system: those that are reached are among `refs`, nothing is above itself, and an
    object that is done at the start refers to nothing. -/
structure Grounded (M : System ρ α ε) (s₀ : St ρ α) (keys refs : List ρ) : Prop where
  entries : Entries M (· ∈ keys)
  finite : ∀ x, Live M keys x → x ∈ refs
  acyclic : Acyclic fun x y => M.up x = some y
  start : s₀.calls = []
  done_up : ∀ r, s₀.done r = true → M.up r = none
  done_down : ∀ r, s₀.done r = true → M.down r = []

def Resolvable (M : System ρ α ε) (s₀ : St ρ α) (keys : List ρ) : Prop :=
  ∀ x, Live M keys x → ∃ v, Resolved M s₀ x v

theorem Live.edge {x y : ρ} (h : Live M keys x) (he : M.Edge x y) : Live M keys y := by
  obtain ⟨k, hk, hp⟩ := h
  exact ⟨k, hk, hp.tail he⟩

theorem live_of_mem {k : ρ} (h : k ∈ keys) : Live M keys k := ⟨k, h, .refl⟩

variable {refs : List ρ}

theorem white_of_path (hg : Grounded M s₀ keys refs) {x r : ρ} (hr : s₀.done r = false)
    (hp : Relation.ReflTransGen M.Edge x r) : s₀.done x = false ∧ Relation.ReflTransGen (M.White s₀) x r := by
  induction hp using Relation.ReflTransGen.head_induction_on with
  | refl => exact ⟨hr, .refl⟩
  | @head y z hyz _ ih =>
    have hy : s₀.done y = false := by
      rw [← Bool.not_eq_true]
      intro hd
      rcases hyz with hup | hdown
      · rw [hg.done_up y hd] at hup
        cases hup
      · rw [hg.done_down y hd] at hdown
        cases hdown
    exact ⟨hy, .head ⟨hyz, hy, ih.1⟩ ih.2⟩

/-! ### Termination -/

def pending (refs : List ρ) (s : St ρ α) : Nat := refs.countP (fun x => !s.done x)

theorem Effect.pending_le {s t : St ρ α} {rs : List ρ} (h : Effect M s t rs) : pending refs t ≤ pending refs s := by
  refine List.countP_mono_left fun x _ hx => ?_
  rw [Bool.not_eq_true'] at hx ⊢
  exact h.not_done hx

noncomputable def System.height (M : System ρ α ε) (refs : List ρ) (r : ρ) : Nat :=
  Acyclic.height (fun x y => M.up x = some y) refs r

theorem height_lt (hg : Grounded M s₀ keys refs) {r b : ρ} (hup : M.up r = some b) :
    M.height refs b < M.height refs r :=
  hg.acyclic.height_lt hup (hg.finite b (live_of_mem (hg.entries.up_key r b hup)))

variable [DecidableEq ρ]

theorem pending_mark {s : St ρ α} {r : ρ} (hr : r ∈ refs) (hd : s.done r = false) :
    pending refs (s.mark r) < pending refs s := by
  refine countP_lt_of_mem (fun x hx => ?_) hr ?_ ?_
  · rw [Bool.not_eq_true'] at hx ⊢
    cases hs : s.done x with
    | false => rfl
    | true => rw [(done_mark s r x).mpr (.inr hs)] at hx; cases hx
  · rw [(done_mark s r r).mpr (.inl rfl)]
    rfl
  · rw [hd]
    rfl

theorem Inv.combine_ok {s : St ρ α} (h : Inv M s₀ s) {r b : ρ} {v : α} (hres : Resolved M s₀ r v)
    (hr : s.done r = false) (hup : M.up r = some b) (hb : s.done b = true) :
    ∃ v, M.combine (s.val r) (s.val b) = .ok v := by
  obtain ⟨hr₀, hval⟩ := h.raw r hr
  cases hres with
  | done hd => rw [hr₀] at hd; cases hd
  | alone _ hup' => rw [hup] at hup'; cases hup'
  | combined _ hup' hb' hv =>
    rw [hup] at hup'
    cases hup'
    exact ⟨v, by rw [hval, (h.done b hb).unique hb', hv]⟩

theorem initAll_total_of (refs : List ρ) (bound : Nat) {m : Nat} {rs : List ρ} {s : St ρ α}
    (hinit : ∀ r ∈ rs, ∀ s, Inv M s₀ s → (∀ r' s', Enters M m r s r' s' → Quiet M s' r') → pending refs s ≤ bound →
      ∃ t, M.init m r s = .ok t)
    (h : Inv M s₀ s) (hq : ∀ r' s', EntersAll M m rs s r' s' → Quiet M s' r') (hle : pending refs s ≤ bound) :
    ∃ t, M.initAll m rs s = .ok t := by
  induction rs generalizing s with
  | nil => exact ⟨s, rfl⟩
  | cons r rs ih =>
    have hr : ∀ r' s', Enters M m r s r' s' → Quiet M s' r' := fun r' s' he => hq r' s' (.head he)
    obtain ⟨u, hu⟩ := hinit r List.mem_cons_self s h hr hle
    obtain ⟨t, ht⟩ := ih (fun q hq => hinit q (List.mem_cons_of_mem _ hq)) (h.init hr hu)
      (fun r' s' he => hq r' s' (.tail hu he)) (Nat.le_trans (init_effect hu).1.pending_le hle)
    exact ⟨t, (initAll_cons hu).trans ht⟩

theorem init_total (hg : Grounded M s₀ keys refs) (hres : Resolvable M s₀ keys) {n : Nat} {r : ρ} {s : St ρ α}
    (hr : Live M keys r) (h : Inv M s₀ s) (hq : ∀ r' s', Enters M n r s r' s' → Quiet M s' r')
    (hn : pending refs s * (refs.length + 1) + M.height refs r < n) : ∃ t, M.init n r s = .ok t := by
  induction n generalizing r s with
  | zero => cases hn
  | succ m ih =>
    cases hrd : s.done r with
    | true => exact ⟨s, by rw [System.init, if_pos hrd]⟩
    | false =>
      have hmem := hg.finite r hr
      -- The objects below `r` are initialised with one object less to do.
      have hdown : ∀ u : St ρ α, Prepared M m r s u → u.done r = false → Inv M s₀ (u.mark r) →
          pending refs u ≤ pending refs s → ∃ t, M.init (m + 1) r s = .ok t := by
        intro u hprep hu hinv hle
        rw [hprep.init hrd]
        have hlt := pending_mark hmem hu
        refine initAll_total_of refs (pending refs s - 1) (fun j hj s' hinv' hq' hle' => ?_) hinv ?_ (by omega)
        · have hj' := hr.edge (.inr hj : M.Edge r j)
          refine ih hj' hinv' hq' ?_
          have hheight : M.height refs _ ≤ refs.length := Acyclic.height_le (fun x y => M.up x = some y) refs j
          have hmul : (pending refs s' + 1) * (refs.length + 1) ≤ pending refs s * (refs.length + 1) :=
            Nat.mul_le_mul_right _ (by omega)
          rw [Nat.succ_mul] at hmul
          omega
        · rintro r' s' ⟨pre, j, post, v, hj, hpre, he⟩
          exact hq r' s' (.down hrd hprep hj hpre he)
      cases hup : M.up r with
      | none => exact hdown _ (.inl ⟨hup, rfl⟩) hrd (h.alone hrd hup) (Nat.le_refl _)
      | some b =>
        have hb := hr.edge (.inl hup : M.Edge r b)
        have hlt := height_lt hg hup
        obtain ⟨v₀, hv₀⟩ := hres r hr
        -- The object above is done, or becomes done without entering `r`.
        obtain ⟨u, hu, hinv, hbd, hrd', hle⟩ : ∃ u, (s.done b = true ∧ u = s ∨ s.done b = false ∧
            M.init m b s = .ok u) ∧ Inv M s₀ u ∧ u.done b = true ∧ u.done r = false ∧
            pending refs u ≤ pending refs s := by
          cases hbd : s.done b with
          | true => exact ⟨s, .inl ⟨rfl, rfl⟩, h, hbd, hrd, Nat.le_refl _⟩
          | false =>
            have hqb : ∀ r' s', Enters M m b s r' s' → Quiet M s' r' := fun r' s' he => hq r' s' (.up hrd hup hbd he)
            obtain ⟨u, hu⟩ := ih hb h hqb (by omega)
            obtain ⟨heff, hdone⟩ := init_effect hu
            exact ⟨u, .inr ⟨rfl, hu⟩, h.init hqb hu, hdone, (hq r s .here).not_done hrd hup hu, heff.pending_le⟩
        obtain ⟨v, hv⟩ := hinv.combine_ok hv₀ hrd' hup hbd
        have hfin : M.finish r b u = .ok (u.call r b v) := by rw [System.finish, hv]
        exact hdown _ (.inr ⟨b, u, hup, hu, hfin⟩) hrd' (hinv.combined hrd' hup hbd hv) hle

/-! ### Runs -/

/-- Every object below another was combined once, with the final value of that object, when that was done. -/
structure Settled (M : System ρ α ε) (keys : List ρ) (t : St ρ α) : Prop where
  once : ∀ x, Live M keys x → M.up x ≠ none → t.calls.countP (·.child = x) = 1
  final : ∀ c ∈ t.calls, M.up c.child = some c.parent ∧ c.ready = true ∧ c.value = t.val c.parent

def Calm (M : System ρ α ε) (s₀ : St ρ α) (order : List ρ) : Prop :=
  ∀ n r s, EntersAll M n order s₀ r s → Quiet M s r

section Run

variable {order : List ρ} {n : Nat} {t : St ρ α}

theorem done_iff_live (hg : Grounded M s₀ keys refs) (hperm : order.Perm keys)
    (hrun : M.initAll n order s₀ = .ok t) (x : ρ) : t.done x = true ↔ Live M keys x ∨ s₀.done x = true := by
  obtain ⟨heff, hall⟩ := initAll_effect hrun
  constructor
  · intro hx
    cases hx₀ : s₀.done x with
    | true => exact .inr rfl
    | false =>
      obtain ⟨r, hr, -, hp⟩ := heff.reach x hx₀ hx
      exact .inl ⟨r, hperm.mem_iff.mp hr, Relation.ReflTransGen.mono (fun _ _ hw => hw.1) _ _ hp⟩
  · rintro (⟨k, hk, hp⟩ | hx)
    · induction hp with
      | refl => exact hall k (hperm.mem_iff.mpr hk)
      | @tail y z _ hyz ih =>
        cases hy₀ : s₀.done y with
        | false => exact heff.closed y hy₀ ih z hyz
        | true =>
          rcases hyz with hup | hdown
          · rw [hg.done_up y hy₀] at hup
            cases hup
          · rw [hg.done_down y hy₀] at hdown
            cases hdown
    · exact heff.grows x hx

theorem inv_run (hg : Grounded M s₀ keys refs) (hq : Calm M s₀ order) (hrun : M.initAll n order s₀ = .ok t) :
    Inv M s₀ t := (inv_start hg.start).initAll (hq n) hrun

theorem settled_run (hg : Grounded M s₀ keys refs) (hq : Calm M s₀ order) (hperm : order.Perm keys)
    (hrun : M.initAll n order s₀ = .ok t) : Settled M keys t := by
  have hinv := inv_run hg hq hrun
  refine ⟨fun x hx hup => ?_, fun c hc => ?_⟩
  · have hx₀ : s₀.done x = false := by
      rw [← Bool.not_eq_true]
      exact fun hd => hup (hg.done_up x hd)
    rw [hinv.once x, if_pos ⟨(done_iff_live hg hperm hrun x).mpr (.inl hx), hx₀, hup⟩]
  · obtain ⟨hup, hres, hready⟩ := hinv.calls c hc
    refine ⟨hup, hready, hres.unique (hinv.done _ ?_)⟩
    -- The child was combined, so it is done, and so is the object above it.
    have hpos : 0 < t.calls.countP (·.child = c.child) := List.countP_pos_iff.mpr ⟨c, hc, by simp⟩
    rw [hinv.once] at hpos
    split at hpos
    · next hd => exact (initAll_effect hrun).1.closed _ hd.2.1 hd.1 _ (.inl hup)
    · cases hpos

noncomputable def System.resolve (M : System ρ α ε) (s₀ : St ρ α) (keys : List ρ) (x : ρ) : α :=
  open Classical in if h : Live M keys x ∧ ∃ v, Resolved M s₀ x v then h.2.choose else s₀.val x

theorem val_run (hg : Grounded M s₀ keys refs) (hq : Calm M s₀ order) (hperm : order.Perm keys)
    (hrun : M.initAll n order s₀ = .ok t) : t.val = M.resolve s₀ keys := by
  funext x
  have hinv := inv_run hg hq hrun
  by_cases hx : Live M keys x
  · have hres := hinv.done x ((done_iff_live hg hperm hrun x).mpr (.inl hx))
    rw [System.resolve, dif_pos ⟨hx, _, hres⟩]
    exact hres.unique (Exists.choose_spec (⟨_, hres⟩ : ∃ v, Resolved M s₀ x v))
  · rw [System.resolve, dif_neg (fun h => hx h.1)]
    cases hd : t.done x with
    | false => exact (hinv.raw x hd).2
    | true =>
      -- Nothing reached `x`, so it was done at the start.
      have hx₀ := ((done_iff_live hg hperm hrun x).mp hd).resolve_left hx
      exact (hinv.done x hd).unique (.done hx₀)

theorem total_of_calm (hg : Grounded M s₀ keys refs) (hq : Calm M s₀ order) (hres : Resolvable M s₀ keys)
    (hperm : order.Perm keys) : ∃ n t, M.initAll n order s₀ = .ok t := by
  refine ⟨pending refs s₀ * (refs.length + 1) + refs.length + 1, ?_⟩
  refine initAll_total_of refs (pending refs s₀) (fun r hr s hinv hq' hle => ?_) (inv_start hg.start) (hq _)
    (Nat.le_refl _)
  have hr' := live_of_mem (M := M) (hperm.mem_iff.mp hr)
  refine init_total hg hres hr' hinv hq' ?_
  have hmul := Nat.mul_le_mul_right (refs.length + 1) hle
  have hheight : M.height refs _ ≤ refs.length := Acyclic.height_le (fun x y => M.up x = some y) refs r
  omega

end Run

/-! ### Calls that are not quiet -/

theorem Enters.mono {n m : Nat} (hle : n ≤ m) {r r' : ρ} {s s' : St ρ α} (h : Enters M n r s r' s') :
    Enters M m r s r' s' := by
  induction h generalizing m with
  | here =>
    cases m with
    | zero => cases hle
    | succ m => exact .here
  | up hr hup hb _ ih =>
    cases m with
    | zero => cases hle
    | succ m => exact .up hr hup hb (ih (Nat.le_of_succ_le_succ hle))
  | down hr hprep hj hpre _ ih =>
    cases m with
    | zero => cases hle
    | succ m =>
      have hle' := Nat.le_of_succ_le_succ hle
      exact .down hr (hprep.mono_of (init_mono hle')) hj (initAll_mono hle' hpre) (ih hle')

theorem Enters.reach {n : Nat} {r r' : ρ} {s s' : St ρ α} (h : Enters M n r s r' s') :
    Relation.ReflTransGen M.Edge r r' := by
  induction h with
  | here => exact .refl
  | up _ hup _ _ ih => exact .head (.inl hup) ih
  | down _ _ hj _ _ ih => exact .head (.inr (by rw [hj]; simp)) ih

theorem initAll_append {n : Nat} {pre : List ρ} {j : ρ} {post : List ρ} {s v t : St ρ α}
    (hpre : M.initAll n pre s = .ok v) (h : M.initAll n (pre ++ j :: post) s = .ok t) :
    ∃ w, M.init n j v = .ok w ∧ w.calls <+: t.calls := by
  rw [System.initAll, List.foldlM_append] at h
  obtain ⟨v', hv', hrest⟩ := Except.bind_ok h
  obtain rfl : v' = v := Except.ok.inj (hv'.symm.trans hpre)
  obtain ⟨w, hw, hpost⟩ := Except.foldlM_cons_ok hrest
  exact ⟨w, hw, (initAll_effect hpost).1.calls_le⟩

theorem Enters.returns {n : Nat} {r r' : ρ} {s s' t : St ρ α} (h : Enters M n r s r' s')
    (hrun : M.init n r s = .ok t) : ∃ m t', M.init m r' s' = .ok t' ∧ t'.calls <+: t.calls := by
  induction h generalizing t with
  | here => exact ⟨_, t, hrun, List.prefix_refl _⟩
  | @up n r b r' s s' hr hup hb _ ih =>
    obtain ⟨n', hn, hcase⟩ := init_eq_ok hrun
    cases hn
    rcases hcase with ⟨hd, -⟩ | ⟨-, u, hprep, hdown⟩
    · rw [hr] at hd
      cases hd
    rcases hprep with ⟨hnone, -⟩ | ⟨b', u', hup', hb', hfin⟩
    · rw [hup] at hnone
      cases hnone
    obtain rfl : b = b' := Option.some.inj (hup.symm.trans hup')
    rcases hb' with ⟨hd, -⟩ | ⟨-, hrec⟩
    · rw [hb] at hd
      cases hd
    obtain ⟨m, t', ht', hpre⟩ := ih hrec
    obtain ⟨v, -, rfl⟩ := finish_eq_ok hfin
    refine ⟨m, t', ht', hpre.trans (List.IsPrefix.trans ?_ (initAll_effect hdown).1.calls_le)⟩
    exact List.prefix_append _ _
  | down hr hprep hj hpre _ ih =>
    rw [hprep.init hr, hj] at hrun
    obtain ⟨w, hw, hcalls⟩ := initAll_append hpre hrun
    obtain ⟨m, t', ht', hpre'⟩ := ih hw
    exact ⟨m, t', ht', hpre'.trans hcalls⟩

theorem two_calls {n : Nat} {r b : ρ} {s t : St ρ α} (hup : M.up r = some b) (hne : b ≠ r)
    (hp : Relation.ReflTransGen (M.White s) b r) (hrun : M.init n r s = .ok t) :
    2 ≤ t.calls.countP (·.child = r) := by
  have hr : s.done r = false := by
    cases hp with
    | refl => exact absurd rfl hne
    | tail _ hw => exact hw.2.2
  have hb : s.done b = false := by
    rcases hp.cases_head with rfl | ⟨c, hw, -⟩
    · exact absurd rfl hne
    · exact hw.2.1
  obtain ⟨m, -, hcase⟩ := init_eq_ok hrun
  rcases hcase with ⟨hd, -⟩ | ⟨-, u, hprep, hdown⟩
  · rw [hr] at hd
    cases hd
  rcases hprep with ⟨hno, -⟩ | ⟨b', u', hup', hb', hfin⟩
  · rw [hup] at hno
    cases hno
  obtain rfl : b = b' := Option.some.inj (hup.symm.trans hup')
  rcases hb' with ⟨hd, -⟩ | ⟨-, hrec⟩
  · rw [hb] at hd
    cases hd
  obtain ⟨v, -, rfl⟩ := finish_eq_ok hfin
  -- The call on `b` combined `r`, and now `r` is combined again.
  obtain ⟨new, hnew, hcalled⟩ := (init_effect hrec).1.calls
  obtain ⟨c, hc, hcr⟩ := hcalled r hr (done_of_white hrec hp) (by simp [hup])
  obtain ⟨later, hlater, -⟩ := (initAll_effect hdown).1.calls
  have hpos : 0 < new.countP (·.child = r) := List.countP_pos_iff.mpr ⟨c, hc, by simp [hcr]⟩
  rw [hlater, St.mark, St.call, hnew]
  simp only [List.countP_append, List.countP_singleton, decide_true, if_true]
  omega

theorem calm_of_settled (hg : Grounded M s₀ keys refs) {order : List ρ} (hperm : order.Perm keys) {n : Nat}
    {t : St ρ α} (hrun : M.initAll n order s₀ = .ok t) (hset : Settled M keys t) : Calm M s₀ order := by
  rintro n' r s ⟨pre, k, post, v, horder, hpre, he⟩ b hup hp
  have hk : k ∈ keys := hperm.mem_iff.mp (by rw [horder]; simp)
  have hlive : Live M keys r := ⟨k, hk, he.reach⟩
  have hne : b ≠ r := by
    rintro rfl
    exact hg.acyclic b (.single hup)
  have hrun' := initAll_mono (Nat.le_max_left n n') hrun
  rw [horder] at hrun'
  obtain ⟨w, hw, hcalls⟩ := initAll_append (initAll_mono (Nat.le_max_right n n') hpre) hrun'
  obtain ⟨m, t', ht', hcalls'⟩ := (he.mono (Nat.le_max_right n n')).returns hw
  have htwo := two_calls hup hne hp ht'
  have hone := hset.once r hlive (by simp [hup])
  have hle := (hcalls'.trans hcalls).sublist.countP_le (p := fun c => decide (c.child = r))
  omega

/-- There are values for the objects such that, in every order of the keys, the initialisation returns with these
    values and is settled, exactly if the run is calm and all values can be resolved. -/
theorem settled_iff_calm (hg : Grounded M s₀ keys refs) : ∃ V, ∀ order, order.Perm keys →
    ((∃ n t, M.initAll n order s₀ = .ok t ∧ Settled M keys t ∧ t.val = V) ↔
      Calm M s₀ order ∧ Resolvable M s₀ keys) := by
  refine ⟨M.resolve s₀ keys, fun order hperm => ⟨?_, ?_⟩⟩
  · rintro ⟨n, t, hrun, hset, -⟩
    have hq := calm_of_settled hg hperm hrun hset
    refine ⟨hq, fun x hx => ⟨_, (inv_run hg hq hrun).done x ?_⟩⟩
    exact (done_iff_live hg hperm hrun x).mpr (.inl hx)
  · rintro ⟨hq, hres⟩
    obtain ⟨n, t, hrun⟩ := total_of_calm hg hq hres hperm
    exact ⟨n, t, hrun, settled_run hg hq hperm hrun, val_run hg hq hperm hrun⟩

/-! ### All orders -/

def NoReentry (M : System ρ α ε) (key : ρ → Prop) : Prop :=
  ∀ r b, key r → M.up r = some b → ¬ Relation.ReflTransGen M.Edge b r

def CanEnter (M : System ρ α ε) (key : ρ → Prop) (s : St ρ α) (r : ρ) : Prop :=
  key r ∨ ∃ p, r ∈ M.down p ∧ s.done p = true

variable {key : ρ → Prop} {s : St ρ α}

omit [DecidableEq ρ] in
theorem quiet_of_canEnter (he : Entries M key) (hno : NoReentry M key) {r : ρ} (hr : CanEnter M key s r) :
    Quiet M s r := by
  intro b hup hp
  rcases hr with hk | ⟨p, hp', hpd⟩
  · exact hno r b hk hup (Relation.ReflTransGen.mono (fun _ _ hw => hw.1) _ _ hp)
  · by_cases hk : key r
    · exact hno r b hk hup (Relation.ReflTransGen.mono (fun _ _ hw => hw.1) _ _ hp)
    · -- The last object on the way to `r` lists it, but that one is done.
      cases hp with
      | refl => exact hk (he.up_key _ _ hup)
      | tail _ hw =>
        rcases hw.1 with hedge | hedge
        · exact hk (he.up_key _ _ hedge)
        · have hd := hw.2.1
          rw [he.down_unique r _ p hk hedge hp', hpd] at hd
          cases hd

theorem Enters.canEnter (he : Entries M key) {n : Nat} {r r' : ρ} {s' : St ρ α} (h : Enters M n r s r' s')
    (hr : CanEnter M key s r) : CanEnter M key s' r' := by
  induction h with
  | here => exact hr
  | up _ hup _ _ ih => exact ih (.inl (he.up_key _ _ hup))
  | @down n r j _ _ u v _ _ _ _ _ hj hpre _ ih =>
    refine ih (.inr ⟨r, by rw [hj]; simp, (initAll_effect hpre).1.grows r ?_⟩)
    exact (done_mark u r r).mpr (.inl rfl)

theorem calm_of_noReentry (hg : Grounded M s₀ keys refs) (hno : NoReentry M (· ∈ keys)) {order : List ρ}
    (hperm : order.Perm keys) : Calm M s₀ order := by
  rintro n r s ⟨pre, k, post, v, horder, -, he⟩
  refine quiet_of_canEnter hg.entries hno (he.canEnter hg.entries (.inl (hperm.mem_iff.mp ?_)))
  rw [horder]
  simp

theorem noReentry_of_calm (hg : Grounded M s₀ keys refs) (h : ∀ r ∈ keys, ∃ rest, Calm M s₀ (r :: rest)) :
    NoReentry M (· ∈ keys) := by
  intro r b hr hup hp
  have hrd : s₀.done r = false := by
    rw [← Bool.not_eq_true]
    intro hd
    rw [hg.done_up r hd] at hup
    cases hup
  obtain ⟨rest, hcalm⟩ := h r hr
  exact hcalm 1 r s₀ (.head .here) b hup (white_of_path hg hrd hp).2

end Memo
