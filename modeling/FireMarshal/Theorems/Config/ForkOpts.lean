import FireMarshal.Theorems.Config.ForkRun

/-! The options that `mergeOptsRecursive` finds along the chain of bases, in the middle of the loop. -/

namespace FireMarshal

variable {ω : Type} {m : Marshal ω} {distMod : DistroModule ω} {p₀ p q : Pool ω} {r : Ref}

/-! ### Options as they are written -/

def ownOpts (p : Pool ω) (r : Ref) : List ω := (p.cfg r).distro.toList.map fun d => (p.dist d).opts

/-- The options that the configurations along the chain of bases of `r` set, root first. The root has to set some. -/
inductive Written (p : Pool ω) : Ref → List ω → Prop where
  | root {r d : Ref} (h : (p.cfg r).base = none) (hd : (p.cfg r).distro = some d) : Written p r [(p.dist d).opts]
  | step {r b : Ref} {os : List ω} (hb : p.Based r b) (h : Written p b os) : Written p r (os ++ ownOpts p r)

/-- The left fold of the options along the chain, one configuration after the other. -/
inductive Merged (distMod : DistroModule ω) (p : Pool ω) : Ref → ω → Prop where
  | root {r d : Ref} (hbase : (p.cfg r).base = none) (hd : (p.cfg r).distro = some d) :
      Merged distMod p r (p.dist d).opts
  | pass {r b : Ref} {v : ω} (hb : p.Based r b) (hd : (p.cfg r).distro = none) (h : Merged distMod p b v) :
      Merged distMod p r v
  | merge {r b d : Ref} {v w : ω} (hb : p.Based r b) (hd : (p.cfg r).distro = some d) (h : Merged distMod p b w)
      (hv : distMod.mergeOpts w (p.dist d).opts = .ok v) : Merged distMod p r v

theorem ownOpts_some {d : Ref} (hd : (p.cfg r).distro = some d) : ownOpts p r = [(p.dist d).opts] := by
  simp [ownOpts, hd]

theorem ownOpts_none (hd : (p.cfg r).distro = none) : ownOpts p r = [] := by simp [ownOpts, hd]

theorem Written.ne_nil {os : List ω} (h : Written p r os) : os ≠ [] := by
  induction h with
  | root => simp
  | step _ _ ih => simp [ih]

theorem merged_of_written {first v : ω} {rest : List ω} (h : Written p r (first :: rest))
    (hv : rest.foldlM distMod.mergeOpts first = .ok v) : Merged distMod p r v := by
  generalize hos : first :: rest = os at h
  induction h generalizing first rest v with
  | @root r d hbase hd =>
    cases hos
    cases hv
    exact .root hbase hd
  | @step r b os hb h ih =>
    cases hd : (p.cfg r).distro with
    | none =>
      rw [ownOpts_none hd, List.append_nil] at hos
      exact .pass hb hd (ih hv hos)
    | some d =>
      rw [ownOpts_some hd] at hos
      obtain ⟨first', rest', rfl⟩ := List.exists_cons_of_ne_nil h.ne_nil
      rw [List.cons_append] at hos
      obtain ⟨rfl, rfl⟩ := List.cons.inj hos
      rw [List.foldlM_append] at hv
      obtain ⟨w, hw', hv⟩ := Except.bind_ok hv
      obtain ⟨v', hv', hv⟩ := Except.foldlM_cons_ok hv
      cases hv
      exact .merge hb hd (ih hw' rfl) hv'

/-! ### The walk down a chain whose options are not merged yet -/

section Walk

variable {done : List Ref}

/-- The chain from `r` on has no configuration with a base that was forked, and the options of its root are still
    those that are written. -/
structure Untouched (p₀ : Pool ω) (done : List Ref) (p : Pool ω) (r : Ref) : Prop where
  bases : ∀ a, Relation.ReflTransGen p₀.Based r a → a ∈ done → (p₀.cfg a).distro ≠ none → (p₀.cfg a).base = none
  roots : ∀ k a d, p₀.cfgs.lookup k = some a → (p₀.cfg a).base = none → (p₀.cfg a).distro = some d →
    (p.dist d).opts = (p₀.dist d).opts

theorem Untouched.base {b : Ref} (h : Untouched p₀ done p r) (hb : p₀.Based r b) : Untouched p₀ done p b :=
  ⟨fun a ha => h.bases a (.head hb ha), h.roots⟩

theorem Untouched.waits (ht : Track m p₀ done p) (hu : Untouched p₀ done p r) {k : String}
    (hk : p₀.cfgs.lookup k = some r) (hbase : (p₀.cfg r).base ≠ none) :
    (r ∉ done ∨ (p₀.cfg r).distro = none) ∧ p.cfg r = p₀.cfg r := by
  have hwait : r ∉ done ∨ (p₀.cfg r).distro = none := by
    by_contra hno
    obtain ⟨hmem, hd⟩ := not_or.mp hno
    exact hbase (hu.bases r .refl (not_not.mp hmem) hd)
  exact ⟨hwait, ht.waits k r hk hwait⟩

theorem mergeOptsRecursive_merged (hw : Forkable m p₀) (ht : Track m p₀ done p) {v : ω}
    (h : Merged distMod p₀ r v) {k : String} (hk : p₀.cfgs.lookup k = some r) (hu : Untouched p₀ done p r)
    {n : Nat} (hn : Acyclic.height p₀.Based p₀.cfgs.vals r + 1 < n) :
    p.mergeOptsRecursive distMod n r = .ok (some v) := by
  induction h generalizing k n with
  | @root r d hbase hd =>
    have hopts := hu.roots k r d hk hbase hd
    obtain ⟨n, rfl⟩ : ∃ n', n = n' + 2 := ⟨n - 2, by omega⟩
    have hroot : p.AtRoot r := by
      by_cases hr : r ∈ done
      · exact (ht.root k r hk hr (by simp [hd])).mp hbase
      · exact (ht.atRoot_waiting hw hk (.inl hr)).mpr hbase
    have hd' := (ht.distro hk).trans hd
    rw [Pool.mergeOptsRecursive]
    rcases hroot with hbase' | ⟨b, x, hb, hx, hxd⟩
    · simp [ht.isDistro hw hk, hbase', hd', hopts]
    · have hnone : p.mergeOptsRecursive distMod (n + 1) x = .ok none := by simp [Pool.mergeOptsRecursive, hxd]
      simp [ht.isDistro hw hk, hb, hx, hnone, hd', Except.ok_bind, hopts]
  | @pass r b v hb hd h ih =>
    obtain ⟨base, hbase, hkb⟩ := id hb
    obtain ⟨n, rfl⟩ : ∃ n', n = n' + 1 := ⟨n - 1, by omega⟩
    have hlt := hw.acyclic.height_lt hb (Dict.mem_vals_of_lookup hkb)
    have hcfg := (hu.waits ht hk (by simp [hbase])).2
    have hrec := ih hkb (hu.base hb) (n := n) (by omega)
    rw [Pool.mergeOptsRecursive]
    simp [hcfg, hw.plain k r hk, hbase, ht.lookup base b hkb, hrec, hd, Except.ok_bind]
  | @merge r b d v w hb hd h hv ih =>
    obtain ⟨base, hbase, hkb⟩ := id hb
    obtain ⟨n, rfl⟩ : ∃ n', n = n' + 1 := ⟨n - 1, by omega⟩
    have hlt := hw.acyclic.height_lt hb (Dict.mem_vals_of_lookup hkb)
    obtain ⟨hwait, hcfg⟩ := hu.waits ht hk (by simp [hbase])
    have hdist := ht.raw k r d hk hd (hwait.resolve_right (by simp [hd]))
    have hrec := ih hkb (hu.base hb) (n := n) (by omega)
    rw [Pool.mergeOptsRecursive]
    simp [hcfg, hw.plain k r hk, hbase, ht.lookup base b hkb, hrec, hd, Except.ok_bind, hdist, hv]

end Walk

theorem mergeOptsRecursive_cases {n : Nat} {x : Option ω} (h : p.mergeOptsRecursive distMod n r = .ok x)
    (hr : (p.cfg r).isDistro = false) : ∃ n', n = n' + 1 ∧
      ((p.cfg r).base = none ∧ (∃ d, (p.cfg r).distro = some d ∧ x = some (p.dist d).opts) ∨
        ∃ b y, p.Based r b ∧ p.mergeOptsRecursive distMod n' b = .ok y ∧
          ((p.cfg r).distro = none ∧ x = y ∨
            ∃ d, (p.cfg r).distro = some d ∧ (y = none ∧ x = some (p.dist d).opts ∨
              ∃ o v, y = some o ∧ distMod.mergeOpts o (p.dist d).opts = .ok v ∧ x = some v))) := by
  cases n with
  | zero => cases h
  | succ n =>
    refine ⟨n, rfl, ?_⟩
    rw [Pool.mergeOptsRecursive] at h
    simp only [hr, Bool.false_eq_true, if_false] at h
    cases hbase : (p.cfg r).base with
    | none =>
      simp only [hbase] at h
      cases hd : (p.cfg r).distro with
      | none => simp [hd] at h
      | some d =>
        simp only [hd] at h
        cases h
        exact .inl ⟨rfl, d, rfl, rfl⟩
    | some base =>
      simp only [hbase] at h
      cases hb : p.cfgs.lookup base with
      | none => simp [hb] at h
      | some b =>
        simp only [hb] at h
        obtain ⟨y, hy, h⟩ := Except.bind_ok h
        refine .inr ⟨b, y, ⟨base, hbase, hb⟩, hy, ?_⟩
        cases hd : (p.cfg r).distro with
        | none =>
          simp only [hd] at h
          cases h
          exact .inl ⟨rfl, rfl⟩
        | some d =>
          refine .inr ⟨d, rfl, ?_⟩
          cases y with
          | none =>
            simp only [hd] at h
            cases h
            exact .inl ⟨rfl, rfl⟩
          | some o =>
            simp only [hd] at h
            split at h
            · next v hv =>
              cases h
              exact .inr ⟨o, v, rfl, hv, rfl⟩
            · cases h

theorem mergeOptsRecursive_own {n : Nat} {d : Ref} {opts : ω} (hr : (p.cfg r).isDistro = false)
    (hd : (p.cfg r).distro = some d) (h : p.mergeOptsRecursive distMod n r = .ok (some opts)) :
    opts = (p.dist d).opts ∨ ∃ base, distMod.mergeOpts base (p.dist d).opts = .ok opts := by
  obtain ⟨n', -, hcase⟩ := mergeOptsRecursive_cases h hr
  rcases hcase with ⟨-, d', hd', hopts⟩ | ⟨b, y, -, -, ⟨hno, -⟩ | ⟨d', hd', ⟨-, hopts⟩ | ⟨o, v, -, hv, hopts⟩⟩⟩
  · rw [hd] at hd'
    cases hd'
    exact .inl (Option.some.inj hopts)
  · rw [hd] at hno
    cases hno
  · rw [hd] at hd'
    cases hd'
    exact .inl (Option.some.inj hopts)
  · rw [hd] at hd'
    cases hd'
    cases hopts
    exact .inr ⟨o, hv⟩

/-! ### The walk down a chain with options that are merged already -/

def Used (m : Marshal ω) (p : Pool ω) (distMod : DistroModule ω) : Prop :=
  ∃ x d, p.Referenced x ∧ (p.cfg x).distro = some d ∧ m.distroMods.lookup (p.dist d).name = some distMod

def Additive (m : Marshal ω) (p : Pool ω) (size : ω → Nat) : Prop :=
  ∀ distMod, Used m p distMod → ∀ base new v, distMod.mergeOpts base new = .ok v → size v = size base + size new

section Size

variable {size : ω → Nat} {done : List Ref}

def Positive (size : ω → Nat) (p : Pool ω) : Prop := ∀ d, p.HasDist d → 0 < size (p.dist d).opts

theorem mergeOptsRecursive_pos (ha : Additive m p₀ size) (hmod : Used m p₀ distMod)
    {keys : List String} (hs : Sound m keys p) (hpos : Positive size p) {n : Nat} {k : String} {x : Option ω}
    (hk : p.cfgs.lookup k = some r) (hr : (p.cfg r).isDistro = false)
    (h : p.mergeOptsRecursive distMod n r = .ok x) : ∃ v, x = some v ∧ 0 < size v := by
  induction n generalizing k r x with
  | zero => cases h
  | succ n ih =>
    obtain ⟨n', hn, hcase⟩ := mergeOptsRecursive_cases h hr
    cases hn
    have hown : ∀ d, (p.cfg r).distro = some d → 0 < size (p.dist d).opts := fun d hd => hpos d ⟨k, r, hk, hr, hd⟩
    rcases hcase with ⟨-, d, hd, rfl⟩ | ⟨b, y, ⟨base, hbase, hkb⟩, hy, hcase⟩
    · exact ⟨_, rfl, hown d hd⟩
    cases hb : (p.cfg b).isDistro with
    | false =>
      obtain ⟨w, rfl, hw⟩ := ih hkb hb hy
      rcases hcase with ⟨-, rfl⟩ | ⟨d, hd, hcase⟩
      · exact ⟨w, rfl, hw⟩
      · rcases hcase with ⟨hno, -⟩ | ⟨o, v, ho, hv, rfl⟩
        · cases hno
        · cases ho
          refine ⟨v, rfl, ?_⟩
          rw [ha distMod hmod _ _ v hv]
          exact Nat.add_pos_left hw _
    | true =>
      -- A configuration that is based on a distro has options of its own.
      obtain ⟨d, hd⟩ := hs.rooted k r base b hk hr hbase hkb hb
      rcases hcase with ⟨hno, -⟩ | ⟨d', hd', hcase⟩
      · rw [hd] at hno
        cases hno
      · rcases hcase with ⟨-, rfl⟩ | ⟨o, v, -, hv, rfl⟩
        · exact ⟨_, rfl, hown d' hd'⟩
        · refine ⟨v, rfl, ?_⟩
          rw [ha distMod hmod _ _ v hv]
          exact Nat.add_pos_right _ (hown d' hd')

theorem mergeOptsRecursive_based {n : Nat} {v : ω} (h : p.mergeOptsRecursive distMod n r = .ok (some v))
    (hr : (p.cfg r).isDistro = false) (hbase : (p.cfg r).base ≠ none)
    (hsome : ∀ n b y, p.Based r b → p.mergeOptsRecursive distMod n b = .ok y → ∃ o, y = some o ∧ 0 < size o) :
    ∃ n' b o, n = n' + 1 ∧ p.Based r b ∧ p.mergeOptsRecursive distMod n' b = .ok (some o) ∧ 0 < size o ∧
      ((p.cfg r).distro = none ∧ v = o ∨
        ∃ d, (p.cfg r).distro = some d ∧ distMod.mergeOpts o (p.dist d).opts = .ok v) := by
  obtain ⟨n', hn, hcase⟩ := mergeOptsRecursive_cases h hr
  rcases hcase with ⟨hno, -⟩ | ⟨b, y, hb, hy, hcase⟩
  · exact absurd hno hbase
  obtain ⟨o, rfl, ho⟩ := hsome n' b y hb hy
  refine ⟨n', b, o, hn, hb, hy, ho, ?_⟩
  rcases hcase with ⟨hd, hvo⟩ | ⟨d, hd, ⟨hno, -⟩ | ⟨o', v', ho', hv, hvv⟩⟩
  · exact .inl ⟨hd, Option.some.inj hvo⟩
  · cases hno
  · cases ho'
    cases hvv
    exact .inr ⟨d, hd, hv⟩

theorem Merged.size_eq (ha : Additive m p₀ size) {distMod' : DistroModule ω} (hmod : Used m p₀ distMod)
    (hmod' : Used m p₀ distMod') {v v' : ω}
    (h : Merged distMod p r v) (h' : Merged distMod' p r v') : size v = size v' := by
  have hno : ∀ {b : Ref}, p.Based r b → (p.cfg r).base ≠ none := by
    rintro b ⟨base, hbase, -⟩
    simp [hbase]
  induction h generalizing v' with
  | @root r d hbase hd =>
    cases h' with
    | root _ hd' =>
      rw [hd] at hd'
      cases hd'
      rfl
    | pass hb | merge hb => exact absurd hbase (hno hb)
  | @pass r b v hb hd h ih =>
    cases h' with
    | root hbase => exact absurd hbase (hno hb)
    | pass hb' _ h' =>
      obtain rfl := hb.unique hb'
      exact ih h' fun ⟨base, hbase, _⟩ => by simp [hbase]
    | merge _ hd' =>
      rw [hd] at hd'
      cases hd'
  | @merge r b d v w hb hd h hv ih =>
    cases h' with
    | root hbase => exact absurd hbase (hno hb)
    | pass _ hd' =>
      rw [hd] at hd'
      cases hd'
    | merge hb' hd' h' hv' =>
      obtain rfl := hb.unique hb'
      rw [hd] at hd'
      cases hd'
      rw [ha _ hmod _ _ _ hv, ha _ hmod' _ _ _ hv', ih h' fun ⟨base, hbase, _⟩ => by simp [hbase]]

theorem Merged.pos (hw : Forkable m p) (ha : Additive m p size) (hmod : Used m p distMod) (hpos : Positive size p)
    {v : ω} (h : Merged distMod p r v) {k : String} (hk : p.cfgs.lookup k = some r) : 0 < size v := by
  induction h generalizing k with
  | @root r d _ hd => exact hpos d ⟨k, r, hk, hw.plain k r hk, hd⟩
  | pass hb _ _ ih =>
    obtain ⟨base, -, hkb⟩ := hb
    exact ih hkb
  | merge hb _ _ hv ih =>
    obtain ⟨base, -, hkb⟩ := hb
    rw [ha _ hmod _ _ _ hv]
    exact Nat.add_pos_left (ih hkb) _

/-- The configurations that were forked have the fold of the options along their chains. -/
def AllMerged (m : Marshal ω) (p₀ : Pool ω) (done : List Ref) (p : Pool ω) : Prop :=
  ∀ k a d, p₀.cfgs.lookup k = some a → a ∈ done → (p₀.cfg a).distro = some d →
    ∃ distMod, Used m p₀ distMod ∧ Merged distMod p₀ a (p.dist d).opts

theorem size_lt_of_forked (hw : Forkable m p₀) (ht : Track m p₀ done p) (ha : Additive m p₀ size)
    (hpos : Positive size p) (hall : AllMerged m p₀ done p) (hmod : Used m p₀ distMod) {n : Nat}
    {k : String} {v w : ω} (hk : p₀.cfgs.lookup k = some r) (hr : r ∈ done) (hd : (p₀.cfg r).distro ≠ none)
    (hbase : (p₀.cfg r).base ≠ none) (h : Merged distMod p₀ r w)
    (hv : p.mergeOptsRecursive distMod n r = .ok (some v)) : size w < size v := by
  obtain ⟨d, hd⟩ := Option.ne_none_iff_exists'.mp hd
  have hroot : ¬ p.AtRoot r := fun hroot => hbase ((ht.root k r hk hr (by simp [hd])).mpr hroot)
  have hd' := (ht.distro hk).trans hd
  have hsome : ∀ n b y, p.Based r b → p.mergeOptsRecursive distMod n b = .ok y → ∃ o, y = some o ∧ 0 < size o := by
    rintro n b y ⟨base, hb, hkb⟩ hy
    have hbd : (p.cfg b).isDistro = false := by
      rw [← Bool.not_eq_true, ← atRoot_iff hb hkb]
      exact hroot
    exact mergeOptsRecursive_pos ha hmod ht.sound hpos hkb hbd hy
  obtain ⟨-, -, o, -, -, -, ho, hcase⟩ :=
    mergeOptsRecursive_based hv (ht.isDistro hw hk) (fun hno => hroot (.inl hno)) hsome
  obtain ⟨distMod', hmod', hmerged⟩ := hall k r d hk hr hd
  rcases hcase with ⟨hno, -⟩ | ⟨d', hd'', hv'⟩
  · rw [hd'] at hno
    cases hno
  rw [hd'] at hd''
  cases hd''
  rw [ha _ hmod _ _ _ hv', h.size_eq ha hmod hmod' hmerged]
  exact Nat.lt_add_of_pos_left ho

theorem size_lt_of_base (ht : Track m p₀ done p) (ha : Additive m p₀ size) (hmod : Used m p₀ distMod) {k : String}
    {b : Ref} {o v w : ω} (hk : p₀.cfgs.lookup k = some r) (hr : r ∉ done ∨ (p₀.cfg r).distro = none)
    (hb : p₀.Based r b) (hlt : ∀ wb, Merged distMod p₀ b wb → size wb < size o)
    (hcase : (p₀.cfg r).distro = none ∧ v = o ∨
      ∃ d, (p₀.cfg r).distro = some d ∧ distMod.mergeOpts o (p.dist d).opts = .ok v)
    (h : Merged distMod p₀ r w) : size w < size v := by
  cases h with
  | root hnone =>
    obtain ⟨base, hbase, -⟩ := hb
    rw [hbase] at hnone
    cases hnone
  | pass hb' hd hwb =>
    obtain rfl := hb.unique hb'
    rcases hcase with ⟨-, rfl⟩ | ⟨d, hd', -⟩
    · exact hlt w hwb
    · rw [hd] at hd'
      cases hd'
  | merge hb' hd hwb hw' =>
    obtain rfl := hb.unique hb'
    rcases hcase with ⟨hd', -⟩ | ⟨d, hd', hv⟩
    · rw [hd] at hd'
      cases hd'
    · rw [hd] at hd'
      cases hd'
      rw [ht.raw k r _ hk hd (hr.resolve_right (by simp [hd]))] at hv
      rw [ha _ hmod _ _ _ hw', ha _ hmod _ _ _ hv]
      exact Nat.add_lt_add_right (hlt _ hwb) _

theorem size_lt_of_above (hw : Forkable m p₀) (ht : Track m p₀ done p) (ha : Additive m p₀ size)
    (hpos : Positive size p) (hall : AllMerged m p₀ done p) (hmod : Used m p₀ distMod) {n : Nat}
    {k : String} {a : Ref} {v w : ω} (hk : p₀.cfgs.lookup k = some r) (hr : r ∉ done ∨ (p₀.cfg r).distro = none)
    (hra : Relation.TransGen p₀.Based r a) (hadone : a ∈ done) (had : (p₀.cfg a).distro ≠ none)
    (habase : (p₀.cfg a).base ≠ none) (h : Merged distMod p₀ r w)
    (hv : p.mergeOptsRecursive distMod n r = .ok (some v)) : size w < size v := by
  induction n generalizing k r v w with
  | zero => cases hv
  | succ n ih =>
    obtain ⟨b, hb, hba⟩ := Relation.TransGen.head'_iff.mp hra
    obtain ⟨base, hbase, hkb⟩ := id hb
    have hcfg := ht.waits k r hk hr
    have hbp : p.Based r b := ⟨base, by rw [hcfg, hbase], ht.lookup base b hkb⟩
    have hsome : ∀ n b' y, p.Based r b' → p.mergeOptsRecursive distMod n b' = .ok y →
        ∃ o, y = some o ∧ 0 < size o := by
      intro n b' y hb' hy
      obtain rfl := hbp.unique hb'
      exact mergeOptsRecursive_pos ha hmod ht.sound hpos (ht.lookup base b hkb) (ht.isDistro hw hkb) hy
    obtain ⟨n', b', o, hn, hb', hy, -, hcase⟩ :=
      mergeOptsRecursive_based hv (ht.isDistro hw hk) (by rw [hcfg, hbase]; simp) hsome
    cases hn
    obtain rfl := hbp.unique hb'
    rw [hcfg] at hcase
    refine size_lt_of_base ht ha hmod hk hr hb (fun wb hwb => ?_) hcase h
    -- The walk from the base on counts too much.
    by_cases hforked : b ∈ done ∧ (p₀.cfg b).distro ≠ none ∧ (p₀.cfg b).base ≠ none
    · exact size_lt_of_forked hw ht ha hpos hall hmod hkb hforked.1 hforked.2.1 hforked.2.2 hwb hy
    · have hba' : Relation.TransGen p₀.Based b a := by
        rcases Relation.reflTransGen_iff_eq_or_transGen.mp hba with rfl | htrans
        · exact absurd ⟨hadone, had, habase⟩ hforked
        · exact htrans
      refine ih hkb ?_ hba' hwb hy
      by_contra hno
      obtain ⟨hmem, hd⟩ := not_or.mp hno
      refine hforked ⟨not_not.mp hmem, hd, fun hnone => ?_⟩
      obtain ⟨c, ⟨base', hbase', -⟩, -⟩ := Relation.TransGen.head'_iff.mp hba'
      rw [hnone] at hbase'
      cases hbase'

end Size

end FireMarshal
