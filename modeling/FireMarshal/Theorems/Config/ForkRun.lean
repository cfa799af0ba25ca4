import FireMarshal.Lib.Acyclic
import FireMarshal.Theorems.Config.ForkSteps

/-! The loop that forks the loaded configurations, one after the other. -/

namespace FireMarshal

open Pool (Extends)

variable {ω : Type} {m : Marshal ω} {p₀ p q t : Pool ω} {r : Ref}

/-! ### Pools before the loop -/

def Pool.Based (p : Pool ω) (x y : Ref) : Prop := ∃ b, (p.cfg x).base = some b ∧ p.cfgs.lookup b = some y

theorem Pool.Based.unique {x y : Ref} (hx : p.Based r x) (hy : p.Based r y) : x = y := by
  obtain ⟨b, hb, hx⟩ := hx
  obtain ⟨b', hb', hy⟩ := hy
  rw [hb] at hb'
  cases hb'
  exact Option.some.inj (hx.symm.trans hy)

/-- What the loop is given: bases are loaded and acyclic, each configuration and each job that sets 'distro' has a
    dictionary of its own with the name of a module, no configuration sets 'isDistro', and no name is like that of a
    distro workload. -/
structure Forkable (m : Marshal ω) (p : Pool ω) : Prop where
  keys : p.cfgs.keys.Nodup
  vals : p.cfgs.vals.Nodup
  alloc : ∀ x, p.Referenced x → x < p.next
  plain : ∀ k r, p.cfgs.lookup k = some r → (p.cfg r).isDistro = false
  bases : ∀ k r b, p.cfgs.lookup k = some r → (p.cfg r).base = some b → ∃ x, p.cfgs.lookup b = some x
  acyclic : Acyclic p.Based
  dist : ∀ x d, p.Referenced x → (p.cfg x).distro = some d →
    d < p.next ∧ (p.dist d).leaf = true ∧ (m.distroMods.lookup (p.dist d).name).isSome
  own : ∀ x y d, p.Referenced x → p.Referenced y → (p.cfg x).distro = some d → (p.cfg y).distro = some d → x = y
  fresh : Fresh m p.cfgs.keys

theorem lookup_mem_keys {k : String} (h : p.cfgs.lookup k = some r) : k ∈ p.cfgs.keys := by
  obtain ⟨l₁, l₂, hcfgs, -⟩ := List.lookup_eq_some_iff.mp h
  rw [Dict.keys, hcfgs]
  simp

theorem Forkable.sound (hw : Forkable m p) : Sound m p.cfgs.keys p where
  alloc _ r hk := hw.alloc r (.entry hk)
  distro k _ hk hkey := absurd hkey (hw.fresh k (.key (lookup_mem_keys hk)))
  fork k r hk _ := ⟨.key (lookup_mem_keys hk), hw.plain k r hk⟩
  bases := hw.bases
  rooted _ _ b x _ _ _ hx hxd := by
    rw [hw.plain b x hx] at hxd
    cases hxd
  dist k r d hk _ hd := ⟨(hw.dist r d (.entry hk) hd).1, (hw.dist r d (.entry hk) hd).2.2⟩

/-! ### Pools during the loop -/

/-- The pool `p` after the configurations `done` of `p₀` were forked: others are as they were, and those have a new
    base and new options. -/
structure Track (m : Marshal ω) (p₀ : Pool ω) (done : List Ref) (p : Pool ω) : Prop where
  sound : Sound m p₀.cfgs.keys p
  lookup : ∀ k r, p₀.cfgs.lookup k = some r → p.cfgs.lookup k = some r
  next : p₀.next ≤ p.next
  cfg : ∀ k r, p₀.cfgs.lookup k = some r → ∃ base, p.cfg r = { p₀.cfg r with base }
  waits : ∀ k r, p₀.cfgs.lookup k = some r → r ∉ done ∨ (p₀.cfg r).distro = none → p.cfg r = p₀.cfg r
  root : ∀ k r, p₀.cfgs.lookup k = some r → r ∈ done → (p₀.cfg r).distro ≠ none →
    ((p₀.cfg r).base = none ↔ p.AtRoot r)
  dist : ∀ k r d, p₀.cfgs.lookup k = some r → (p₀.cfg r).distro = some d → ∃ opts, p.dist d = { p₀.dist d with opts }
  raw : ∀ k r d, p₀.cfgs.lookup k = some r → (p₀.cfg r).distro = some d → r ∉ done → p.dist d = p₀.dist d

theorem Forkable.track (hw : Forkable m p) : Track m p [] p where
  sound := hw.sound
  lookup _ _ h := h
  next := Nat.le_refl _
  cfg _ r _ := ⟨(p.cfg r).base, rfl⟩
  waits _ _ _ _ := rfl
  root _ _ _ h := by cases h
  dist _ _ d _ _ := ⟨(p.dist d).opts, rfl⟩
  raw _ _ _ _ _ _ := rfl

namespace Track

variable {done : List Ref} {k : String} {d : Ref}

theorem isDistro (hw : Forkable m p₀) (ht : Track m p₀ done p) (hk : p₀.cfgs.lookup k = some r) :
    (p.cfg r).isDistro = false := by
  obtain ⟨base, hb⟩ := ht.cfg k r hk
  rw [hb]
  exact hw.plain k r hk

theorem distro (ht : Track m p₀ done p) (hk : p₀.cfgs.lookup k = some r) :
    (p.cfg r).distro = (p₀.cfg r).distro := by
  obtain ⟨base, hb⟩ := ht.cfg k r hk
  rw [hb]

theorem atRoot_waiting (hw : Forkable m p₀) (ht : Track m p₀ done p) (hk : p₀.cfgs.lookup k = some r)
    (hr : r ∉ done ∨ (p₀.cfg r).distro = none) : p.AtRoot r ↔ (p₀.cfg r).base = none := by
  have hcfg := ht.waits k r hk hr
  constructor
  · rintro (h | ⟨b, x, hb, hx, hxd⟩)
    · rwa [hcfg] at h
    · rw [hcfg] at hb
      obtain ⟨x', hx'⟩ := hw.bases k r b hk hb
      obtain rfl : x' = x := Option.some.inj ((ht.lookup b x' hx').symm.trans hx)
      rw [ht.isDistro hw hx'] at hxd
      cases hxd
  · intro h
    exact .inl (by rw [hcfg, h])

end Track

theorem Pool.Extends.atRoot {x : Ref} {keys : List String} {k : String} (h : Extends x p q) (hs : Sound m keys p)
    (hk : p.cfgs.lookup k = some r) (hcfg : q.cfg r = p.cfg r) : q.AtRoot r ↔ p.AtRoot r := by
  rw [Pool.AtRoot, Pool.AtRoot, hcfg]
  refine or_congr_right ⟨fun ⟨b, y, hb, hy, hyd⟩ => ?_, fun ⟨b, y, hb, hy, hyd⟩ => ?_⟩
  · obtain ⟨y', hy'⟩ := hs.bases k r b hk hb
    obtain rfl : y' = y := Option.some.inj ((h.lookup b y' hy').symm.trans hy)
    exact ⟨b, y', hb, hy', (h.isDistro (hs.alloc b y' hy')).symm.trans hyd⟩
  · exact ⟨b, y, hb, h.lookup b y hy, (h.isDistro (hs.alloc b y hy)).trans hyd⟩

/-! ### One step -/

/-- What the step on the configuration `r` does: it merges the options that it finds on the way down the chain,
    and names the base by their identifier. -/
structure Stepped (m : Marshal ω) (p₀ : Pool ω) (n : Nat) (r : Ref) (p q : Pool ω) : Prop where
  skip : (p₀.cfg r).distro = none → q = p
  merged : ∀ d, (p₀.cfg r).distro = some d → ∃ distMod opts, m.distroMods.lookup (p₀.dist d).name = some distMod ∧
    p.mergeOptsRecursive distMod n r = .ok (some opts) ∧ (q.dist d).opts = opts ∧
    (q.cfg r).base = some (forkName ((p₀.cfg r).base.getD (p₀.dist d).name) (distMod.hashOpts opts))
  others : ∀ k r', p₀.cfgs.lookup k = some r' → r' ≠ r →
    q.cfg r' = p.cfg r' ∧ ∀ d', (p₀.cfg r').distro = some d' → q.dist d' = p.dist d'

theorem Sound.setOpts {keys : List String} (hs : Sound m keys p) (d : Ref) (opts : ω) :
    Sound m keys (p.setOpts d opts) := by
  refine ⟨hs.alloc, hs.distro, hs.fork, hs.bases, hs.rooted, fun k r d' hk hr hd' => ?_⟩
  obtain ⟨hlt, hmod⟩ := hs.dist k r d' hk hr hd'
  refine ⟨hlt, ?_⟩
  simp only [Pool.setOpts]
  by_cases h : d' = d
  · subst h
    rwa [Function.update_self]
  · rwa [Function.update_of_ne h]

theorem dist_setOpts_of_ne {d d' : Ref} {opts : ω} (h : d' ≠ d) : (p.setOpts d opts).dist d' = p.dist d' := by
  simp only [Pool.setOpts, Function.update_of_ne h]

theorem dist_setOpts (d : Ref) (opts : ω) (p : Pool ω) : (p.setOpts d opts).dist d = { p.dist d with opts } := by
  simp only [Pool.setOpts, Function.update_self]

theorem forkDistro_eq_ok {n : Nat} {d : Ref} (hd : (p.cfg r).distro = some d) (h : m.forkDistro n r p = .ok q) :
    ∃ distMod opts, m.distroMods.lookup (p.dist d).name = some distMod ∧
      p.mergeOptsRecursive distMod n r = .ok (some opts) ∧
      m.forkRecursive (distMod.hashOpts opts) n r (p.setOpts d opts) = .ok q := by
  simp only [Marshal.forkDistro, hd] at h
  split at h
  · cases h
  · next distMod hmod =>
    obtain ⟨x, hx, h⟩ := Except.bind_ok h
    cases x with
    | none => cases h
    | some opts => exact ⟨distMod, opts, hmod, hx, h⟩

section Step

variable {done : List Ref} {k : String} {n : Nat}

theorem Track.skip (ht : Track m p₀ done p) (hd : (p₀.cfg r).distro = none) : Track m p₀ (done ++ [r]) p := by
  refine ⟨ht.sound, ht.lookup, ht.next, ht.cfg, fun k r' hk hr' => ?_, fun k r' hk hr' hd' => ?_, ht.dist,
    fun k r' d hk hd' hr' => ?_⟩
  · exact ht.waits k r' hk (hr'.imp_left fun h hmem => h (List.mem_append_left _ hmem))
  · refine ht.root k r' hk ((List.mem_append.mp hr').resolve_right fun h => hd' ?_) hd'
    rw [List.mem_singleton.mp h, hd]
  · exact ht.raw k r' d hk hd' fun hmem => hr' (List.mem_append_left _ hmem)

theorem Track.forked (hw : Forkable m p₀) (ht : Track m p₀ done p) {d : Ref} (hk : p₀.cfgs.lookup k = some r)
    (hr : r ∉ done) (hd : (p₀.cfg r).distro = some d) (h : m.forkDistro n r p = .ok q) :
    ∃ distMod opts, m.distroMods.lookup (p₀.dist d).name = some distMod ∧
      p.mergeOptsRecursive distMod n r = .ok (some opts) ∧
      Forked m p₀.cfgs.keys (distMod.hashOpts opts) r d (p.setOpts d opts) q := by
  obtain ⟨distMod, opts, hmod, hmerge, hrec⟩ := forkDistro_eq_ok ((ht.distro hk).trans hd) h
  rw [ht.raw k r d hk hd hr] at hmod
  have hplain : (p.cfg r).isDistro = false := ht.isDistro hw hk
  exact ⟨distMod, opts, hmod, hmerge, forkRecursive_spec hw.fresh (isID_hashOpts hmod opts) (ht.sound.setOpts d opts)
    (ht.lookup k r hk) hplain ((ht.distro hk).trans hd) hrec⟩

section Forked
variable {d : Ref} {opts : ω} {distID : Option String} (hw : Forkable m p₀) (ht : Track m p₀ done p)
variable (hk : p₀.cfgs.lookup k = some r) (hr : r ∉ done) (hd : (p₀.cfg r).distro = some d)
variable (hf : Forked m p₀.cfgs.keys distID r d (p.setOpts d opts) q)
include hw ht hk hd hf

theorem Track.others_of_forked {k' : String} {r' : Ref} (hk' : p₀.cfgs.lookup k' = some r') (hne : r' ≠ r) :
    q.cfg r' = p.cfg r' ∧ ∀ d', (p₀.cfg r').distro = some d' → q.dist d' = p.dist d' := by
  refine ⟨hf.ext.cfg r' (Nat.lt_of_lt_of_le (hw.alloc r' (.entry hk')) ht.next) hne, fun d' hd' => ?_⟩
  rw [hf.ext.dist d' (Nat.lt_of_lt_of_le (hw.dist r' d' (.entry hk') hd').1 ht.next), dist_setOpts_of_ne]
  rintro rfl
  exact hne (hw.own r' r d' (.entry hk') (.entry hk) hd' hd)

include hr

theorem Track.dist_of_forked : q.dist d = { p₀.dist d with opts } := by
  rw [hf.ext.dist d (Nat.lt_of_lt_of_le (hw.dist r d (.entry hk) hd).1 ht.next), dist_setOpts, ht.raw k r d hk hd hr]

theorem Track.base_of_forked :
    (q.cfg r).base = some (forkName ((p₀.cfg r).base.getD (p₀.dist d).name) distID) := by
  have hwaits := ht.atRoot_waiting hw hk (.inl hr)
  have hiff : (p.setOpts d opts).AtRoot r ↔ (p₀.cfg r).base = none := hwaits
  by_cases hroot : (p₀.cfg r).base = none
  · rw [(hf.root (hiff.mpr hroot)).1, hroot, dist_setOpts, ht.raw k r d hk hd hr]
    rfl
  · obtain ⟨b, hb, hb', -⟩ := hf.inner fun h => hroot (hiff.mp h)
    rw [hb', ← show p.cfg r = p₀.cfg r from ht.waits k r hk (.inl hr), show (p.cfg r).base = some b from hb]
    rfl

omit hd in
theorem Track.root_of_forked : (p₀.cfg r).base = none ↔ q.AtRoot r := by
  have hwaits := ht.atRoot_waiting hw hk (.inl hr)
  have hiff : (p.setOpts d opts).AtRoot r ↔ (p₀.cfg r).base = none := hwaits
  constructor
  · exact fun hroot => (hf.root (hiff.mpr hroot)).2
  · intro hq
    by_contra hroot
    obtain ⟨-, -, -, hno⟩ := hf.inner fun h => hroot (hiff.mp h)
    exact hno hq

theorem Track.of_forked : Track m p₀ (done ++ [r]) q := by
  have hother : ∀ k' r', p₀.cfgs.lookup k' = some r' → r' ≠ r →
      q.cfg r' = p.cfg r' ∧ ∀ d', (p₀.cfg r').distro = some d' → q.dist d' = p.dist d' :=
    fun k' r' => ht.others_of_forked hw hk hd hf
  refine ⟨hf.sound, fun k' r' h => hf.ext.lookup k' r' (ht.lookup k' r' h), Nat.le_trans ht.next hf.ext.next,
    fun k' r' hk' => ?_, fun k' r' hk' hr' => ?_, fun k' r' hk' hr' hd' => ?_, fun k' r' d' hk' hd' => ?_,
    fun k' r' d' hk' hd' hr' => ?_⟩
  · obtain ⟨b, hb⟩ := hf.ext.eq_but_base (Nat.lt_of_lt_of_le (hw.alloc r' (.entry hk')) ht.next)
    obtain ⟨b', hb'⟩ := ht.cfg k' r' hk'
    exact ⟨b, by rw [hb, show (p.setOpts d opts).cfg r' = p.cfg r' from rfl, hb']⟩
  · have hne : r' ≠ r := by
      rintro rfl
      exact hr'.elim (fun h => h (by simp)) fun h => by rw [hd] at h; cases h
    rw [(hother k' r' hk' hne).1]
    exact ht.waits k' r' hk' (hr'.imp_left fun h hmem => h (List.mem_append_left _ hmem))
  · by_cases hne : r' = r
    · subst hne
      exact ht.root_of_forked hw hk hr hf
    · have hmem : r' ∈ done := (List.mem_append.mp hr').resolve_right fun h => hne (List.mem_singleton.mp h)
      rw [ht.root k' r' hk' hmem hd']
      exact (hf.ext.atRoot (ht.sound.setOpts d opts) (ht.lookup k' r' hk') (hother k' r' hk' hne).1).symm
  · by_cases hne : r' = r
    · subst hne
      rw [hd] at hd'
      cases hd'
      exact ⟨opts, ht.dist_of_forked hw hk hr hd hf⟩
    · rw [(hother k' r' hk' hne).2 d' hd']
      exact ht.dist k' r' d' hk' hd'
  · have hne : r' ≠ r := by
      rintro rfl
      exact hr' (by simp)
    rw [(hother k' r' hk' hne).2 d' hd']
    exact ht.raw k' r' d' hk' hd' fun hmem => hr' (List.mem_append_left _ hmem)

end Forked

theorem Track.fork (hw : Forkable m p₀) (ht : Track m p₀ done p) {d : Ref} (hk : p₀.cfgs.lookup k = some r)
    (hr : r ∉ done) (hd : (p₀.cfg r).distro = some d) (h : m.forkDistro n r p = .ok q) :
    Track m p₀ (done ++ [r]) q ∧ Stepped m p₀ n r p q := by
  obtain ⟨distMod, opts, hmod, hmerge, hf⟩ := ht.forked hw hk hr hd h
  refine ⟨ht.of_forked hw hk hr hd hf, ⟨fun hno => ?_, fun d' hd' => ?_, fun k' r' => ht.others_of_forked hw hk hd hf⟩⟩
  · rw [hd] at hno
    cases hno
  · rw [hd] at hd'
    cases hd'
    exact ⟨distMod, opts, hmod, hmerge, by rw [ht.dist_of_forked hw hk hr hd hf], ht.base_of_forked hw hk hr hd hf⟩

theorem Track.step (hw : Forkable m p₀) (ht : Track m p₀ done p) (hk : p₀.cfgs.lookup k = some r) (hr : r ∉ done)
    (h : m.forkStep n p k = .ok q) : Track m p₀ (done ++ [r]) q ∧ Stepped m p₀ n r p q := by
  simp only [Marshal.forkStep, ht.lookup k r hk, ht.distro hk] at h
  cases hd : (p₀.cfg r).distro with
  | none =>
    simp only [hd] at h
    cases h
    exact ⟨ht.skip hd, fun _ => rfl, fun d hd' => (by rw [hd] at hd'; cases hd'), fun _ _ _ _ => ⟨rfl, fun _ _ => rfl⟩⟩
  | some d =>
    simp only [hd, ht.raw k r d hk hd hr, (hw.dist r d (.entry hk) hd).2.1, if_true] at h
    exact ht.fork hw hk hr hd h

end Step

/-! ### Runs -/

theorem Track.run (hw : Forkable m p₀) {done : List Ref} {n : Nat} {cfgs : Dict String Ref}
    (ht : Track m p₀ done p) (hcfgs : ∀ c ∈ cfgs, p₀.cfgs.lookup c.1 = some c.2) (hnodup : (done ++ cfgs.vals).Nodup)
    (h : cfgs.keys.foldlM (m.forkStep n) p = .ok t) :
    Track m p₀ (done ++ cfgs.vals) t ∧ ∀ k r, p₀.cfgs.lookup k = some r → r ∈ done →
      t.cfg r = p.cfg r ∧ ∀ d, (p₀.cfg r).distro = some d → t.dist d = p.dist d := by
  have hrun := Dict.foldlM_keys_inv (R := fun later q => Track m p₀ later q ∧ done ⊆ later ∧
    ∀ k r, p₀.cfgs.lookup k = some r → r ∈ done →
      q.cfg r = p.cfg r ∧ ∀ d, (p₀.cfg r).distro = some d → q.dist d = p.dist d)
    ⟨ht, List.Subset.refl done, fun _ _ _ _ => ⟨rfl, fun _ _ => rfl⟩⟩ (fun later s c hc u hs hnew hu => ?_) hnodup h
  · exact ⟨hrun.1, hrun.2.2⟩
  · obtain ⟨hs, hsub, hkeep⟩ := hs
    obtain ⟨hu, hstep⟩ := hs.step hw (hcfgs c hc) hnew hu
    refine ⟨hu, List.subset_append_of_subset_left _ hsub, fun k r hk hr => ?_⟩
    obtain ⟨hcfg, hdist⟩ := hkeep k r hk hr
    obtain ⟨hcfg', hdist'⟩ := hstep.others k r hk fun heq => hnew (heq ▸ hsub hr)
    exact ⟨hcfg'.trans hcfg, fun d hd => (hdist' d hd).trans (hdist d hd)⟩

end FireMarshal
