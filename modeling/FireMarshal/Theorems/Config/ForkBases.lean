import FireMarshal.Theorems.Config.ForkRun

/-! Which bases there are while configurations are forked. -/

namespace FireMarshal

open Pool (Extends)

variable {ω : Type} {m : Marshal ω} {p q t : Pool ω} {r b d x y : Ref} {distID : Option String} {n : Nat} {k : String}

/-! ### What a step changes -/

theorem forkRoot_extends (h : m.forkRoot distID r p = .ok q) :
    Extends r p q ∧ ∃ d, (p.cfg r).distro = some d ∧ q.cfgs.hasKey (forkName (p.dist d).name distID) = true := by
  cases hd : (p.cfg r).distro with
  | none =>
    simp only [Marshal.forkRoot, hd] at h
    cases h
  | some d =>
    obtain ⟨u, rfl, hu⟩ := forkRoot_eq_ok hd h
    rcases hu with ⟨rfl, hkey⟩ | ⟨hnew, w, rfl⟩
    · exact ⟨Pool.setBase_extends r _ _, d, rfl, hkey⟩
    · refine ⟨(addDistro_extends w _ p r).trans (Pool.setBase_extends r _ _), d, rfl, ?_⟩
      exact Dict.hasKey_iff.mpr ⟨_, Dict.lookup_concat_self hnew⟩

theorem forkBase_extends (b : Ref) (name : String) (p : Pool ω) : Extends r p (Marshal.forkBase r b name p) :=
  (enterFork_extends r b name p r).trans (Pool.setBase_extends r name _)

theorem forkRecursive_extends (h : m.forkRecursive distID n r p = .ok q) : Extends r p q := by
  induction n generalizing p r with
  | zero => cases h
  | succ n ih =>
    rw [Marshal.forkRecursive] at h
    split at h
    · exact (forkRoot_extends h).1
    split at h
    · cases h
    next b hb =>
    split at h
    · exact (forkRoot_extends h).1
    simp only at h
    split at h
    · cases h
      exact Pool.setBase_extends r _ p
    · exact (forkBase_extends b _ p).trans_new (ih h) (Pool.deepcopy_spec b p).2.2.1

theorem forkStep_cases (hk : p.cfgs.lookup k = some r) (h : m.forkStep n p k = .ok q) :
    q = p ∧ (∀ d, (p.cfg r).distro = some d → (p.dist d).leaf = false) ∨
    ∃ d distMod opts, (p.cfg r).distro = some d ∧ m.distroMods.lookup (p.dist d).name = some distMod ∧
      p.mergeOptsRecursive distMod n r = .ok (some opts) ∧
      m.forkRecursive (distMod.hashOpts opts) n r (p.setOpts d opts) = .ok q := by
  simp only [Marshal.forkStep, hk] at h
  split at h
  · next hnone =>
    cases h
    exact .inl ⟨rfl, fun d hd => by rw [hnone] at hd; cases hd⟩
  next d hd =>
  split at h
  · obtain ⟨distMod, opts, hmod, hopts, h⟩ := forkDistro_eq_ok hd h
    exact .inr ⟨d, distMod, opts, hd, hmod, hopts, h⟩
  · next hleaf =>
    cases h
    refine .inl ⟨rfl, fun d' hd' => ?_⟩
    rw [hd] at hd'
    cases hd'
    simpa using hleaf

/-! ### Bases after forks -/

def Pool.Allocated (p : Pool ω) : Prop := ∀ x, p.Referenced x → x < p.next

structure KeepsBases (p q : Pool ω) : Prop where
  lookup : ∀ k x, p.cfgs.lookup k = some x → q.cfgs.lookup k = some x
  alloc : q.Allocated
  bases : ∀ x b, q.Referenced x → (q.cfg x).base = some b →
    q.cfgs.hasKey b = true ∨ ∃ y, p.Referenced y ∧ (p.cfg y).base = some b

namespace KeepsBases

theorem hasKey {k : String} (h : KeepsBases p q) (hk : p.cfgs.hasKey k = true) : q.cfgs.hasKey k = true := by
  obtain ⟨x, hx⟩ := Dict.hasKey_iff.mp hk
  exact Dict.hasKey_iff.mpr ⟨x, h.lookup k x hx⟩

theorem refl (hp : p.Allocated) : KeepsBases p p := ⟨fun _ _ h => h, hp, fun x _ hx hb => .inr ⟨x, hx, hb⟩⟩

theorem trans (h₁ : KeepsBases p q) (h₂ : KeepsBases q t) : KeepsBases p t := by
  refine ⟨fun k x hk => h₂.lookup k x (h₁.lookup k x hk), h₂.alloc, fun x b hx hb => ?_⟩
  rcases h₂.bases x b hx hb with hkey | ⟨y, hy, hb⟩
  · exact .inl hkey
  · exact (h₁.bases y b hy hb).imp_left h₂.hasKey

end KeepsBases

theorem setBase_keepsBases {base : String} (hp : p.Allocated) (hbase : p.cfgs.hasKey base = true) (r : Ref) :
    KeepsBases p (p.setBase r base) := by
  have hset := Pool.setBase_extends r base p
  have href : ∀ x, (p.setBase r base).Referenced x → p.Referenced x := by
    rintro x ⟨k, c, hk, hx⟩
    obtain ⟨base', hcfg⟩ := hset.eq_but_base (hp c (.entry hk))
    rw [hcfg] at hx
    exact ⟨k, c, hk, hx⟩
  refine ⟨hset.lookup, fun x hx => hp x (href x hx), fun x b hx hb => ?_⟩
  by_cases hr : x = r
  · subst hr
    rw [cfg_setBase] at hb
    cases hb
    exact .inl hbase
  · rw [hset.cfg x (hp x (href x hx)) hr] at hb
    exact .inr ⟨x, href x hx, hb⟩

theorem enter_keepsBases {name : String} (hp : p.Allocated) (hcfgs : q.cfgs = p.cfgs ++ [(name, r)])
    (hnext : p.next ≤ q.next) (hcfg : ∀ x < p.next, q.cfg x = p.cfg x)
    (hnew : ∀ x, x = r ∨ x ∈ (q.cfg r).jobs → x < q.next ∧
      ∀ b, (q.cfg x).base = some b → ∃ y, p.Referenced y ∧ (p.cfg y).base = some b) : KeepsBases p q := by
  have href : ∀ x, q.Referenced x → p.Referenced x ∨ x = r ∨ x ∈ (q.cfg r).jobs := by
    rintro x ⟨k, c, hk, hx⟩
    rw [hcfgs] at hk
    rcases Dict.lookup_concat hk with hk | ⟨-, rfl⟩
    · rw [hcfg c (hp c (.entry hk))] at hx
      exact .inl ⟨k, c, hk, hx⟩
    · exact .inr hx
  refine ⟨fun k x hk => by rw [hcfgs, List.lookup_append, hk, Option.some_or], fun x hx => ?_, fun x b hx hb => .inr ?_⟩
  · rcases href x hx with hx | hx
    · exact Nat.lt_of_lt_of_le (hp x hx) hnext
    · exact (hnew x hx).1
  · rcases href x hx with hx | hx
    · rw [hcfg x (hp x hx)] at hb
      exact ⟨x, hx, hb⟩
    · exact (hnew x hx).2 b hb

theorem addDistro_keepsBases (hp : p.Allocated) (name : String) (w : DistroWorkload ω) :
    KeepsBases p (m.addDistro p name w) := by
  have hext := addDistro_extends (m := m) w name p
  have hadded := cfg_addDistro (m := m) w name p
  refine enter_keepsBases (r := p.next + 1) hp rfl (hext 0).next (fun x hx => Extends.cfg_eq hext hx) fun x hx => ?_
  rw [hadded] at hx
  obtain rfl : x = p.next + 1 := hx.resolve_right (List.not_mem_nil (a := x))
  refine ⟨Nat.lt_succ_self _, fun b hb => ?_⟩
  rw [hadded] at hb
  cases hb

theorem forkRoot_keepsBases (hp : p.Allocated) (h : m.forkRoot distID r p = .ok q) : KeepsBases p q := by
  cases hd : (p.cfg r).distro with
  | none =>
    simp only [Marshal.forkRoot, hd] at h
    cases h
  | some d =>
    obtain ⟨u, rfl, hu⟩ := forkRoot_eq_ok hd h
    rcases hu with ⟨rfl, hkey⟩ | ⟨hnew, w, rfl⟩
    · exact setBase_keepsBases hp hkey r
    · have hadd := addDistro_keepsBases (m := m) hp (forkName (p.dist d).name distID) w
      exact hadd.trans (setBase_keepsBases hadd.alloc (Dict.hasKey_iff.mpr ⟨_, Dict.lookup_concat_self hnew⟩) r)

/-! ### Copies -/

theorem copyJobs_bases {jobs : List Ref} (hjobs : ∀ j ∈ jobs, j < p.next) :
    ∀ x ∈ (p.copyJobs jobs).1, x < (p.copyJobs jobs).2.next ∧
      ∃ j ∈ jobs, ((p.copyJobs jobs).2.cfg x).base = (p.cfg j).base := by
  induction jobs generalizing p with
  | nil => exact nofun
  | cons j jobs ih =>
    intro x hx
    obtain ⟨hext, -, -, hlt, distro, hcfg⟩ := Pool.copyCfg_spec (p.cfg j) p
    obtain ⟨hrest, -⟩ := Pool.copyJobs_spec jobs (p.copyCfg (p.cfg j))
    have hjobs' : ∀ j' ∈ jobs, j' < p.next := fun j' hj' => hjobs j' (List.mem_cons_of_mem _ hj')
    rcases List.mem_cons.mp hx with rfl | hx
    · refine ⟨Nat.lt_of_lt_of_le hlt (hrest 0).next, j, List.mem_cons_self, ?_⟩
      have hcopy : ((p.copyJobs (j :: jobs)).2.cfg (p.copyCfg (p.cfg j)).last) = { p.cfg j with distro } :=
        (Extends.cfg_eq hrest hlt).trans hcfg
      rw [hcopy]
    · obtain ⟨hx, j', hj', hbase⟩ := ih (fun j' hj' => Nat.lt_of_lt_of_le (hjobs' j' hj') (hext 0).next) x hx
      refine ⟨hx, j', List.mem_cons_of_mem _ hj', hbase.trans ?_⟩
      rw [Extends.cfg_eq hext (hjobs' j' hj')]

theorem deepcopy_bases (hp : p.Allocated) {k : String} (hb : p.cfgs.lookup k = some b) :
    ∀ x ∈ ((p.deepcopy b).cfg (p.deepcopy b).last).jobs, x < (p.deepcopy b).last ∧
      ∃ j ∈ (p.cfg b).jobs, ((p.deepcopy b).cfg x).base = (p.cfg j).base := by
  intro x hx
  obtain ⟨hext, -, hle, -, distro, hcfg⟩ :=
    Pool.copyCfg_spec { p.cfg b with jobs := (p.copyJobs (p.cfg b).jobs).1 } (p.copyJobs (p.cfg b).jobs).2
  have hjobs : ((p.deepcopy b).cfg (p.deepcopy b).last).jobs = (p.copyJobs (p.cfg b).jobs).1 :=
    congrArg Config.jobs hcfg
  rw [hjobs] at hx
  obtain ⟨hlt, j, hj, hbase⟩ := copyJobs_bases (fun j hj => hp j (.job hb hj)) x hx
  refine ⟨Nat.lt_of_lt_of_le hlt hle, j, hj, ?_⟩
  exact (congrArg Config.base (Extends.cfg_eq hext hlt)).trans hbase

theorem forkBase_keepsBases (hp : p.Allocated) {base name : String} (hb : p.cfgs.lookup base = some b)
    (hnew : p.cfgs.lookup name = none) : KeepsBases p (Marshal.forkBase r b name p) := by
  obtain ⟨-, -, -, hlt, distro, jobs, hlast⟩ := Pool.deepcopy_spec b p
  have hentered := enterFork_cfgs r b name p
  have hself := enterFork_self r b name p
  have hext := enterFork_extends r b name p
  have hu : KeepsBases p (p.enterFork r b name) := by
    refine enter_keepsBases hp hentered (hext 0).next (fun x hx => Extends.cfg_eq hext hx) fun x hx => ?_
    rw [hself] at hx
    rcases hx with rfl | hx
    · refine ⟨hlt, fun b' hb' => ⟨b, .entry hb, ?_⟩⟩
      rw [← hb', hself, hlast]
    · obtain ⟨hx, j, hj, hbase⟩ := deepcopy_bases hp hb x hx
      refine ⟨Nat.lt_trans hx hlt, fun b' hb' => ⟨j, .job hb hj, ?_⟩⟩
      rw [← hbase, ← enterFork_other r b name p (Nat.ne_of_lt hx), hb']
  refine hu.trans (setBase_keepsBases hu.alloc ?_ r)
  exact Dict.hasKey_iff.mpr ⟨_, by rw [hentered, Dict.lookup_concat_self hnew]⟩

/-! ### The loop -/

theorem forkRecursive_keepsBases (hp : p.Allocated) (h : m.forkRecursive distID n r p = .ok q) : KeepsBases p q := by
  induction n generalizing p r with
  | zero => cases h
  | succ n ih =>
    rw [Marshal.forkRecursive] at h
    split at h
    · exact forkRoot_keepsBases hp h
    split at h
    · cases h
    next b hb =>
    split at h
    · exact forkRoot_keepsBases hp h
    simp only at h
    split at h
    · next hkey =>
      cases h
      exact setBase_keepsBases hp hkey r
    · next hkey =>
      have hfork := forkBase_keepsBases (r := r) hp hb (Dict.lookup_of_not_hasKey hkey)
      exact hfork.trans (ih hfork.alloc h)

theorem forkStep_keepsBases (hp : p.Allocated) (h : m.forkStep n p k = .ok q) : KeepsBases p q := by
  cases hk : p.cfgs.lookup k with
  | none =>
    simp only [Marshal.forkStep, hk] at h
    cases h
  | some r =>
    rcases forkStep_cases hk h with ⟨rfl, -⟩ | ⟨d, distMod, opts, -, -, -, h⟩
    · exact .refl hp
    · have hset : KeepsBases p (p.setOpts d opts) := ⟨fun _ _ h => h, hp, fun x _ hx hb => .inr ⟨x, hx, hb⟩⟩
      exact hset.trans (forkRecursive_keepsBases hset.alloc h)

theorem forkAll_keepsBases (hp : p.Allocated) (h : m.forkAll n p = .ok q) : KeepsBases p q := by
  refine Except.foldlM_inv (P := KeepsBases p) (.refl hp) (fun s name _ u hs hu => ?_) h
  exact hs.trans (forkStep_keepsBases hs.alloc hu)

/-! ### Distro workloads that forks make -/

structure Spared (p s : Pool ω) (r d : Ref) : Prop where
  cfg : s.cfg r = p.cfg r
  dist : s.dist d = p.dist d

structure Kept (p s : Pool ω) : Prop where
  next : p.next ≤ s.next
  lookup : ∀ k x, p.cfgs.lookup k = some x → s.cfgs.lookup k = some x
  distro : ∀ x < p.next, (s.cfg x).distro = (p.cfg x).distro

theorem Kept.hasKey {s : Pool ω} (h : Kept p s) (hk : p.cfgs.hasKey k = true) : s.cfgs.hasKey k = true := by
  obtain ⟨x, hx⟩ := Dict.hasKey_iff.mp hk
  exact Dict.hasKey_iff.mpr ⟨x, h.lookup k x hx⟩

theorem Kept.trans (h₁ : Kept p q) (h₂ : Kept q t) : Kept p t where
  next := Nat.le_trans h₁.next h₂.next
  lookup k x hk := h₂.lookup k x (h₁.lookup k x hk)
  distro x hx := (h₂.distro x (Nat.lt_of_lt_of_le hx h₁.next)).trans (h₁.distro x hx)

theorem forkStep_kept (h : m.forkStep n p k = .ok q) : Kept p q := by
  cases hk : p.cfgs.lookup k with
  | none =>
    simp only [Marshal.forkStep, hk] at h
    cases h
  | some r =>
    rcases forkStep_cases hk h with ⟨rfl, -⟩ | ⟨d, distMod, opts, -, -, -, h⟩
    · exact ⟨Nat.le_refl _, fun _ _ h => h, fun _ _ => rfl⟩
    · have hext := forkRecursive_extends h
      exact ⟨hext.next, hext.lookup, fun x hx => hext.distro hx⟩

theorem forkSteps_kept {names : List String} (h : names.foldlM (m.forkStep n) p = .ok q) : Kept p q :=
  Except.foldlM_inv (P := Kept p) ⟨Nat.le_refl _, fun _ _ h => h, fun _ _ => rfl⟩
    (fun _ _ _ _ hs hu => hs.trans (forkStep_kept hu)) h

section
variable {s u : Pool ω} (hk : s.cfgs.lookup k = some y) (hu : m.forkStep n s k = .ok u)
include hk hu

theorem forkStep_cfg (hx : x < s.next) (hne : x ≠ y) : u.cfg x = s.cfg x := by
  rcases forkStep_cases hk hu with ⟨rfl, -⟩ | ⟨d', distMod, opts, hd', -, -, hu⟩
  · rfl
  · exact (forkRecursive_extends hu).cfg x hx hne

theorem forkStep_dist (hd : d < s.next) (hown : (s.cfg y).distro ≠ some d) : u.dist d = s.dist d := by
  rcases forkStep_cases hk hu with ⟨rfl, -⟩ | ⟨d', distMod, opts, hd', -, -, hu⟩
  · rfl
  · have hne : d ≠ d' := by
      rintro rfl
      exact hown hd'
    exact ((forkRecursive_extends hu).dist d hd).trans (dist_setOpts_of_ne hne)

end

theorem forkAll_others (halloc : ∀ k y, p.cfgs.lookup k = some y → y < p.next) (h : m.forkAll n p = .ok q) :
    (∀ x < p.next, (∀ k, p.cfgs.lookup k ≠ some x) → q.cfg x = p.cfg x) ∧
      ∀ d < p.next, (∀ k y, p.cfgs.lookup k = some y → (p.cfg y).distro ≠ some d) → q.dist d = p.dist d := by
  suffices hrun : Kept p q ∧ (∀ x < p.next, (∀ k, p.cfgs.lookup k ≠ some x) → q.cfg x = p.cfg x) ∧
      ∀ d < p.next, (∀ k y, p.cfgs.lookup k = some y → (p.cfg y).distro ≠ some d) → q.dist d = p.dist d from hrun.2
  refine Except.foldlM_inv (P := fun s => Kept p s ∧
    (∀ x < p.next, (∀ k, p.cfgs.lookup k ≠ some x) → s.cfg x = p.cfg x) ∧
      ∀ d < p.next, (∀ k y, p.cfgs.lookup k = some y → (p.cfg y).distro ≠ some d) → s.dist d = p.dist d)
    ⟨⟨Nat.le_refl _, fun _ _ h => h, fun _ _ => rfl⟩, fun _ _ _ => rfl, fun _ _ _ => rfl⟩
    (fun s k hk u hs hu => ?_) h
  obtain ⟨hkept, hcfg, hdist⟩ := hs
  obtain ⟨y, hy⟩ := Dict.hasKey_iff.mp (Dict.mem_keys_iff.mp hk)
  have hy' := hkept.lookup k y hy
  refine ⟨hkept.trans (forkStep_kept hu), fun x hx hno => ?_, fun d hd hown => ?_⟩
  · rw [forkStep_cfg hy' hu (Nat.lt_of_lt_of_le hx hkept.next) fun hxy => hno k (hxy ▸ hy), hcfg x hx hno]
  · rw [forkStep_dist hy' hu (Nat.lt_of_lt_of_le hd hkept.next), hdist d hd hown]
    rw [hkept.distro y (halloc k y hy)]
    exact hown k y hy

theorem forkStep_made {s u : Pool ω} (hk : s.cfgs.lookup k = some r) (hbase : (s.cfg r).base = none)
    (hd : (s.cfg r).distro = some d) (hleaf : (s.dist d).leaf = true)
    (hid : ∀ distMod, m.distroMods.lookup (s.dist d).name = some distMod → distMod.hashOpts (s.dist d).opts = none)
    (hu : m.forkStep n s k = .ok u) : u.cfgs.hasKey (s.dist d).name = true := by
  rcases forkStep_cases hk hu with ⟨-, hno⟩ | ⟨d', distMod, opts, hd', hmod, hopts, hu⟩
  · rw [hno d hd] at hleaf
    cases hleaf
  obtain rfl := Option.some.inj (hd.symm.trans hd')
  cases n with
  | zero => cases hu
  | succ n =>
    -- The options of a root are its own.
    have hown : opts = (s.dist d).opts := by
      rw [Pool.mergeOptsRecursive] at hopts
      split at hopts
      · cases hopts
      · simp only [hbase, hd] at hopts
        cases hopts
        rfl
    have hbase' : ((s.setOpts d opts).cfg r).base = none := hbase
    rw [Marshal.forkRecursive, hbase', hown, hid distMod hmod] at hu
    obtain ⟨-, d', hd'', hkey⟩ := forkRoot_extends hu
    obtain rfl := Option.some.inj (hd.symm.trans hd'')
    rwa [dist_setOpts] at hkey

theorem forkAll_made (hk : p.cfgs.lookup k = some r) (hr : r < p.next) (hdlt : d < p.next)
    (halloc : ∀ k x, p.cfgs.lookup k = some x → x < p.next)
    (hown : ∀ k x, p.cfgs.lookup k = some x → (p.cfg x).distro = some d → x = r)
    (hbase : (p.cfg r).base = none) (hd : (p.cfg r).distro = some d) (hleaf : (p.dist d).leaf = true)
    (hid : ∀ distMod, m.distroMods.lookup (p.dist d).name = some distMod → distMod.hashOpts (p.dist d).opts = none)
    (h : m.forkAll n p = .ok q) : q.cfgs.hasKey (p.dist d).name = true := by
  have hmade : ∀ {s u : Pool ω} {k : String}, Spared p s r d → s.cfgs.lookup k = some r → m.forkStep n s k = .ok u →
      u.cfgs.hasKey (p.dist d).name = true := by
    intro s u k hs hk hu
    have hkey := forkStep_made (d := d) hk (by rw [hs.cfg, hbase]) (by rw [hs.cfg, hd]) (by rw [hs.dist, hleaf])
      (by rw [hs.dist]; exact hid) hu
    rwa [hs.dist] at hkey
  obtain ⟨before, after, hkeys⟩ := List.append_of_mem (Dict.mem_keys_iff.mpr (Dict.hasKey_iff.mpr ⟨r, hk⟩))
  rw [Marshal.forkAll, hkeys, List.foldlM_append] at h
  obtain ⟨s, hbefore, h⟩ := Except.bind_ok h
  obtain ⟨u, hu, hafter⟩ := Except.foldlM_cons_ok h
  -- Up to `r`, the workload is made by a step on another name of `r`, or nothing happens to `r`.
  have hrun : Kept p s ∧ (s.cfgs.hasKey (p.dist d).name = true ∨ Spared p s r d) := by
    refine Except.foldlM_inv (P := fun s => Kept p s ∧ (s.cfgs.hasKey (p.dist d).name = true ∨ Spared p s r d))
      ⟨⟨Nat.le_refl _, fun _ _ h => h, fun _ _ => rfl⟩, .inr ⟨rfl, rfl⟩⟩ (fun s k' hk' u hs hu => ?_) hbefore
    obtain ⟨hkept, hs⟩ := hs
    have hstep := forkStep_kept hu
    refine ⟨hkept.trans hstep, ?_⟩
    rcases hs with hkey | hs
    · exact .inl (hstep.hasKey hkey)
    obtain ⟨x, hx⟩ := Dict.hasKey_iff.mp (Dict.mem_keys_iff.mp (hkeys ▸ List.mem_append_left _ hk'))
    have hx' := hkept.lookup k' x hx
    by_cases hxr : x = r
    · exact .inl (hmade hs (hxr ▸ hx') hu)
    · have hne : (s.cfg x).distro ≠ some d := by
        rw [hkept.distro x (halloc k' x hx)]
        exact fun hd' => hxr (hown k' x hx hd')
      exact .inr ⟨(forkStep_cfg hx' hu (Nat.lt_of_lt_of_le hr hkept.next) (Ne.symm hxr)).trans hs.cfg,
        (forkStep_dist hx' hu (Nat.lt_of_lt_of_le hdlt hkept.next) hne).trans hs.dist⟩
  refine (forkSteps_kept hafter).hasKey ?_
  rcases hrun.2 with hkey | hs
  · exact (forkStep_kept hu).hasKey hkey
  · exact hmade hs (hrun.1.lookup k r hk) hu

/-! ### Bases that forks look up -/

def Pool.Complete (p : Pool ω) (x : Ref) : Prop :=
  ∀ y, Relation.ReflTransGen p.Based x y → ∀ b, (p.cfg y).base = some b → p.cfgs.hasKey b = true

def LikeFork (m : Marshal ω) (name : String) : Prop :=
  DistroKey m name ∨ ∃ b id, IsID m (some id) ∧ name = forkName b (some id)

/-- The error is not that the name of a distro module is not in the pool: it is for the option 'distro', for a module
    that does not exist, or comes from the options. -/
def OtherError (m : Marshal ω) (e : PyError) : Prop :=
  ∀ b, e = .keyError b → b = "distro" ∨ m.distroMods.hasKey b = false ∨
    ∃ name distMod opts opts', m.distroMods.lookup name = some distMod ∧ distMod.mergeOpts opts opts' = .error (.keyError b)

/-- What holds of a result; errors do not come from a base that is missing. -/
def Looks {α : Type} (m : Marshal ω) (P : α → Prop) : Except (Memo.Failure PyError) α → Prop
  | .ok a => P a
  | .error .outOfFuel => True
  | .error (.raised e) => OtherError m e

theorem Looks.bind {α β : Type} {P : α → Prop} {Q : β → Prop} {x : Except (Memo.Failure PyError) α}
    {f : α → Except (Memo.Failure PyError) β} (hx : Looks m P x) (hf : ∀ a, P a → Looks m Q (f a)) :
    Looks m Q (x >>= f) := by
  cases x with
  | error e => cases e <;> exact hx
  | ok a => exact hf a hx

theorem Looks.foldlM {α σ : Type} {P : σ → Prop} {f : σ → α → Except (Memo.Failure PyError) σ} {xs : List α} {s : σ}
    (hs : P s) (hstep : ∀ s, ∀ x ∈ xs, P s → Looks m P (f s x)) : Looks m P (xs.foldlM f s) := by
  induction xs generalizing s with
  | nil => exact hs
  | cons x xs ih =>
    rw [List.foldlM_cons]
    exact (hstep s x List.mem_cons_self hs).bind fun u hu =>
      ih hu fun s y hy => hstep s y (List.mem_cons_of_mem x hy)

/-- New objects, and those whose chains of bases were complete. -/
def Firm (p₀ : Pool ω) (x : Ref) : Prop := p₀.next ≤ x ∨ p₀.Complete x

structure Whole (p₀ p : Pool ω) : Prop extends Kept p₀ p where
  fresh : ∀ k x, p.cfgs.lookup k = some x → p₀.cfgs.lookup k = some x ∨ p₀.next ≤ x
  alloc : ∀ k x, p.cfgs.lookup k = some x → x < p.next
  closed : ∀ k x b, p.cfgs.lookup k = some x → Firm p₀ x → (p.cfg x).base = some b →
    ∃ y, p.cfgs.lookup b = some y ∧ Firm p₀ y

section
variable {p₀ : Pool ω}

theorem whole_self (halloc : ∀ k x, p₀.cfgs.lookup k = some x → x < p₀.next) : Whole p₀ p₀ where
  next := Nat.le_refl _
  lookup _ _ h := h
  distro _ _ := rfl
  fresh _ _ h := .inl h
  alloc := halloc
  closed k x b hk hx hb := by
    have hcomplete := hx.resolve_left (Nat.not_le.mpr (halloc k x hk))
    obtain ⟨y, hy⟩ := Dict.hasKey_iff.mp (hcomplete x .refl b hb)
    exact ⟨y, hy, .inr fun z hz => hcomplete z (.head ⟨b, hb, hy⟩ hz)⟩

theorem Whole.setOpts (h : Whole p₀ p) (d : Ref) (opts : ω) : Whole p₀ (p.setOpts d opts) :=
  ⟨⟨h.next, h.lookup, h.distro⟩, h.fresh, h.alloc, h.closed⟩

theorem Whole.setBase {base : String} (h : Whole p₀ p) (hbase : p.cfgs.lookup base = some y) (hy : Firm p₀ y) (r : Ref) :
    Whole p₀ (p.setBase r base) := by
  have hext := Pool.setBase_extends r base p
  refine ⟨⟨h.next, h.lookup, fun x hx => ?_⟩, h.fresh, h.alloc, fun k x b hk hx hb => ?_⟩
  · exact (hext.distro (Nat.lt_of_lt_of_le hx h.next)).trans (h.distro x hx)
  · by_cases hr : x = r
    · subst hr
      rw [cfg_setBase] at hb
      cases hb
      exact ⟨y, hbase, hy⟩
    · rw [hext.cfg x (h.alloc k x hk) hr] at hb
      exact h.closed k x b hk hx hb

theorem Whole.enter {name : String} (h : Whole p₀ p) (hext : ∀ x, Extends x p q)
    (hcfgs : q.cfgs = p.cfgs ++ [(name, x)]) (hle : p.next ≤ x) (hlt : x < q.next)
    (hbase : ∀ b, (q.cfg x).base = some b → ∃ y, p.cfgs.lookup b = some y ∧ Firm p₀ y) : Whole p₀ q := by
  have hlookup : ∀ {k z}, q.cfgs.lookup k = some z → p.cfgs.lookup k = some z ∨ z = x := by
    intro k z hk
    rw [hcfgs] at hk
    exact (Dict.lookup_concat hk).imp_right And.right
  refine ⟨⟨Nat.le_trans h.next (hext 0).next, fun k z hk => (hext 0).lookup k z (h.lookup k z hk), fun z hz => ?_⟩,
    fun k z hk => ?_, fun k z hk => ?_, fun k z b hk hz hb => ?_⟩
  · exact ((hext 0).distro (Nat.lt_of_lt_of_le hz h.next)).trans (h.distro z hz)
  · rcases hlookup hk with hold | rfl
    · exact h.fresh k z hold
    · exact .inr (Nat.le_trans h.next hle)
  · rcases hlookup hk with hold | rfl
    · exact Nat.lt_of_lt_of_le (h.alloc k z hold) (hext 0).next
    · exact hlt
  · have hfound : ∃ y, p.cfgs.lookup b = some y ∧ Firm p₀ y := by
      rcases hlookup hk with hold | rfl
      · rw [Extends.cfg_eq hext (h.alloc k z hold)] at hb
        exact h.closed k z b hold hz hb
      · exact hbase b hb
    obtain ⟨y, hy, hfirm⟩ := hfound
    exact ⟨y, (hext 0).lookup b y hy, hfirm⟩

variable (hnames : ∀ k x, p₀.cfgs.lookup k = some x → ¬ LikeFork m k)
include hnames

theorem forkRoot_looks (h : Whole p₀ p) (hid : IsID m distID) : Looks m (Whole p₀) (m.forkRoot distID r p) := by
  cases hd : (p.cfg r).distro with
  | none =>
    simp only [Marshal.forkRoot, hd]
    intro b hb
    cases hb
  | some d =>
    cases hmod : m.distroMods.lookup (p.dist d).name with
    | none =>
      simp only [Marshal.forkRoot, hd, hmod]
      intro b hb
      cases hb
      exact .inr (.inl (by simp [Dict.hasKey, hmod]))
    | some distMod =>
      obtain ⟨q, hq⟩ : ∃ q, m.forkRoot distID r p = .ok q := by simp [Marshal.forkRoot, hd, hmod]
      obtain ⟨u, rfl, hu⟩ := forkRoot_eq_ok hd hq
      rw [hq]
      have hkey : DistroKey m (forkName (p.dist d).name distID) := ⟨_, distID, by simp [hmod], hid, rfl⟩
      rcases hu with ⟨rfl, hfound⟩ | ⟨hnew, w, rfl⟩
      · obtain ⟨y, hy⟩ := Dict.hasKey_iff.mp hfound
        refine h.setBase hy ((h.fresh _ y hy).elim (fun hold => ?_) .inl) r
        exact absurd (.inl hkey) (hnames _ y hold)
      · refine Whole.setBase (y := p.next + 1) (h.enter (addDistro_extends w _ p) rfl (Nat.le_succ _)
          (Nat.lt_succ_self _) fun b hb => ?_) (Dict.lookup_concat_self hnew) (.inl ?_) r
        · rw [cfg_addDistro] at hb
          cases hb
        · exact Nat.le_succ_of_le h.next

theorem forkRecursive_looks (h : Whole p₀ p) (hid : IsID m distID) (hk : p.cfgs.lookup k = some r)
    (hr : Firm p₀ r) : Looks m (Whole p₀) (m.forkRecursive distID n r p) := by
  induction n generalizing p r k with
  | zero => trivial
  | succ n ih =>
    rw [Marshal.forkRecursive]
    cases hbase : (p.cfg r).base with
    | none => exact forkRoot_looks hnames h hid
    | some base =>
      obtain ⟨b, hb, hfirm⟩ := h.closed k r base hk hr hbase
      simp only [hb]
      split
      · exact forkRoot_looks hnames h hid
      split
      · next hkey =>
        obtain ⟨y, hy⟩ := Dict.hasKey_iff.mp hkey
        refine h.setBase hy ?_ r
        -- Without an identifier, the name of the fork is that of the base.
        cases distID with
        | none => exact Option.some.inj (hb.symm.trans hy) ▸ hfirm
        | some id =>
          refine (h.fresh _ y hy).elim (fun hold => ?_) .inl
          exact absurd (.inr ⟨base, id, hid, rfl⟩) (hnames _ y hold)
      · next hkey =>
        obtain ⟨-, -, hle, hlt, distro, jobs, hlast⟩ := Pool.deepcopy_spec b p
        have hentered := enterFork_cfgs r b (forkName base distID) p
        have hnew : (p.enterFork r b (forkName base distID)).cfgs.lookup (forkName base distID) =
            some (p.deepcopy b).last := by
          rw [hentered, Dict.lookup_concat_self (Dict.lookup_of_not_hasKey hkey)]
        have hfork : Firm p₀ (p.deepcopy b).last := .inl (Nat.le_trans h.next hle)
        have hwhole : Whole p₀ (p.enterFork r b (forkName base distID)) := by
          refine h.enter (enterFork_extends r b _ p) hentered hle hlt fun c hc => ?_
          rw [enterFork_self, hlast] at hc
          exact h.closed base b c hb hfirm hc
        exact ih (hwhole.setBase hnew hfork r) hnew hfork

omit hnames in
theorem mergeOptsRecursive_looks (h : Whole p₀ p) {name : String} {distMod : DistroModule ω}
    (hmod : m.distroMods.lookup name = some distMod) (hk : p.cfgs.lookup k = some r) (hr : Firm p₀ r) :
    Looks m (fun _ => True) (p.mergeOptsRecursive distMod n r) := by
  induction n generalizing r k with
  | zero => trivial
  | succ n ih =>
    rw [Pool.mergeOptsRecursive]
    split
    · trivial
    cases hbase : (p.cfg r).base with
    | none =>
      cases hd : (p.cfg r).distro with
      | none =>
        intro b hb
        cases hb
        exact .inl rfl
      | some d => trivial
    | some base =>
      obtain ⟨b, hb, hfirm⟩ := h.closed k r base hk hr hbase
      simp only [hb]
      refine (ih hb hfirm).bind fun baseOpts _ => ?_
      cases hd : (p.cfg r).distro with
      | none => trivial
      | some d =>
        cases baseOpts with
        | none => trivial
        | some baseOpts =>
          cases hmerge : distMod.mergeOpts baseOpts (p.dist d).opts with
          | ok opts => simp only [hmerge]; trivial
          | error e =>
            simp only [hmerge]
            rintro b rfl
            exact .inr (.inr ⟨name, distMod, _, _, hmod, hmerge⟩)

theorem forkDistro_looks (h : Whole p₀ p) (hk : p.cfgs.lookup k = some r) (hr : Firm p₀ r) :
    Looks m (Whole p₀) (m.forkDistro n r p) := by
  rw [Marshal.forkDistro]
  cases hd : (p.cfg r).distro with
  | none =>
    intro b hb
    cases hb
    exact .inl rfl
  | some d =>
    cases hmod : m.distroMods.lookup (p.dist d).name with
    | none =>
      simp only [hmod]
      intro b hb
      cases hb
      exact .inr (.inl (by simp [Dict.hasKey, hmod]))
    | some distMod =>
      simp only [hmod]
      refine (mergeOptsRecursive_looks h hmod hk hr).bind fun opts _ => ?_
      cases opts with
      | none =>
        intro b hb
        cases hb
      | some opts => exact forkRecursive_looks hnames (h.setOpts d opts) (isID_hashOpts hmod opts) hk hr

/-- If the chains of all configurations that set 'distro' are complete, and no name is like that of a fork, the loop
    does not fail for a base that is missing. -/
theorem forkAll_looks (halloc : ∀ k x, p₀.cfgs.lookup k = some x → x < p₀.next)
    (hcomplete : ∀ k x, p₀.cfgs.lookup k = some x → (p₀.cfg x).distro ≠ none → p₀.Complete x) (n : Nat) :
    Looks m (Whole p₀) (m.forkAll n p₀) := by
  refine Looks.foldlM (whole_self halloc) fun s k hk hs => ?_
  obtain ⟨r, hr⟩ := Dict.hasKey_iff.mp (Dict.mem_keys_iff.mp hk)
  have hr' := hs.lookup k r hr
  simp only [Marshal.forkStep, hr']
  split
  · exact hs
  next d hd =>
  split
  · refine forkDistro_looks hnames hs hr' (.inr (hcomplete k r hr ?_))
    rw [← hs.distro r (halloc k r hr), hd]
    simp
  · exact hs

end

end FireMarshal
