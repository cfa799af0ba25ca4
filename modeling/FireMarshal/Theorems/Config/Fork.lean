import FireMarshal.Theorems.Config.Distros
import FireMarshal.Theorems.Config.ForkBases
import FireMarshal.Theorems.Config.ForkOpts

/-! The fork loop gives every configuration the options that are written along its chain of bases exactly if no
configuration is forked after a base of it that has a base itself. -/

namespace FireMarshal

open Pool (Extends)

variable {ω : Type} {m : Marshal ω} {p₀ p q t : Pool ω} {r : Ref} {distID : Option String}

/-! ### Termination of `forkRecursive` -/

/-- From `a` on, the chain of bases ends at a distro in less than `n` steps, and does not come to `c`. -/
inductive Ends (p : Pool ω) (c : Ref) : Nat → Ref → Prop where
  | root {n : Nat} {a : Ref} (h : p.AtRoot a) : Ends p c (n + 1) a
  | step {n : Nat} {a b : Ref} (hb : p.Based a b) (hbd : (p.cfg b).isDistro = false) (hne : b ≠ c)
      (h : Ends p c n b) : Ends p c (n + 1) a

theorem Ends.setOpts {c a d : Ref} {n : Nat} {opts : ω} (h : Ends p c n a) : Ends (p.setOpts d opts) c n a := by
  induction h with
  | root h => exact .root h
  | step hb hbd hne _ ih => exact .step hb hbd hne ih

/-- The call on `r`, which is `c` or a new object, returns in a pool `q` that came from `p`, if `r` has the base
    that `a` has in `p`. -/
theorem forkRecursive_total {keys : List String} (hfresh : Fresh m keys) (hid : IsID m distID) (hp : Sound m keys p)
    {c a d : Ref} {n : Nat} {k ka : String} (he : Ends p c n a) (hka : p.cfgs.lookup ka = some a)
    (hext : Extends c p q) (hs : Sound m keys q) (hk : q.cfgs.lookup k = some r) (hr : (q.cfg r).isDistro = false)
    (hd : (q.cfg r).distro = some d) (hbase : (q.cfg r).base = (p.cfg a).base) (hrc : r = c ∨ p.next ≤ r) :
    ∃ t, m.forkRecursive distID n r q = .ok t := by
  induction he generalizing q r k ka with
  | @root n a hroot =>
    have hroot' : q.AtRoot r := by
      rw [Pool.AtRoot, hbase]
      refine hroot.imp_right ?_
      rintro ⟨b, x, hb, hx, hxd⟩
      exact ⟨b, x, hb, hext.lookup b x hx, by rw [hext.isDistro (hp.alloc b x hx), hxd]⟩
    obtain ⟨t, ht, -⟩ := forkRoot_spec hs hid hk hr hd hroot'
    refine ⟨t, ?_⟩
    rw [Marshal.forkRecursive]
    rcases hroot' with hnone | ⟨b, x, hb, hx, hxd⟩
    · simp only [hnone, ht]
    · simp only [hb, hx, hxd, if_true, ht]
  | @step n a b hb hbd hne h ih =>
    obtain ⟨base, hab, hkb⟩ := hb
    have hblt := hp.alloc base b hkb
    have hb' := hext.lookup base b hkb
    have hbd' : (q.cfg b).isDistro = false := (hext.isDistro hblt).trans hbd
    rw [Marshal.forkRecursive]
    simp only [hbase, hab, hb', hbd', Bool.false_eq_true, if_false]
    split
    · exact ⟨_, rfl⟩
    · next hkey =>
      have hname := (hs.forkKey hb' hbd').forkName hid
      obtain ⟨hsound, hext', -, hlookup, hle, hcbase, hcd, hcdist, -⟩ :=
        forkBase_spec hs hk hr hd hb' hbd' hname hfresh (Dict.lookup_of_not_hasKey hkey)
      have hnew : p.next ≤ (q.deepcopy b).last := Nat.le_trans hext.next hle
      refine ih hkb ?_ hsound hlookup hcd hcdist ?_ (.inr hnew)
      · rcases hrc with rfl | hr
        · exact hext.trans hext'
        · exact hext.trans_new hext' hr
      · rw [hcbase, hext.cfg b hblt hne]

section Run

variable {done : List Ref} {k : String}

theorem ends_of_untouched (hw : Forkable m p₀) (ht : Track m p₀ done p) {c a : Ref} {n : Nat}
    (hka : p₀.cfgs.lookup k = some a) (hu : Untouched p₀ done p a) (hca : Relation.ReflTransGen p₀.Based c a)
    (hn : Acyclic.height p₀.Based p₀.cfgs.vals a < n) : Ends p c n a := by
  induction n generalizing a k with
  | zero => cases hn
  | succ n ih =>
    by_cases hroot : p.AtRoot a
    · exact .root hroot
    have hbase : (p₀.cfg a).base ≠ none := by
      intro hnone
      by_cases hdone : a ∈ done ∧ (p₀.cfg a).distro ≠ none
      · exact hroot ((ht.root k a hka hdone.1 hdone.2).mp hnone)
      · have hwait : a ∉ done ∨ (p₀.cfg a).distro = none := by
          by_contra hno
          obtain ⟨hmem, hd⟩ := not_or.mp hno
          exact hdone ⟨not_not.mp hmem, hd⟩
        exact hroot ((ht.atRoot_waiting hw hka hwait).mpr hnone)
    obtain ⟨base, hab⟩ := Option.ne_none_iff_exists'.mp hbase
    obtain ⟨b, hkb⟩ := hw.bases k a base hka hab
    have hb : p₀.Based a b := ⟨base, hab, hkb⟩
    have hcfg := (hu.waits ht hka hbase).2
    have hlt := hw.acyclic.height_lt hb (Dict.mem_vals_of_lookup hkb)
    refine .step ⟨base, by rw [hcfg, hab], ht.lookup base b hkb⟩ (ht.isDistro hw hkb) ?_
      (ih hkb (hu.base hb) (hca.tail hb) (by omega))
    rintro rfl
    exact hw.acyclic b (Relation.TransGen.tail' hca hb)

/-! ### Steps of a run in a good order -/

/-- The options of the configurations that were forked are the fold of what is written along their chains, and
    their base is named by the identifier of these options. -/
def Correct (m : Marshal ω) (p₀ t : Pool ω) (r : Ref) : Prop :=
  ∀ d, (p₀.cfg r).distro = some d → ∃ distMod first rest opts,
    m.distroMods.lookup (p₀.dist d).name = some distMod ∧ Written p₀ r (first :: rest) ∧
      rest.foldlM distMod.mergeOpts first = .ok opts ∧ (t.dist d).opts = opts ∧
      (t.cfg r).base = some (forkName ((p₀.cfg r).base.getD (p₀.dist d).name) (distMod.hashOpts opts))

def Mergeable (m : Marshal ω) (p : Pool ω) : Prop :=
  ∀ k r d, p.cfgs.lookup k = some r → (p.cfg r).distro = some d → ∃ distMod first rest opts,
    m.distroMods.lookup (p.dist d).name = some distMod ∧ Written p r (first :: rest) ∧
      rest.foldlM distMod.mergeOpts first = .ok opts

/-- A configuration that sets 'distro' and has a base comes after all configurations that set 'distro' and are
    based on it, directly or not. -/
def DescendantsFirst (p : Pool ω) : Prop :=
  ∀ before k c after, p.cfgs = before ++ (k, c) :: after → (p.cfg c).distro ≠ none →
    ∀ a ∈ Dict.vals before, (p.cfg a).distro ≠ none → (p.cfg a).base ≠ none → ¬ Relation.TransGen p.Based c a

def JobsEntered (p : Pool ω) : Prop :=
  ∀ x, p.Referenced x → (p.cfg x).distro ≠ none → ∃ k, p.cfgs.lookup k = some x

theorem Correct.root_opts (h : Correct m p₀ p r) {d : Ref}
    (hbase : (p₀.cfg r).base = none) (hd : (p₀.cfg r).distro = some d) : (p.dist d).opts = (p₀.dist d).opts := by
  obtain ⟨distMod, first, rest, opts, -, hwritten, hfold, hopts, -⟩ := h d hd
  rw [hopts]
  cases merged_of_written hwritten hfold with
  | root _ hd' =>
    rw [hd] at hd'
    cases hd'
    rfl
  | pass hb | merge hb =>
    obtain ⟨base, hbase', -⟩ := hb
    rw [hbase] at hbase'
    cases hbase'

theorem Correct.congr {p' : Pool ω} (h : Correct m p₀ p r) (hcfg : p'.cfg r = p.cfg r)
    (hdist : ∀ d, (p₀.cfg r).distro = some d → p'.dist d = p.dist d) : Correct m p₀ p' r := by
  intro d hd
  obtain ⟨distMod, first, rest, opts, hmod, hwritten, hfold, hopts, hbase⟩ := h d hd
  exact ⟨distMod, first, rest, opts, hmod, hwritten, hfold, by rw [hdist d hd, hopts], by rw [hcfg, hbase]⟩

theorem forkStep_correct (hw : Forkable m p₀) (hm : Mergeable m p₀) (ht : Track m p₀ done p)
    (hk : p₀.cfgs.lookup k = some r) (hr : r ∉ done) (hdone : ∀ k a, p₀.cfgs.lookup k = some a → a ∈ done →
      Correct m p₀ p a)
    (hfree : (p₀.cfg r).distro ≠ none → ∀ a ∈ done, (p₀.cfg a).distro ≠ none → (p₀.cfg a).base ≠ none →
      ¬ Relation.TransGen p₀.Based r a)
    {n : Nat} (hn : p₀.cfgs.vals.length + 1 < n) :
    ∃ q, m.forkStep n p k = .ok q ∧ Correct m p₀ q r := by
  have hheight := Acyclic.height_le p₀.Based p₀.cfgs.vals r
  cases hd : (p₀.cfg r).distro with
  | none =>
    refine ⟨p, ?_, fun d hd' => ?_⟩
    · simp only [Marshal.forkStep, ht.lookup k r hk, ht.distro hk, hd]
    · rw [hd] at hd'
      cases hd'
  | some d =>
    obtain ⟨distMod, first, rest, opts, hmod, hwritten, hfold⟩ := hm k r d hk hd
    have hdist := ht.raw k r d hk hd hr
    have hu : Untouched p₀ done p r := by
      refine ⟨fun a ha hadone had => ?_, fun k' a d' hka hbase had => ?_⟩
      · by_contra habase
        rcases Relation.reflTransGen_iff_eq_or_transGen.mp ha with rfl | htrans
        · exact hr hadone
        · exact hfree (by simp [hd]) a hadone had habase htrans
      · by_cases hadone : a ∈ done
        · exact (hdone k' a hka hadone).root_opts hbase had
        · rw [ht.raw k' a d' hka had hadone]
    have hmerge := mergeOptsRecursive_merged hw ht (merged_of_written hwritten hfold) hk hu
      (n := n) (by omega)
    have hid : IsID m (distMod.hashOpts opts) := isID_hashOpts hmod opts
    have hends := ends_of_untouched hw ht hk hu .refl (n := n) (by omega)
    have hplain : (p.cfg r).isDistro = false := ht.isDistro hw hk
    have hd' : (p.cfg r).distro = some d := (ht.distro hk).trans hd
    obtain ⟨q, hq⟩ := forkRecursive_total hw.fresh hid (ht.sound.setOpts d opts) hends.setOpts (ht.lookup k r hk)
      (.refl r _) (ht.sound.setOpts d opts) (ht.lookup k r hk) hplain hd' rfl (.inl rfl)
    have hfork : m.forkStep n p k = .ok q := by
      simp only [Marshal.forkStep, ht.lookup k r hk, hd', hdist, (hw.dist r d (.entry hk) hd).2.1, if_true,
        Marshal.forkDistro, hmod, hmerge, Except.ok_bind, hq]
    refine ⟨q, hfork, fun d' hd'' => ?_⟩
    obtain ⟨distMod', opts', hmod', hmerge', hopts, hbase⟩ := (ht.step hw hk hr hfork).2.merged d' hd''
    rw [hd] at hd''
    cases hd''
    rw [hmod] at hmod'
    cases hmod'
    rw [hmerge] at hmerge'
    cases hmerge'
    exact ⟨distMod, first, rest, opts, hmod, hwritten, hfold, hopts, hbase⟩

theorem forkRun_correct (hw : Forkable m p₀) (hm : Mergeable m p₀) (hfirst : DescendantsFirst p₀)
    (before : Dict String Ref) {cfgs : Dict String Ref} (hcfgs : p₀.cfgs = before ++ cfgs)
    (ht : Track m p₀ (Dict.vals before) p)
    (hdone : ∀ k a, p₀.cfgs.lookup k = some a → a ∈ Dict.vals before → Correct m p₀ p a) {n : Nat}
    (hn : p₀.cfgs.vals.length + 1 < n) :
    ∃ t, cfgs.keys.foldlM (m.forkStep n) p = .ok t ∧
      ∀ k a, p₀.cfgs.lookup k = some a → Correct m p₀ t a := by
  induction cfgs generalizing before p with
  | nil =>
    refine ⟨p, rfl, fun k a hk => hdone k a hk ?_⟩
    have hmem := Dict.mem_vals_of_lookup hk
    rwa [hcfgs, List.append_nil] at hmem
  | cons c cfgs ih =>
    obtain ⟨k, r⟩ := c
    have hk : p₀.cfgs.lookup k = some r := (Dict.lookup_eq_some hw.keys).mpr (by rw [hcfgs]; simp)
    have hr : r ∉ Dict.vals before := by
      have hnodup := hw.vals
      rw [hcfgs, Dict.vals_append] at hnodup
      exact Dict.not_mem_of_nodup hnodup
    have hfree : (p₀.cfg r).distro ≠ none → ∀ a ∈ Dict.vals before, (p₀.cfg a).distro ≠ none →
        (p₀.cfg a).base ≠ none → ¬ Relation.TransGen p₀.Based r a := hfirst before k r cfgs hcfgs
    obtain ⟨q, hq, hcorrect⟩ := forkStep_correct hw hm ht hk hr hdone hfree hn
    obtain ⟨ht', hstep⟩ := ht.step hw hk hr hq
    have hvals : Dict.vals (before ++ [(k, r)]) = Dict.vals before ++ [r] := by simp [Dict.vals]
    obtain ⟨t, hrest, hall⟩ := ih (before ++ [(k, r)]) (by rw [hcfgs]; simp) (by rwa [hvals])
      (fun k' a hk' ha => by
        rw [hvals] at ha
        by_cases har : a = r
        · subst har
          exact hcorrect
        · have hmem := (List.mem_append.mp ha).resolve_right fun h => har (List.mem_singleton.mp h)
          obtain ⟨hcfg, hdist⟩ := hstep.others k' a hk' har
          exact (hdone k' a hk' hmem).congr hcfg hdist)
    refine ⟨t, ?_, hall⟩
    rw [Dict.keys, List.map_cons, List.foldlM_cons, hq]
    exact hrest

/-! ### Runs in any order -/

theorem Positive.step {size : ω → Nat} (hw : Forkable m p₀) (ht : Track m p₀ done p) (ha : Additive m p₀ size)
    (hpos : Positive size p) (hk : p₀.cfgs.lookup k = some r) (hr : r ∉ done) {n : Nat}
    (h : m.forkStep n p k = .ok q) : Positive size q := by
  simp only [Marshal.forkStep, ht.lookup k r hk, ht.distro hk] at h
  cases hd : (p₀.cfg r).distro with
  | none =>
    simp only [hd] at h
    cases h
    exact hpos
  | some d =>
    simp only [hd, ht.raw k r d hk hd hr, (hw.dist r d (.entry hk) hd).2.1, if_true] at h
    have hplain : (p.cfg r).isDistro = false := ht.isDistro hw hk
    have hd' : (p.cfg r).distro = some d := (ht.distro hk).trans hd
    obtain ⟨distMod, opts, hmod, hmerge, hrec⟩ := forkDistro_eq_ok hd' h
    have hid : IsID m (distMod.hashOpts opts) := isID_hashOpts hmod opts
    have hs := ht.sound.setOpts d opts
    have hforked := forkRecursive_spec hw.fresh hid hs (ht.lookup k r hk) hplain hd' hrec
    rw [ht.raw k r d hk hd hr] at hmod
    obtain ⟨v, hv, hvpos⟩ :=
      mergeOptsRecursive_pos ha ⟨r, d, .entry hk, hd, hmod⟩ ht.sound hpos (ht.lookup k r hk) hplain hmerge
    cases hv
    intro d' hd''
    obtain ⟨k', x, hk', hx, hxd⟩ := hforked.dists d' hd''
    rw [hforked.ext.dist d' (hs.dist k' x d' hk' hx hxd).1]
    by_cases hdd : d' = d
    · subst hdd
      rw [dist_setOpts]
      exact hvpos
    · rw [dist_setOpts_of_ne hdd]
      exact hpos d' ⟨k', x, hk', hx, hxd⟩

theorem Positive.run {size : ω → Nat} (hw : Forkable m p₀) (ha : Additive m p₀ size) {n : Nat}
    {cfgs : Dict String Ref} (ht : Track m p₀ done p) (hpos : Positive size p)
    (hcfgs : ∀ c ∈ cfgs, p₀.cfgs.lookup c.1 = some c.2) (hnodup : (done ++ cfgs.vals).Nodup)
    (h : cfgs.keys.foldlM (m.forkStep n) p = .ok t) : Positive size t := by
  have hrun := Dict.foldlM_keys_inv (R := fun done q => Track m p₀ done q ∧ Positive size q) ⟨ht, hpos⟩
    (fun later s c hc u hs hnew hu => ?_) hnodup h
  · exact hrun.2
  · have hk := hcfgs c hc
    exact ⟨(hs.1.step hw hk hnew hu).1, hs.2.step hw hs.1 ha hk hnew hu⟩

end Run

theorem descendantsFirst_of_correct (hw : Forkable m p₀) {size : ω → Nat} (ha : Additive m p₀ size)
    (hpos : Positive size p₀) {n : Nat} (h : m.forkAll n p₀ = .ok t)
    (hall : ∀ k r, p₀.cfgs.lookup k = some r → Correct m p₀ t r) : DescendantsFirst p₀ := by
  intro before k c after hcfgs hc a hadone had habase hca
  have hentry : ∀ x ∈ p₀.cfgs, p₀.cfgs.lookup x.1 = some x.2 := fun x hx => (Dict.lookup_eq_some hw.keys).mpr hx
  have hk : p₀.cfgs.lookup k = some c := hentry (k, c) (by rw [hcfgs]; simp)
  have hnodup := hw.vals
  rw [hcfgs, Dict.vals_append] at hnodup
  -- The run up to `c`, the step on `c`, and the rest of the run.
  rw [Marshal.forkAll, hcfgs, Dict.keys, List.map_append, List.foldlM_append, List.map_cons] at h
  obtain ⟨p, hbefore, h⟩ := Except.bind_ok h
  obtain ⟨q, hstep, hafter⟩ := Except.foldlM_cons_ok h
  have hmemb : ∀ x ∈ before, p₀.cfgs.lookup x.1 = some x.2 := fun x hx => hentry x (by rw [hcfgs]; simp [hx])
  have hmema : ∀ x ∈ after, p₀.cfgs.lookup x.1 = some x.2 := fun x hx => hentry x (by rw [hcfgs]; simp [hx])
  have hnodupb : ([] ++ Dict.vals before).Nodup := (List.nodup_append.mp hnodup).1
  obtain ⟨ht, -⟩ := hw.track.run hw hmemb hnodupb hbefore
  have hposp := hpos.run hw ha hw.track hmemb hnodupb hbefore
  rw [List.nil_append] at ht
  have hcdone : c ∉ Dict.vals before := Dict.not_mem_of_nodup hnodup
  obtain ⟨ht', hstepped⟩ := ht.step hw hk hcdone hstep
  have hnodupa : (Dict.vals before ++ [c] ++ Dict.vals after).Nodup := by
    rwa [Dict.vals_cons, List.append_cons] at hnodup
  obtain ⟨-, hkeep⟩ := ht'.run hw hmema hnodupa hafter
  -- What was forked before `c` was final then.
  have hmerged : AllMerged m p₀ (Dict.vals before) p := by
    intro k' a' d' hk' ha' hd'
    obtain ⟨distMod, first, rest, opts, hmod, hwritten, hfold, hopts, -⟩ := hall k' a' hk' d' hd'
    refine ⟨distMod, ⟨a', d', .entry hk', hd', hmod⟩, ?_⟩
    have hne : a' ≠ c := fun heq => hcdone (heq ▸ ha')
    rw [← (hstepped.others k' a' hk' hne).2 d' hd', ← (hkeep k' a' hk' (List.mem_append_left _ ha')).2 d' hd', hopts]
    exact merged_of_written hwritten hfold
  obtain ⟨d, hd⟩ := Option.ne_none_iff_exists'.mp hc
  obtain ⟨distMod, opts, hmod, hmerge, hopts, -⟩ := hstepped.merged d hd
  obtain ⟨distMod', first, rest, opts', hmod', hwritten, hfold, hopts', -⟩ := hall k c hk d hd
  rw [hmod] at hmod'
  cases hmod'
  rw [(hkeep k c hk (by simp)).2 d hd, hopts] at hopts'
  cases hopts'
  exact Nat.lt_irrefl _ (size_lt_of_above hw ht ha hposp hmerged ⟨c, d, .entry hk, hd, hmod⟩ hk (.inl hcdone) hca hadone had
    habase (merged_of_written hwritten hfold) hmerge)

theorem jobsEntered_of_correct (hw : Forkable m p₀) {size : ω → Nat} (ha : Additive m p₀ size)
    (hpos : Positive size p₀) {n : Nat} (h : m.forkAll n p₀ = .ok t)
    (hall : ∀ x, p₀.Referenced x → Correct m p₀ t x) : JobsEntered p₀ := by
  intro x hx hset
  by_contra hno
  obtain ⟨d, hd⟩ := Option.ne_none_iff_exists'.mp hset
  obtain ⟨hcfg, hdist⟩ := forkAll_others (fun k y hy => hw.alloc y (.entry hy)) h
  have hdist := hdist d (hw.dist x d hx hd).1 fun k y hy hyd => by
    obtain rfl := hw.own y x d (.entry hy) hx hyd hd
    exact hno ⟨k, hy⟩
  obtain ⟨distMod, first, rest, opts, hmod, hwritten, hfold, hopts, hbase⟩ := hall x hx d hd
  have hused : Used m p₀ distMod := ⟨x, d, hx, hd, hmod⟩
  rw [hdist] at hopts
  cases merged_of_written hwritten hfold with
  | root hnone =>
    rw [hcfg x (hw.alloc x hx) (not_exists.mp hno), hnone] at hbase
    cases hbase
  | pass _ hnone =>
    rw [hd] at hnone
    cases hnone
  | @merge _ b d' _ w hb hd' hmerged hv =>
    rw [hd] at hd'
    cases hd'
    obtain ⟨base, -, hkb⟩ := hb
    have hsize := ha distMod hused _ _ _ hv
    rw [← hopts] at hsize
    exact absurd hsize (Nat.ne_of_lt (Nat.lt_add_of_pos_left (hmerged.pos hw ha hused hpos hkb)))

/-- In a good order, every configuration and every job that sets 'distro' has the left fold of the options along its
    chain of bases, with its base named by their identifier; in any other order it does not, if options have a size
    that adds up. -/
theorem forkAll_correct_iff (hw : Forkable m p₀) :
    (DescendantsFirst p₀ ∧ Mergeable m p₀ ∧ JobsEntered p₀ →
      ∃ n t, m.forkAll n p₀ = .ok t ∧ ∀ x, p₀.Referenced x → Correct m p₀ t x) ∧
    ∀ size, Additive m p₀ size → Positive size p₀ →
      ((∃ n t, m.forkAll n p₀ = .ok t ∧ ∀ x, p₀.Referenced x → Correct m p₀ t x) ↔
        DescendantsFirst p₀ ∧ Mergeable m p₀ ∧ JobsEntered p₀) := by
  have hrun : DescendantsFirst p₀ ∧ Mergeable m p₀ ∧ JobsEntered p₀ →
      ∃ n t, m.forkAll n p₀ = .ok t ∧ ∀ x, p₀.Referenced x → Correct m p₀ t x := by
    rintro ⟨hfirst, hm, hjobs⟩
    obtain ⟨t, ht, hall⟩ := forkRun_correct hw hm hfirst [] rfl hw.track (fun _ _ _ h => by cases h)
      (Nat.lt_succ_self _)
    refine ⟨_, t, ht, fun x hx d hd => ?_⟩
    obtain ⟨k, hk⟩ := hjobs x hx (by simp [hd])
    exact hall k x hk d hd
  refine ⟨hrun, fun size ha hpos => ⟨?_, hrun⟩⟩
  rintro ⟨n, t, h, hall⟩
  refine ⟨descendantsFirst_of_correct hw ha hpos h fun k r hk => hall r (.entry hk), fun k r d hk hd => ?_,
    jobsEntered_of_correct hw ha hpos h hall⟩
  obtain ⟨distMod, first, rest, opts, hmod, hwritten, hfold, -⟩ := hall r (.entry hk) d hd
  exact ⟨distMod, first, rest, opts, hmod, hwritten, hfold⟩

/-! ### A chain of three -/

/-- 'c.yaml' is based on 'a.yaml', which is based on 'br-base.json', and so is the job of 'c.yaml'. Each adds a
    fragment. -/
def chainPool (cfgs : Dict String Ref) : Pool DistroOpts where
  cfgs
  cfg
    | 0 => { name := "br-base", outDir := "images/br-base", distro := some 4 }
    | 1 => { name := "a", outDir := "images/a", base := some "br-base.json", distro := some 5 }
    | 2 => { name := "c-log", outDir := "images/c-log", base := some "br-base.json", distro := some 6 }
    | 3 => { name := "c", outDir := "images/c", base := some "a.yaml", distro := some 7, jobs := [2] }
    | _ => { name := "", outDir := "" }
  dist
    | 4 => { name := "br", opts := { configs := some ["base.cfg"], environment := some [] }, leaf := true }
    | 5 => { name := "br", opts := { configs := some ["a.cfg"], environment := some [] }, leaf := true }
    | 6 => { name := "br", opts := { configs := some ["log.cfg"], environment := some [] }, leaf := true }
    | _ => { name := "br", opts := { configs := some ["c.cfg"], environment := some [] }, leaf := true }
  initialized _ := false
  next := 8

def childFirst : Dict String Ref := [("c.yaml", 3), ("c-log", 2), ("a.yaml", 1), ("br-base.json", 0)]

def parentFirst : Dict String Ref := [("a.yaml", 1), ("c.yaml", 3), ("c-log", 2), ("br-base.json", 0)]

theorem parentFirst_perm : parentFirst.Perm childFirst := by decide

section Chain

variable {cfgs : Dict String Ref} {k : String} {r x y : Ref}

theorem chain_lookup (hp : cfgs.Perm childFirst) (k : String) : cfgs.lookup k = childFirst.lookup k :=
  Dict.lookup_perm (by decide) hp k

theorem chain_cases (hp : cfgs.Perm childFirst) (hk : cfgs.lookup k = some r) :
    k = "c.yaml" ∧ r = 3 ∨ k = "c-log" ∧ r = 2 ∨ k = "a.yaml" ∧ r = 1 ∨ k = "br-base.json" ∧ r = 0 := by
  rw [chain_lookup hp, Dict.lookup_eq_some (by decide)] at hk
  simpa [childFirst] using hk

theorem chain_entered (hp : cfgs.Perm childFirst) (hx : (chainPool cfgs).Referenced x) : ∃ k, cfgs.lookup k = some x := by
  obtain ⟨k, r, hk, rfl | hx⟩ := hx
  · exact ⟨k, hk⟩
  · refine ⟨"c-log", (chain_lookup hp _).trans ?_⟩
    rcases chain_cases hp hk with ⟨-, rfl⟩ | ⟨-, rfl⟩ | ⟨-, rfl⟩ | ⟨-, rfl⟩
    · rw [List.mem_singleton.mp hx]
      rfl
    · cases hx
    · cases hx
    · cases hx

theorem chain_referenced (hp : cfgs.Perm childFirst) (hx : (chainPool cfgs).Referenced x) : x < 4 := by
  obtain ⟨k, hk⟩ := chain_entered hp hx
  rcases chain_cases hp hk with ⟨-, rfl⟩ | ⟨-, rfl⟩ | ⟨-, rfl⟩ | ⟨-, rfl⟩ <;> decide

theorem chain_distro (hx : x < 4) {d : Ref} (hd : ((chainPool cfgs).cfg x).distro = some d) : d = x + 4 := by
  match x, hx with
  | 0, _ | 1, _ | 2, _ | 3, _ => exact (Option.some.inj hd).symm
  | x + 4, hx => exact absurd hx (Nat.not_lt.mpr (Nat.le_add_left 4 x))

theorem chain_based (hp : cfgs.Perm childFirst) (h : (chainPool cfgs).Based x y) : y < x := by
  obtain ⟨b, hb, hy⟩ := h
  have hy' := (chain_lookup hp b).symm.trans hy
  match x with
  | 0 => cases hb
  | 1 | 2 | 3 =>
    cases hb
    obtain rfl := Option.some.inj hy'
    decide
  | _ + 4 => cases hb

theorem chain_fresh (hp : cfgs.Perm childFirst) : Fresh sampleMarshal (Dict.keys cfgs) := by
  refine fresh_of_stem fun k hk d hd => ?_
  rw [Dict.keys, (hp.map Prod.fst).mem_iff] at hk
  exact (by decide : ∀ k ∈ childFirst.keys, ∀ d ∈ ["br", "fedora", "ubuntu", "bare"], stem k ≠ stem d) k hk d
    (mem_of_distroMods hd)

theorem chain_forkable (hp : cfgs.Perm childFirst) : Forkable sampleMarshal (chainPool cfgs) where
  keys := (hp.map Prod.fst).nodup_iff.mpr (by decide)
  vals := (hp.map Prod.snd).nodup_iff.mpr (by decide)
  alloc x hx := Nat.lt_trans (chain_referenced hp hx) (by decide : 4 < 8)
  plain k r hk := by rcases chain_cases hp hk with ⟨-, rfl⟩ | ⟨-, rfl⟩ | ⟨-, rfl⟩ | ⟨-, rfl⟩ <;> rfl
  bases k r b hk hb := by
    refine ⟨((childFirst).lookup b).getD 0, (chain_lookup hp b).trans ?_⟩
    rcases chain_cases hp hk with ⟨-, rfl⟩ | ⟨-, rfl⟩ | ⟨-, rfl⟩ | ⟨-, rfl⟩ <;> cases hb <;> rfl
  acyclic := acyclic_of_lt id fun x y h => chain_based hp h
  dist x d hx hd := by
    have hlt := chain_referenced hp hx
    obtain rfl := chain_distro hlt hd
    refine ⟨Nat.add_lt_add_right hlt 4, ?_⟩
    match x, hlt with
    | 0, _ | 1, _ | 2, _ | 3, _ => exact ⟨rfl, rfl⟩
    | x + 4, hlt => exact absurd hlt (Nat.not_lt.mpr (Nat.le_add_left 4 x))
  own x y d hx hy hd hd' := by
    have heq := (chain_distro (chain_referenced hp hx) hd).symm.trans (chain_distro (chain_referenced hp hy) hd')
    exact Nat.add_right_cancel heq
  fresh := chain_fresh hp

theorem chain_additive (hp : cfgs.Perm childFirst) : Additive sampleMarshal (chainPool cfgs) fragmentCount := by
  rintro distMod ⟨x, d, hx, hd, hmod⟩ base new v hv
  have hbr : distMod = brModule sampleHost := by
    have hlt := chain_referenced hp hx
    obtain rfl := chain_distro hlt hd
    match x, hlt with
    | 0, _ | 1, _ | 2, _ | 3, _ => exact (Option.some.inj hmod).symm
    | x + 4, hlt => exact absurd hlt (Nat.not_lt.mpr (Nat.le_add_left 4 x))
  subst hbr
  exact fragmentCount_mergeOpts hv

theorem chain_positive (hp : cfgs.Perm childFirst) : Positive fragmentCount (chainPool cfgs) := by
  rintro d ⟨k, r, hk, -, hd⟩
  rcases chain_cases hp hk with ⟨-, rfl⟩ | ⟨-, rfl⟩ | ⟨-, rfl⟩ | ⟨-, rfl⟩ <;> cases hd <;> exact Nat.one_pos

theorem chain_mergeable (hp : cfgs.Perm childFirst) : Mergeable sampleMarshal (chainPool cfgs) := by
  have hroot : Written (chainPool cfgs) 0 [((chainPool cfgs).dist 4).opts] := .root rfl rfl
  have hbase : ∀ {x}, ((chainPool cfgs).cfg x).base = some "br-base.json" → Written (chainPool cfgs) x
      ([((chainPool cfgs).dist 4).opts] ++ ownOpts (chainPool cfgs) x) := fun hx =>
    .step ⟨"br-base.json", hx, chain_lookup hp _⟩ hroot
  have hc : Written (chainPool cfgs) 3
      ([((chainPool cfgs).dist 4).opts] ++ ownOpts (chainPool cfgs) 1 ++ ownOpts (chainPool cfgs) 3) :=
    .step ⟨"a.yaml", rfl, chain_lookup hp _⟩ (hbase rfl)
  intro k r d hk hd
  rcases chain_cases hp hk with ⟨-, rfl⟩ | ⟨-, rfl⟩ | ⟨-, rfl⟩ | ⟨-, rfl⟩ <;> cases hd
  · exact ⟨brModule sampleHost, _, _, _, rfl, hc, rfl⟩
  · exact ⟨brModule sampleHost, _, _, _, rfl, hbase rfl, rfl⟩
  · exact ⟨brModule sampleHost, _, _, _, rfl, hbase rfl, rfl⟩
  · exact ⟨brModule sampleHost, _, _, _, rfl, hroot, rfl⟩

end Chain

theorem forkAll_correct_iff_chain :
    (∃ n t, sampleMarshal.forkAll n (chainPool childFirst) = .ok t ∧
      ∀ x, (chainPool childFirst).Referenced x → Correct sampleMarshal (chainPool childFirst) t x) ∧
    ¬ ∃ n t, sampleMarshal.forkAll n (chainPool parentFirst) = .ok t ∧
      ∀ x, (chainPool parentFirst).Referenced x → Correct sampleMarshal (chainPool parentFirst) t x := by
  have hlt : ∀ {x y : Ref}, Relation.TransGen (chainPool childFirst).Based x y → y < x := by
    intro x y h
    induction h with
    | single h => exact chain_based (List.Perm.refl _) h
    | tail _ h ih => exact Nat.lt_trans (chain_based (List.Perm.refl _) h) ih
  constructor
  · refine (forkAll_correct_iff (chain_forkable (List.Perm.refl _))).1
      ⟨fun before k c after hcfgs _ a ha _ _ hca => ?_, chain_mergeable (List.Perm.refl _),
        fun x hx _ => chain_entered (List.Perm.refl _) hx⟩
    -- The references fall along the list, as they do along a chain.
    have hdesc : (Dict.vals childFirst).Pairwise (· > ·) := by decide
    rw [show childFirst = before ++ (k, c) :: after from hcfgs, Dict.vals, List.map_append] at hdesc
    exact Nat.lt_asymm (hlt hca) ((List.pairwise_append.mp hdesc).2.2 a ha c (by simp))
  · intro h
    obtain ⟨hfirst, -⟩ := ((forkAll_correct_iff (chain_forkable parentFirst_perm)).2 fragmentCount
      (chain_additive parentFirst_perm) (chain_positive parentFirst_perm)).mp h
    refine hfirst [("a.yaml", 1)] "c.yaml" 3 [("c-log", 2), ("br-base.json", 0)] rfl (by simp [chainPool]) 1 (by decide)
      (by simp [chainPool]) (by simp [chainPool]) (.single ⟨"a.yaml", rfl, rfl⟩)

def chainResult (cfgs : Dict String Ref) : Option (List String × Option String) :=
  match sampleMarshal.forkAll 6 (chainPool cfgs) with
  | .ok t => some ((t.dist 7).opts.configs.getD [], (t.cfg 3).base)
  | .error _ => none

theorem forkAll_repeats_fragments :
    Forkable sampleMarshal (chainPool parentFirst) ∧
      chainResult parentFirst =
        some (["base.cfg", "a.cfg", "base.cfg", "a.cfg", "c.cfg"], some "a.yaml.36ab") ∧
      chainResult childFirst = some (["base.cfg", "a.cfg", "c.cfg"], some "a.yaml.23ab") :=
  ⟨chain_forkable parentFirst_perm, by decide +kernel, by decide +kernel⟩

end FireMarshal
