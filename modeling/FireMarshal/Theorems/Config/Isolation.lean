import FireMarshal.Theorems.Config.Fork
import FireMarshal.Theorems.Config.ForkLineage

/-! Whether configurations with different options of a distro get bases of their own.

Two configurations meet in a base exactly if their options have the same identifier. -/

namespace FireMarshal

/-- The dictionary 'distro' of the nearest configuration along the chain of bases that sets it. -/
inductive Inherits {ω : Type} (p : Pool ω) : Ref → Ref → Prop where
  | own {r d : Ref} (hd : (p.cfg r).distro = some d) : Inherits p r d
  | base {r b d : Ref} (hd : (p.cfg r).distro = none) (hb : p.Based r b) (h : Inherits p b d) : Inherits p r d

/-- There is a configuration that both are based on, directly or not, or that is one of them. -/
def Pool.Meet {ω : Type} (p : Pool ω) (r r' : Ref) : Prop :=
  ∃ x, Relation.ReflTransGen p.Based r x ∧ Relation.ReflTransGen p.Based r' x

section
variable {ω : Type} {m : Marshal ω} {keys : List String} {p₀ p t : Pool ω} {r d x : Ref} {distro id k : String}

theorem Inherits.unique {d' : Ref} (h : Inherits p r d) (h' : Inherits p r d') : d = d' := by
  induction h with
  | own hd =>
    cases h' with
    | own hd' => exact Option.some.inj (hd.symm.trans hd')
    | base hd' => simp [hd] at hd'
  | base hd hb _ ih =>
    cases h' with
    | own hd' => simp [hd] at hd'
    | base _ hb' h' => exact ih (hb.unique hb' ▸ h')

/-! ### Along a chain -/

theorem Lineage.reach (hs : Sound m keys p) (hnames : OneName p) (hkey : DistroKey m (forkName distro (some id)))
    (h : Lineage distro id p r) (hx : Relation.ReflTransGen p.Based r x) :
    x = r ∨ ∃ b, p.cfgs.lookup (forkName b (some id)) = some x := by
  induction h with
  | @distro r y hbase hy =>
    rcases hx.cases_head with rfl | ⟨z, hz, hx⟩
    · exact .inl rfl
    obtain rfl := hz.unique ⟨_, hbase, hy⟩
    refine .inr ⟨distro, ?_⟩
    rcases hx.cases_head with rfl | ⟨w, ⟨b, hb, -⟩, -⟩
    · exact hy
    · rw [hnames.distros _ z hy (hs.distro _ z hy hkey)] at hb
      cases hb
  | @fork r y b hbase hy _ _ ih =>
    rcases hx.cases_head with rfl | ⟨z, hz, hx⟩
    · exact .inl rfl
    obtain rfl := hz.unique ⟨_, hbase, hy⟩
    rcases ih hx with rfl | hfork
    · exact .inr ⟨b, hy⟩
    · exact .inr hfork

theorem Lineage.distro_reached (h : Lineage distro id p r) :
    ∃ y, p.cfgs.lookup (forkName distro (some id)) = some y ∧ Relation.ReflTransGen p.Based r y := by
  induction h with
  | distro hbase hy => exact ⟨_, hy, .single ⟨_, hbase, hy⟩⟩
  | fork hbase hy _ _ ih =>
    obtain ⟨z, hz, hreach⟩ := ih
    exact ⟨z, hz, .head ⟨_, hbase, hy⟩ hreach⟩

/-! ### After the loop -/

structure HasID (m : Marshal ω) (p₀ t : Pool ω) (r d : Ref) (id : String) : Prop where
  loaded : p₀.Referenced r
  inherits : Inherits p₀ r d
  hash : ∃ distMod, m.distroMods.lookup (p₀.dist d).name = some distMod ∧ distMod.hashOpts (t.dist d).opts = some id

theorem HasID.isID (h : HasID m p₀ t r d id) : IsID m (some id) := by
  obtain ⟨distMod, hmod, hid⟩ := h.hash
  exact hid ▸ isID_hashOpts hmod _

theorem cfg_of_no_distro (hw : Forkable m p₀) (hf : Forking m distro p₀ p₀.cfgs.vals t) {n : Nat}
    (hrun : m.forkAll n p₀ = .ok t) (hr : p₀.Referenced r) (hd : (p₀.cfg r).distro = none) : t.cfg r = p₀.cfg r := by
  by_cases hentry : ∃ k, p₀.cfgs.lookup k = some r
  · obtain ⟨k, hk⟩ := hentry
    exact hf.track.waits k r hk (.inr hd)
  · exact (forkAll_others (fun _ y hy => hw.alloc y (.entry hy)) hrun).1 r (hw.alloc r hr) (not_exists.mp hentry)

section
variable (hw : Forkable m p₀) (hids : Identified m distro p₀.cfgs.keys)
  (hf : Forking m distro p₀ p₀.cfgs.vals t) (hjobs : JobsEntered p₀)
  (hkept : ∀ x, p₀.Referenced x → (p₀.cfg x).distro = none → t.cfg x = p₀.cfg x)
include hids hf hjobs hkept

theorem reach_distro (h : HasID m p₀ t r d id) :
    ∃ y, t.cfgs.lookup (forkName distro (some id)) = some y ∧ Relation.ReflTransGen t.Based r y := by
  obtain ⟨hloaded, hinherits, distMod, hmod, hid⟩ := h
  induction hinherits with
  | @own r d hd =>
    obtain ⟨k, hk⟩ := hjobs r hloaded (by simp [hd])
    exact (hf.lineage hids hk (Dict.mem_vals_of_lookup hk) hd hmod hid).distro_reached
  | @base r b d hd hb _ ih =>
    obtain ⟨base, hbase, hkb⟩ := hb
    obtain ⟨y, hy, hreach⟩ := ih (.entry hkb) hmod hid
    refine ⟨y, hy, .head ⟨base, ?_, hf.track.lookup base b hkb⟩ hreach⟩
    rw [hkept r hloaded hd, hbase]

theorem reach_cases (h : HasID m p₀ t r d id) (hx : Relation.ReflTransGen t.Based r x) :
    (p₀.Referenced x ∧ Inherits p₀ x d) ∨ ∃ b, t.cfgs.lookup (forkName b (some id)) = some x := by
  have hkey := hids.distroKey h.isID
  obtain ⟨hloaded, hinherits, distMod, hmod, hid⟩ := h
  induction hinherits with
  | @own r d hd =>
    obtain ⟨k, hk⟩ := hjobs r hloaded (by simp [hd])
    have hline := hf.lineage hids hk (Dict.mem_vals_of_lookup hk) hd hmod hid
    rcases hline.reach hf.track.sound hf.lines.toOneName hkey hx with rfl | hfork
    · exact .inl ⟨hloaded, .own hd⟩
    · exact .inr hfork
  | @base r b d hd hb hinherits ih =>
    rcases hx.cases_head with rfl | ⟨z, hz, hx⟩
    · exact .inl ⟨hloaded, .base hd hb hinherits⟩
    obtain ⟨base, hbase, hkb⟩ := hb
    have hb' : t.Based r b := ⟨base, by rw [hkept r hloaded hd, hbase], hf.track.lookup base b hkb⟩
    obtain rfl := hz.unique hb'
    exact ih hx (.entry hkb) hmod hid

include hw

theorem meet_iff {r' d' : Ref} {id' : String} (h : HasID m p₀ t r d id) (h' : HasID m p₀ t r' d' id') :
    t.Meet r r' ↔ id = id' := by
  constructor
  · rintro ⟨x, hx, hx'⟩
    have hold : ∀ {b id}, IsID m (some id) → t.cfgs.lookup (forkName b (some id)) = some x → ¬ p₀.Referenced x :=
      fun hid hb hloaded => absurd (hw.alloc x hloaded) (Nat.not_lt.mpr (hf.lines.fork_new hids hid hb))
    rcases reach_cases hids hf hjobs hkept h hx with ⟨hloaded, hd⟩ | ⟨b, hb⟩
    · rcases reach_cases hids hf hjobs hkept h' hx' with ⟨-, hd'⟩ | ⟨b, hb⟩
      · obtain rfl := hd.unique hd'
        obtain ⟨distMod, hmod, hid⟩ := h.hash
        obtain ⟨distMod', hmod', hid'⟩ := h'.hash
        obtain rfl := Option.some.inj (hmod.symm.trans hmod')
        exact Option.some.inj (hid.symm.trans hid')
      · exact absurd hloaded (hold h'.isID hb)
    · rcases reach_cases hids hf hjobs hkept h' hx' with ⟨hloaded, -⟩ | ⟨b', hb'⟩
      · exact absurd hloaded (hold h.isID hb)
      · exact (forkName_inj (hids.length _ _ h.isID h'.isID) (hf.lines.inj _ _ x hb hb')).2
  · rintro rfl
    obtain ⟨y, hy, hreach⟩ := reach_distro hids hf hjobs hkept h
    obtain ⟨y', hy', hreach'⟩ := reach_distro hids hf hjobs hkept h'
    obtain rfl := Option.some.inj (hy.symm.trans hy')
    exact ⟨y, hreach, hreach'⟩

end
end

/-! ### Buildroot -/

def br.Agree (h : Host) (opts opts' : DistroOpts) : Prop :=
  (opts.configs.getD []).map h.read = (opts'.configs.getD []).map h.read ∧
    ∀ k, (opts.environment.getD []).lookup k = (opts'.environment.getD []).lookup k

/-- A loaded configuration, or a job of one, that is based on Buildroot, with the dictionary `d`. -/
structure OnBuildroot (p : Pool DistroOpts) (r d : Ref) : Prop where
  loaded : p.Referenced r
  inherits : Inherits p r d
  name : (p.dist d).name = "br"

/-- Configurations with different options never meet in a base. -/
def Isolated (h : Host) (p₀ t : Pool DistroOpts) : Prop :=
  ∀ r d r' d', OnBuildroot p₀ r d → OnBuildroot p₀ r' d' → ¬ br.Agree h (t.dist d).opts (t.dist d').opts → ¬ t.Meet r r'

section
variable {h : Host} {imageDir : String} {p₀ t : Pool DistroOpts} {r d : Ref} {keys : List String} {id : String}

theorem identified_distroMods (hhex : ∀ s, 4 ≤ (h.hexdigest s).length)
    (hkeys : ∀ k id, IsID ⟨distroMods h, imageDir⟩ (some id) → forkName k (some id) ∉ keys) :
    Identified ⟨distroMods h, imageDir⟩ "br" keys where
  only name distMod opts id hmod hid := (hashOpts_distroMods hmod hid).1
  length id id' hid hid' := by
    obtain ⟨name, distMod, opts, hmod, hopts⟩ := hid id rfl
    obtain ⟨name', distMod', opts', hmod', hopts'⟩ := hid' id' rfl
    rw [br.length_of_hashOpts hhex (hashOpts_distroMods hmod hopts).2,
      br.length_of_hashOpts hhex (hashOpts_distroMods hmod' hopts').2]
  keys := hkeys

theorem OnBuildroot.hasID {distro : String} (hf : Forking ⟨distroMods h, imageDir⟩ distro p₀ p₀.cfgs.vals t)
    (hinit : ∀ k r d, p₀.cfgs.lookup k = some r → (p₀.cfg r).distro = some d → (p₀.dist d).name = "br" →
      (p₀.dist d).opts.configs.isSome = true) (hjobs : JobsEntered p₀) (hr : OnBuildroot p₀ r d) :
    ∃ id, br.hashOpts h (t.dist d).opts = some id ∧ HasID ⟨distroMods h, imageDir⟩ p₀ t r d id := by
  obtain ⟨hloaded, hinherits, hname⟩ := hr
  have hmod : (distroMods h).lookup (p₀.dist d).name = some (brModule h) := by
    rw [hname]
    rfl
  suffices hopts : (t.dist d).opts.configs.isSome = true by
    obtain ⟨id, hid⟩ := br.hashOpts_of_configs (h := h) hopts
    exact ⟨id, hid, hloaded, hinherits, _, hmod, hid⟩
  induction hinherits with
  | @own r d hd =>
    obtain ⟨k, hk⟩ := hjobs r hloaded (by simp [hd])
    obtain ⟨distMod, hmod', -, hown⟩ := hf.named k r hk (Dict.mem_vals_of_lookup hk) d hd
    obtain rfl := Option.some.inj (hmod.symm.trans hmod')
    rcases hown with hown | ⟨base, hmerge⟩
    · rw [hown]
      exact hinit k r d hk hd hname
    · exact br.configs_of_mergeOpts hmerge
  | base _ hb _ ih =>
    obtain ⟨base, -, hkb⟩ := hb
    exact ih (.entry hkb) hname hmod

/-- Configurations and jobs with different options of Buildroot get distro workloads and forked bases of their own
    if and only if the digests of these options differ in their first four digits. -/
theorem forkAll_isolates_iff {n : Nat} (hhex : ∀ s, 4 ≤ (h.hexdigest s).length)
    (hw : Forkable ⟨distroMods h, imageDir⟩ p₀)
    (hkeys : ∀ k id, IsID ⟨distroMods h, imageDir⟩ (some id) → forkName k (some id) ∉ p₀.cfgs.keys)
    (hinit : ∀ k r d, p₀.cfgs.lookup k = some r → (p₀.cfg r).distro = some d → (p₀.dist d).name = "br" →
      (p₀.dist d).opts.configs.isSome = true)
    (hjobs : JobsEntered p₀) (hrun : Marshal.forkAll ⟨distroMods h, imageDir⟩ n p₀ = .ok t) :
    Isolated h p₀ t ↔ ∀ r d r' d', OnBuildroot p₀ r d → OnBuildroot p₀ r' d' →
      ¬ br.Agree h (t.dist d).opts (t.dist d').opts →
      br.hashOpts h (t.dist d).opts ≠ br.hashOpts h (t.dist d').opts := by
  have hids := identified_distroMods hhex hkeys
  have hf := forking_of_run hw hids hrun
  have hmeet : ∀ r d r' d', OnBuildroot p₀ r d → OnBuildroot p₀ r' d' →
      (t.Meet r r' ↔ br.hashOpts h (t.dist d).opts = br.hashOpts h (t.dist d').opts) := by
    intro r d r' d' hr hr'
    obtain ⟨id, hid, hhas⟩ := hr.hasID hf hinit hjobs
    obtain ⟨id', hid', hhas'⟩ := hr'.hasID hf hinit hjobs
    rw [meet_iff hw hids hf hjobs (fun x hx hd => cfg_of_no_distro hw hf hrun hx hd) hhas hhas', hid, hid', Option.some.injEq]
  constructor
  · intro hisolated r d r' d' hr hr' hdiffer heq
    exact hisolated r d r' d' hr hr' hdiffer ((hmeet r d r' d' hr hr').mpr heq)
  · intro hdigests r d r' d' hr hr' hdiffer hshared
    exact hdigests r d r' d' hr hr' hdiffer ((hmeet r d r' d' hr hr').mp hshared)

end

/-! ### Two configurations with fragments -/

def jobsHost (hexdigest : String → String) : Host :=
  { sampleHost with
    hexdigest
    read := fun path =>
      if path = "/net/jlevel.cfg" then "BR2_JLEVEL=1" else if path = "/net/rest.cfg" then "0" else "BR2_JLEVEL=10" }

def twoPool (fragments fragments' : List String) : Pool DistroOpts where
  cfgs := [("net-lab.yaml", 0), ("net_lab.yaml", 1)]
  cfg
    | 0 => { name := "net-lab", outDir := "images/net-lab", distro := some 2 }
    | 1 => { name := "net_lab", outDir := "images/net_lab", distro := some 3 }
    | _ => { name := "", outDir := "" }
  dist
    | 2 =>
      { name := "br", leaf := true
        opts := { configs := some fragments, environment := some [("NET_LAB_PATH", "/net")] } }
    | _ =>
      { name := "br", leaf := true
        opts := { configs := some fragments', environment := some [("NET_LAB_PATH", "/net")] } }
  initialized _ := false
  next := 4

section
variable {h : Host} {imageDir : String} {fragments fragments' : List String}

theorem two_cases {k : String} {r : Ref} (hk : (twoPool fragments fragments').cfgs.lookup k = some r) :
    k = "net-lab.yaml" ∧ r = 0 ∨ k = "net_lab.yaml" ∧ r = 1 := by
  rw [Dict.lookup_eq_some (by simp [Dict.keys, twoPool])] at hk
  simpa [twoPool] using hk

theorem two_entered {x : Ref} (hx : (twoPool fragments fragments').Referenced x) :
    ∃ k, (twoPool fragments fragments').cfgs.lookup k = some x := by
  obtain ⟨k, r, hk, rfl | hx⟩ := hx
  · exact ⟨k, hk⟩
  · rcases two_cases hk with ⟨-, rfl⟩ | ⟨-, rfl⟩ <;> cases hx

theorem two_fresh : Fresh ⟨distroMods h, imageDir⟩ (Dict.keys (twoPool fragments fragments').cfgs) := by
  refine fresh_of_stem fun k hk d hd => ?_
  exact (by decide : ∀ k ∈ ["net-lab.yaml", "net_lab.yaml"], ∀ d ∈ ["br", "fedora", "ubuntu", "bare"], stem k ≠ stem d)
    k hk d (mem_of_distroMods hd)

theorem two_base (r : Ref) : ((twoPool fragments fragments').cfg r).base = none := by
  match r with
  | 0 | 1 | _ + 2 => rfl

theorem two_forkable : Forkable ⟨distroMods h, imageDir⟩ (twoPool fragments fragments') where
  keys := by simp [Dict.keys, twoPool]
  vals := by simp [Dict.vals, twoPool]
  alloc x hx := by
    obtain ⟨k, hk⟩ := two_entered hx
    rcases two_cases hk with ⟨-, rfl⟩ | ⟨-, rfl⟩ <;> simp [twoPool]
  plain k r hk := by rcases two_cases hk with ⟨-, rfl⟩ | ⟨-, rfl⟩ <;> rfl
  bases k r b hk hb := by rcases two_cases hk with ⟨-, rfl⟩ | ⟨-, rfl⟩ <;> cases hb
  acyclic := by
    refine acyclic_of_lt id fun x y hxy => ?_
    obtain ⟨b, hb, -⟩ := hxy
    rw [two_base] at hb
    cases hb
  dist x d hx hd := by
    obtain ⟨k, hk⟩ := two_entered hx
    rcases two_cases hk with ⟨-, rfl⟩ | ⟨-, rfl⟩ <;> cases hd <;> exact ⟨by simp [twoPool], rfl, rfl⟩
  own x y d hx hy hd hd' := by
    obtain ⟨k, hk⟩ := two_entered hx
    obtain ⟨k', hk'⟩ := two_entered hy
    rcases two_cases hk with ⟨-, rfl⟩ | ⟨-, rfl⟩ <;> rcases two_cases hk' with ⟨-, rfl⟩ | ⟨-, rfl⟩ <;>
      cases hd <;> cases hd' <;> rfl
  fresh := two_fresh

theorem two_onBuildroot {r d : Ref} (hr : OnBuildroot (twoPool fragments fragments') r d) :
    r = 0 ∧ d = 2 ∨ r = 1 ∧ d = 3 := by
  obtain ⟨hloaded, hinherits, -⟩ := hr
  obtain ⟨k, hk⟩ := two_entered hloaded
  cases hinherits with
  | own hd => rcases two_cases hk with ⟨-, rfl⟩ | ⟨-, rfl⟩ <;> cases hd <;> simp
  | base _ hb =>
    obtain ⟨base, hbase, -⟩ := hb
    rw [two_base] at hbase
    cases hbase

theorem two_run (h : Host) (imageDir : String) (fragments fragments' : List String) :
    ∃ n t, Marshal.forkAll ⟨distroMods h, imageDir⟩ n (twoPool fragments fragments') = .ok t ∧
    ∀ k r d, (twoPool fragments fragments').cfgs.lookup k = some r →
      ((twoPool fragments fragments').cfg r).distro = some d →
      (t.dist d).opts = ((twoPool fragments fragments').dist d).opts ∧
      ∃ y, (t.cfg r).base = some (forkName "br" (br.hashOpts h ((twoPool fragments fragments').dist d).opts)) ∧
        t.cfgs.lookup (forkName "br" (br.hashOpts h ((twoPool fragments fragments').dist d).opts)) = some y := by
  have hw : Forkable ⟨distroMods h, imageDir⟩ (twoPool fragments fragments') := two_forkable
  have hmergeable : Mergeable ⟨distroMods h, imageDir⟩ (twoPool fragments fragments') := by
    intro k r d hk hd
    rcases two_cases hk with ⟨-, rfl⟩ | ⟨-, rfl⟩ <;> cases hd <;>
      exact ⟨brModule h, _, [], _, rfl, .root rfl rfl, rfl⟩
  have hfirst : DescendantsFirst (twoPool fragments fragments') :=
    fun _ _ _ _ _ _ a _ _ ha => absurd (two_base a) ha
  obtain ⟨t, hrun, hcorrect⟩ := forkRun_correct hw hmergeable hfirst [] rfl hw.track (fun _ _ _ h => by cases h)
    (Nat.lt_succ_self _)
  refine ⟨_, t, hrun, fun k r d hk hd => ?_⟩
  obtain ⟨ht, -⟩ := hw.track.run hw (fun c hc => (Dict.lookup_eq_some hw.keys).mpr hc) hw.vals hrun
  have hopts := (hcorrect k r hk).root_opts (two_base r) hd
  obtain ⟨distMod, _, _, _, hmod, -, -, rfl, hbase⟩ := hcorrect k r hk d hd
  obtain ⟨hname, rfl⟩ : ((twoPool fragments fragments').dist d).name = "br" ∧ distMod = brModule h := by
    rcases two_cases hk with ⟨-, rfl⟩ | ⟨-, rfl⟩ <;> cases hd <;> exact ⟨rfl, (Option.some.inj hmod).symm⟩
  rw [two_base, hname, hopts] at hbase
  obtain ⟨y, hy⟩ := ht.sound.bases k r _ (ht.lookup k r hk) hbase
  exact ⟨hopts, y, hbase, hy⟩

end

def tellingHost : Host := jobsHost fun s => if s = "BR2_JLEVEL=10NET_LAB_PATHclean" then "00aa" else "00bb"

theorem forkAll_isolates_two : ∃ n t,
    Marshal.forkAll ⟨distroMods tellingHost, "images"⟩ n (twoPool ["/net/jlevel.cfg"] ["/net/ten.cfg"]) = .ok t ∧
      Isolated tellingHost (twoPool ["/net/jlevel.cfg"] ["/net/ten.cfg"]) t := by
  obtain ⟨n, t, hrun, hkept⟩ := two_run tellingHost "images" ["/net/jlevel.cfg"] ["/net/ten.cfg"]
  have hhex : ∀ s, tellingHost.hexdigest s = "00aa" ∨ tellingHost.hexdigest s = "00bb" := by
    intro s
    simp only [tellingHost, jobsHost]
    split
    · exact .inl rfl
    · exact .inr rfl
  refine ⟨n, t, hrun, (forkAll_isolates_iff (fun s => ?_) two_forkable (fun k id hid hk => ?_) (fun k r d hk hd _ => ?_)
    (fun x hx _ => two_entered hx) hrun).mpr ?_⟩
  · rcases hhex s with hs | hs <;> rw [hs] <;> decide
  · -- Names of configurations do not end in digits.
    obtain ⟨name, distMod, opts, hmod, hopts⟩ := hid id rfl
    have hcut : id = "00aa" ∨ id = "00bb" := by
      obtain ⟨s, rfl⟩ := br.digest_of_hashOpts (hashOpts_distroMods hmod hopts).2
      rcases hhex s with hs | hs
      · exact .inl (by rw [hs]; decide)
      · exact .inr (by rw [hs]; decide)
    have hyaml : ∃ k', forkName k (some id) = forkName k' (some "yaml") := by
      simp only [twoPool, Dict.keys, List.map_cons, List.map_nil, List.mem_cons, List.not_mem_nil, or_false] at hk
      rcases hk with hk | hk
      · exact ⟨"net-lab", hk.trans (by decide)⟩
      · exact ⟨"net_lab", hk.trans (by decide)⟩
    obtain ⟨k', heq⟩ := hyaml
    rcases hcut with rfl | rfl <;> exact absurd (forkName_inj (by decide) heq).2 (by decide)
  · rcases two_cases hk with ⟨-, rfl⟩ | ⟨-, rfl⟩ <;> cases hd <;> rfl
  · intro r d r' d' hr hr' hdiffer
    rcases two_onBuildroot hr with ⟨rfl, rfl⟩ | ⟨rfl, rfl⟩ <;> rcases two_onBuildroot hr' with ⟨rfl, rfl⟩ | ⟨rfl, rfl⟩
    · exact absurd ⟨rfl, fun _ => rfl⟩ hdiffer
    · rw [(hkept "net-lab.yaml" 0 2 rfl rfl).1, (hkept "net_lab.yaml" 1 3 rfl rfl).1]
      decide +kernel
    · rw [(hkept "net-lab.yaml" 0 2 rfl rfl).1, (hkept "net_lab.yaml" 1 3 rfl rfl).1]
      decide +kernel
    · exact absurd ⟨rfl, fun _ => rfl⟩ hdiffer

/-- The fragments of the first, one after the other, are the fragment of the second. -/
def joinedPool : Pool DistroOpts := twoPool ["/net/jlevel.cfg", "/net/rest.cfg"] ["/net/ten.cfg"]

/-- Fragments are not separated in what is hashed: whatever the digests are, both get the same distro workload. -/
theorem forkAll_shares_workload :
    (∀ hexdigest, Forkable ⟨distroMods (jobsHost hexdigest), "images"⟩ joinedPool) ∧
    ∀ hexdigest, ∃ n t, Marshal.forkAll ⟨distroMods (jobsHost hexdigest), "images"⟩ n joinedPool = .ok t ∧
      ¬ Isolated (jobsHost hexdigest) joinedPool t := by
  refine ⟨fun _ => two_forkable, fun hexdigest => ?_⟩
  obtain ⟨n, t, hrun, hkept⟩ :=
    two_run (jobsHost hexdigest) "images" ["/net/jlevel.cfg", "/net/rest.cfg"] ["/net/ten.cfg"]
  refine ⟨n, t, hrun, fun hisolated => ?_⟩
  obtain ⟨hopts, y, hbase, hy⟩ := hkept "net-lab.yaml" 0 2 rfl rfl
  obtain ⟨hopts', y', hbase', hy'⟩ := hkept "net_lab.yaml" 1 3 rfl rfl
  have hfragments : "BR2_JLEVEL=1" ++ "0" = "BR2_JLEVEL=10" := by decide
  have hhash : br.hashOpts (jobsHost hexdigest)
        ((twoPool ["/net/jlevel.cfg", "/net/rest.cfg"] ["/net/ten.cfg"]).dist 2).opts =
      br.hashOpts (jobsHost hexdigest)
        ((twoPool ["/net/jlevel.cfg", "/net/rest.cfg"] ["/net/ten.cfg"]).dist 3).opts := by
    simp [br.hashOpts, twoPool, jobsHost, String.join, hfragments]
  rw [hhash] at hbase hy
  obtain rfl := Option.some.inj (hy.symm.trans hy')
  refine hisolated 0 2 1 3 ⟨.entry (k := "net-lab.yaml") rfl, .own rfl, rfl⟩
    ⟨.entry (k := "net_lab.yaml") rfl, .own rfl, rfl⟩ ?_
    ⟨y, .single ⟨_, hbase, hy⟩, .single ⟨_, hbase', hy⟩⟩
  rw [hopts, hopts']
  rintro ⟨hread, -⟩
  simp [twoPool] at hread

end FireMarshal
