import FireMarshal.Theorems.Config.Distros
import FireMarshal.Theorems.Config.ForkBases
import FireMarshal.Theorems.Config.Inherit
import FireMarshal.Theorems.Config.Load

/-! Whether the base of each configuration and job is loaded, or made by a fork, before it is looked up. -/

namespace FireMarshal

open Pool (Extends)

variable {ω : Type} {env : LoadEnv ω} {m : Marshal ω} {searchPaths : List String} {configNames : List ConfigName}
  {p q : Pool ω} {r x : Ref} {n : Nat} {k b : String}

/-! ### Dictionaries 'distro' -/

structure Pool.Own (p : Pool ω) : Prop where
  alloc : ∀ x, ∀ d ∈ (p.cfg x).distro, d < p.next
  inj : ∀ x y, ∀ d ∈ (p.cfg x).distro, d ∈ (p.cfg y).distro → x = y

namespace Pool.Own

theorem update {c : Config} (h : p.Own) (hcfg : q.cfg = Function.update p.cfg r c) (hnext : p.next ≤ q.next)
    (hc : ∀ d ∈ c.distro, p.next ≤ d ∧ d < q.next) : q.Own := by
  constructor
  · intro x d hd
    rw [hcfg] at hd
    by_cases hx : x = r
    · subst hx
      rw [Function.update_self] at hd
      exact (hc d hd).2
    · rw [Function.update_of_ne hx] at hd
      exact Nat.lt_of_lt_of_le (h.alloc x d hd) hnext
  · intro x y d hx hy
    rw [hcfg] at hx hy
    by_cases hxr : x = r <;> by_cases hyr : y = r
    · rw [hxr, hyr]
    · subst hxr
      rw [Function.update_self] at hx
      rw [Function.update_of_ne hyr] at hy
      exact absurd (h.alloc y d hy) (Nat.not_lt.mpr (hc d hx).1)
    · subst hyr
      rw [Function.update_self] at hy
      rw [Function.update_of_ne hxr] at hx
      exact absurd (h.alloc x d hx) (Nat.not_lt.mpr (hc d hy).1)
    · rw [Function.update_of_ne hxr] at hx
      rw [Function.update_of_ne hyr] at hy
      exact h.inj x y d hx hy

theorem newNode (h : p.Own) (node : ConfigNode ω) (jobs : List Ref) : (p.newNode node jobs).Own := by
  unfold Pool.newNode
  split
  · exact h.update rfl (Nat.le_succ _) nofun
  · refine h.update (r := p.next + 1) rfl (Nat.le_succ_of_le (Nat.le_succ _)) fun d hd => ?_
    cases hd
    exact ⟨Nat.le_refl _, Nat.lt_succ_of_lt (Nat.lt_succ_self _)⟩

theorem newConfig (h : p.Own) (c : Parsed ω) : (p.newConfig c).Own := by
  have hjobs : ∀ (nodes : List (ConfigNode ω)) {p : Pool ω}, p.Own → (p.newJobs nodes).2.Own := by
    intro nodes
    induction nodes with
    | nil => exact fun h => h
    | cons node nodes ih => exact fun h => ih (h.newNode node [])
  exact (hjobs _ h).newNode _ _

theorem setKey (h : p.Own) (name : String) (r : Ref) : (p.setKey name r).Own := ⟨h.alloc, h.inj⟩

theorem setKeys (h : p.Own) (jobs : List Ref) : (jobs.foldl (fun q j => q.setKey (q.cfg j).name j) p).Own := by
  induction jobs generalizing p with
  | nil => exact h
  | cons j jobs ih => exact ih (h.setKey _ j)

theorem loadParents {cfgFile base : Option String} {currentName : String} (h : p.Own)
    (hq : env.loadParents m searchPaths cfgFile n currentName base p = .ok q) : q.Own := by
  induction n generalizing currentName base p with
  | zero => cases hq
  | succ n ih =>
    cases base with
    | none =>
      cases hq
      exact h
    | some b =>
      rcases loadParents_cases hq with ⟨rfl, -⟩ | ⟨path, c, -, -, -, -, hq⟩
      · exact h
      · exact ih ((h.newConfig c).setKey b _) hq

end Pool.Own

theorem loadConfigs_own [Inhabited ω] (h : env.loadConfigs m searchPaths n configNames = .ok p) : p.Own := by
  obtain ⟨s, hs, h⟩ := Except.bind_ok h
  have hown : s.2.Own := by
    refine Except.foldlM_inv (P := fun s => s.2.Own) ⟨nofun, nofun⟩ (fun s cfgName _ u hs hu => ?_) hs
    obtain ⟨path, c, -, -, rfl⟩ := loadExplicit_eq_ok hu
    exact ((hs.newConfig c).setKey _ _).setKeys _
  exact Except.foldlM_inv (P := Pool.Own) hown (fun s r _ u hs hu => hs.loadParents hu) h

theorem readDict_leaf {dict : ConfigDict ω} {node : ConfigNode ω} (h : env.readDict m dict = .ok node) :
    ∀ d ∈ node.distro, d.leaf = true := by
  obtain ⟨distro, hdistro, h⟩ := Except.bind_ok h
  obtain ⟨cfg, -, h⟩ := Except.bind_ok h
  cases h
  intro d hd
  obtain rfl := Option.mem_def.mp hd
  unfold LoadEnv.initDistro at hdistro
  split at hdistro
  · cases hdistro
  obtain ⟨workdir, -, hdistro⟩ := Except.bind_ok hdistro
  split at hdistro
  · obtain ⟨opts, -, hdistro⟩ := Except.bind_ok hdistro
    cases hdistro
    rfl
  · cases hdistro

theorem readConfig_leaf {path : FilePath} {c : Parsed ω} (h : env.readConfig m path = .ok c) :
    ∀ node ∈ c.main :: c.jobs.vals, ∀ d ∈ node.distro, d.leaf = true := by
  obtain ⟨file, -, h⟩ := Except.bind_ok h
  obtain ⟨main, hmain, h⟩ := Except.bind_ok h
  obtain ⟨jobs, hjobs, h⟩ := Except.bind_ok h
  cases h
  have hleaf : ∀ node ∈ Dict.vals jobs, ∀ d ∈ node.distro, d.leaf = true := by
    refine Except.foldlM_inv (P := fun jobs => ∀ node ∈ Dict.vals jobs, ∀ d ∈ node.distro, d.leaf = true)
      (fun node hnode => by cases hnode) (fun jobs job _ jobs' hall hu => ?_) hjobs
    obtain ⟨node, hnode, hu⟩ := Except.bind_ok hu
    cases hu
    intro node' hnode'
    rcases Dict.mem_vals_merge hnode' with hold | rfl
    · exact hall node' hold
    · exact readDict_leaf hnode
  exact List.forall_mem_cons.mpr ⟨readDict_leaf hmain, hleaf⟩

theorem Loads.leaf {cfgFile : Option String} {node : ConfigNode ω} {jobs : List (ConfigNode ω)}
    (h : Loads env m searchPaths configNames cfgFile k node jobs) : ∀ d ∈ node.distro, d.leaf = true := by
  cases h with
  | asked h =>
    cases h with
    | target _ _ hc => exact readConfig_leaf hc _ List.mem_cons_self
    | job _ _ hc hnode => exact readConfig_leaf hc _ (List.mem_cons_of_mem _ hnode)
  | base _ _ _ _ hc => exact readConfig_leaf hc _ List.mem_cons_self

/-! ### Names that get into the pool -/

section
variable (env : LoadEnv ω) (m : Marshal ω) (searchPaths : List String) (configNames : List ConfigName)

/-- The names of what is asked for, and of the bases that are named by all files that may be loaded under such a
    name. -/
inductive Keyed : String → Prop where
  | asked {k : String} {node : ConfigNode ω} {jobs : List (ConfigNode ω)}
      (h : Asked env m searchPaths configNames k node jobs) : Keyed k
  | base {k b : String} (hk : Keyed k)
      (hbase : ∀ cfgFile node jobs, Loads env m searchPaths configNames cfgFile k node jobs → node.cfg.base = some b)
      (hmod : m.distroMods.hasKey b = false) : Keyed b

/-- The name of a distro for which some configuration without a base has options that have no identifier: the workload
    that is made for these has the name of the distro. -/
def Made (b : String) : Prop :=
  ∃ k, Keyed env m searchPaths configNames k ∧
    ∀ cfgFile node jobs, Loads env m searchPaths configNames cfgFile k node jobs → node.cfg.base = none ∧
      ∃ d, node.distro = some d ∧ d.name = b ∧
        ∀ distMod, m.distroMods.lookup b = some distMod → distMod.hashOpts d.opts = none

def Above (k k' : String) : Prop :=
  Relation.ReflTransGen (fun k b => ∃ cfgFile node jobs,
    Loads env m searchPaths configNames cfgFile k node jobs ∧ node.cfg.base = some b) k k'

/-- What the files have to say so that all bases are there: a base that is a distro is made by a fork, but not for a
    configuration that is forked itself; and the base of a job is loaded for another reason, or is made. -/
structure Founded : Prop where
  names : ∀ cfgFile k node jobs, Loads env m searchPaths configNames cfgFile k node jobs → ¬ LikeFork m k
  distros : ∀ cfgFile k node jobs b, Loads env m searchPaths configNames cfgFile k node jobs →
    node.cfg.base = some b → m.distroMods.hasKey b = true → Made env m searchPaths configNames b
  forked : ∀ cfgFile k node jobs, Loads env m searchPaths configNames cfgFile k node jobs → node.distro ≠ none →
    ∀ k', Above env m searchPaths configNames k k' → m.distroMods.hasKey k' = false
  jobs : ∀ cfgFile k node jobs, Loads env m searchPaths configNames cfgFile k node jobs → ∀ job ∈ jobs,
    ∀ b, job.cfg.base = some b → Keyed env m searchPaths configNames b ∨ Made env m searchPaths configNames b

end

section
variable [Inhabited ω] (h : env.loadConfigs m searchPaths n configNames = .ok p)
include h

theorem loads_of_lookup (hk : p.cfgs.lookup k = some r) :
    ∃ cfgFile node jobs, Loads env m searchPaths configNames cfgFile k node jobs ∧ p.HoldsAll r node jobs := by
  rcases ((loadConfigs_spec h).2 k r hk).2 with ⟨node, jobs, hask, hholds⟩ | ⟨-, cfgFile, path, c, hbase, hholds⟩
  · exact ⟨_, node, jobs, .asked hask, hholds⟩
  · exact ⟨cfgFile, c.main, c.jobs.vals, hbase.loads, hholds⟩

theorem loadConfigs_alloc (hk : p.cfgs.lookup k = some r) : r < p.next := by
  obtain ⟨cfgFile, node, jobs, -, hholds⟩ := loads_of_lookup h hk
  exact hholds.alloc

theorem loadConfigs_allocated : p.Allocated := by
  rintro x ⟨k, r, hk, hx⟩
  obtain ⟨cfgFile, node, jobs, -, hholds⟩ := loads_of_lookup h hk
  rcases hx with rfl | hx
  · exact hholds.alloc
  · obtain ⟨job, -, hjob⟩ := hholds.jobs x hx
    exact hjob.alloc

theorem Keyed.hasKey (hk : Keyed env m searchPaths configNames k) : p.cfgs.hasKey k = true := by
  obtain ⟨hasked, hentry⟩ := loadConfigs_spec h
  induction hk with
  | asked hask => exact hasked _ _ _ hask
  | @base k b _ hbase hmod ih =>
    obtain ⟨r, hr⟩ := Dict.hasKey_iff.mp ih
    obtain ⟨cfgFile, node, jobs, hloads, hholds⟩ := loads_of_lookup h hr
    refine ((hentry k r hr).1 b (hholds.base.trans (hbase _ _ _ hloads))).resolve_right ?_
    simp [hmod]

theorem Made.hasKey (hb : Made env m searchPaths configNames b) {i : Nat} (hq : m.forkAll i p = .ok q) :
    q.cfgs.hasKey b = true := by
  obtain ⟨k, hk, hroot⟩ := hb
  obtain ⟨r, hr⟩ := Dict.hasKey_iff.mp (hk.hasKey h)
  obtain ⟨cfgFile, node, jobs, hloads, hholds⟩ := loads_of_lookup h hr
  obtain ⟨hbase, nd, hnd, rfl, hid⟩ := hroot _ _ _ hloads
  have hown := loadConfigs_own h
  -- The dictionary of the configuration in the pool is that of the file.
  obtain ⟨d, hd, rfl⟩ := Option.map_eq_some_iff.mp (hholds.dist.trans hnd)
  exact forkAll_made hr hholds.alloc (hholds.distAlloc d hd) (fun _ _ hx => loadConfigs_alloc h hx)
    (fun _ x _ hx => hown.inj x r d hx hd) (hholds.base.trans hbase) hd (hloads.leaf _ hnd) hid hq

variable (hf : Founded env m searchPaths configNames)
include hf

theorem Founded.bases (hx : p.Referenced x) (hb : (p.cfg x).base = some b) :
    p.cfgs.hasKey b = true ∨ Made env m searchPaths configNames b := by
  obtain ⟨k, r, hk, hx⟩ := hx
  obtain ⟨cfgFile, node, jobs, hloads, hholds⟩ := loads_of_lookup h hk
  rcases hx with rfl | hx
  · refine (((loadConfigs_spec h).2 k x hk).1 b hb).imp_right fun hmod => ?_
    exact hf.distros _ _ _ _ _ hloads (hholds.base.symm.trans hb) hmod
  · obtain ⟨job, hjob, hholds'⟩ := hholds.jobs x hx
    exact (hf.jobs _ _ _ _ hloads job hjob b (hholds'.base.symm.trans hb)).imp_left (·.hasKey h)

theorem Founded.complete (hk : p.cfgs.lookup k = some r) (hd : (p.cfg r).distro ≠ none) : p.Complete r := by
  obtain ⟨cfgFile, node, jobs, hloads, hholds⟩ := loads_of_lookup h hk
  have hnode : node.distro ≠ none := by
    rw [← hholds.dist]
    simpa using hd
  have hbase : ∀ {k' y b}, p.cfgs.lookup k' = some y → Above env m searchPaths configNames k k' →
      (p.cfg y).base = some b → Above env m searchPaths configNames k b := by
    intro k' y b hk' habove hb
    obtain ⟨cfgFile, node, jobs, hloads, hholds⟩ := loads_of_lookup h hk'
    exact habove.tail ⟨cfgFile, node, jobs, hloads, hholds.base.symm.trans hb⟩
  have hchain : ∀ y, Relation.ReflTransGen p.Based r y →
      ∃ k', p.cfgs.lookup k' = some y ∧ Above env m searchPaths configNames k k' := by
    intro y hy
    induction hy with
    | refl => exact ⟨k, hk, .refl⟩
    | @tail y z _ hyz ih =>
      obtain ⟨c, hc, hz⟩ := hyz
      obtain ⟨k', hk', habove⟩ := ih
      exact ⟨c, hz, hbase hk' habove hc⟩
  intro y hy b hb
  obtain ⟨k', hk', habove⟩ := hchain y hy
  refine (((loadConfigs_spec h).2 k' y hk').1 b hb).resolve_right ?_
  simp [hf.forked _ _ _ _ hloads hnode b (hbase hk' habove hb)]

end

/-- 'child.yaml' is based on 'parent.yaml', which has a job that is based on 'other.yaml'. 'plain.yaml' is based on a
    distro, for which 'bare-base.json' is the root, and 'net.yaml' adds a fragment to that of 'br-base.json'. -/
def sampleLoadEnv : LoadEnv DistroOpts where
  toInitEnv := sampleInitEnv
  iterdir dir :=
    .ok (if dir = "/wl" then
        ["child.yaml", "parent.yaml", "other.yaml", "plain.yaml", "bare-base.json", "net.yaml", "br-base.json"]
      else [])
  load file :=
    if file.name = "child.yaml" then .ok { main := { raw := { name := "child", base := some "parent.yaml" } } }
    else if file.name = "parent.yaml" then
      .ok
        { main := { raw := { name := "parent" } }
          jobs := [{ raw := { name := "job", base := some "other.yaml" } }] }
    else if file.name = "other.yaml" then .ok { main := { raw := { name := "other" } } }
    else if file.name = "plain.yaml" then .ok { main := { raw := { name := "plain", base := some "bare" } } }
    else if file.name = "bare-base.json" then
      .ok { main := { raw := { name := "bare-base" }, distro := some ("bare", {}) } }
    else if file.name = "net.yaml" then
      .ok
        { main :=
            { raw := { name := "net", base := some "br-base.json" }
              distro := some ("br", { configs := some ["net.cfg"] }) } }
    else .ok { main := { raw := { name := "br-base" }, distro := some ("br", { configs := some ["br.cfg"] }) } }
  initOpts distro name workdir opts := .ok (initOpts (fun _ value => value) distro name workdir opts)

def quietMarshal : Marshal DistroOpts := ⟨distroMods { sampleHost with hexdigest := fun _ => "00aa" }, "images"⟩

theorem quiet_isID {id : String} (h : IsID quietMarshal (some id)) : id = "00aa" := by
  obtain ⟨name, distMod, opts, hmod, hid⟩ := h id rfl
  obtain ⟨s, rfl⟩ := br.digest_of_hashOpts (hashOpts_distroMods hmod hid).2
  exact (by decide : String.ofList ("00aa".toList.take 4) = "00aa")

theorem quiet_names (k ext : String) (hext : ext ∈ ["yaml", "json"])
    (hstem : ∀ d ∈ ["br", "fedora", "ubuntu", "bare"], stem (forkName k (some ext)) ≠ stem d) :
    ¬ LikeFork quietMarshal (forkName k (some ext)) := by
  have hne : ∀ ext ∈ ["yaml", "json"], ("00aa".length = ext.length) ∧ "00aa" ≠ ext := by decide
  rintro (⟨d, distID, hd, -, hname⟩ | ⟨b, id, hid, hname⟩)
  · refine hstem d (mem_of_distroMods hd) ?_
    rw [hname, stem_forkName]
  · obtain rfl := quiet_isID hid
    exact (hne ext hext).2 (forkName_inj (hne ext hext).1 hname.symm).2

def sampleNames : List String :=
  ["child.yaml", "parent.yaml", "other.yaml", "plain.yaml", "bare-base.json", "net.yaml", "br-base.json"]

def sampleFile (k : String) : Option String × Option String × List (Option String) :=
  if k = "child.yaml" then (some "parent.yaml", none, [])
  else if k = "parent.yaml" then (none, none, [some "other.yaml"])
  else if k = "other.yaml" then (none, none, [])
  else if k = "plain.yaml" then (some "bare", none, [])
  else if k = "bare-base.json" then (none, some "bare", [])
  else if k = "net.yaml" then (some "br-base.json", some "br", [])
  else (none, some "br", [])

/-- What is asked for: all files, except for the bases 'parent.yaml' and 'br-base.json'. -/
def sampleAsked : List ConfigName :=
  [.name "child.yaml", .name "other.yaml", .name "plain.yaml", .name "bare-base.json", .name "net.yaml"]

theorem sample_read {k : String} {c : Parsed DistroOpts} (hk : k ∈ sampleNames)
    (hc : sampleLoadEnv.readConfig quietMarshal ⟨"/wl", k⟩ = .ok c) :
    c.main.cfg.base = (sampleFile k).1 ∧ c.main.distro.map (·.name) = (sampleFile k).2.1 ∧
      c.jobs.vals.map (·.cfg.base) = (sampleFile k).2.2 := by
  have hcheck : ∀ k ∈ sampleNames, (sampleLoadEnv.readConfig quietMarshal ⟨"/wl", k⟩).toOption.all (fun c =>
      decide (c.main.cfg.base = (sampleFile k).1 ∧ c.main.distro.map (·.name) = (sampleFile k).2.1 ∧
        c.jobs.vals.map (·.cfg.base) = (sampleFile k).2.2)) = true := by decide +kernel
  have hall := hcheck k hk
  rw [hc] at hall
  exact of_decide_eq_true hall

theorem sample_find {k : String} {dirs : List String} {path : FilePath}
    (h : findConfig sampleLoadEnv.iterdir k dirs = .ok (some path)) : path = ⟨"/wl", k⟩ ∧ k ∈ sampleNames := by
  obtain ⟨dir, name⟩ := path
  obtain ⟨rfl, -, hlisted⟩ := findConfig_listed h
  simp only [LoadEnv.listed, sampleLoadEnv] at hlisted
  split at hlisted
  · next hdir => exact ⟨by rw [hdir], hlisted⟩
  · cases hlisted

theorem sample_loads {cfgFile : Option String} {k : String} {node : ConfigNode DistroOpts}
    {jobs : List (ConfigNode DistroOpts)}
    (h : Loads sampleLoadEnv quietMarshal ["/wl"] sampleAsked cfgFile k node jobs) :
    k ∈ sampleNames ∧ ∃ c, sampleLoadEnv.readConfig quietMarshal ⟨"/wl", k⟩ = .ok c ∧ node = c.main ∧
      jobs = c.jobs.vals := by
  induction h with
  | asked h =>
    have hlocate : ∀ {cfgName path}, cfgName ∈ sampleAsked → sampleLoadEnv.locate ["/wl"] cfgName = .ok (some path) →
        path = ⟨"/wl", path.name⟩ ∧ path.name ∈ sampleNames ∧ (sampleFile path.name).2.2 = [] := by
      intro cfgName path hname hpath
      have hjobs : ∀ cfgName ∈ sampleAsked, ∃ k, cfgName = .name k ∧ (sampleFile k).2.2 = [] := by
        simp [sampleAsked, sampleFile]
      obtain ⟨k, rfl, hk⟩ := hjobs cfgName hname
      obtain ⟨rfl, hmem⟩ := sample_find hpath
      exact ⟨rfl, hmem, hk⟩
    cases h with
    | target hname hpath hc =>
      obtain ⟨heq, hmem, -⟩ := hlocate hname hpath
      exact ⟨hmem, _, heq ▸ hc, rfl, rfl⟩
    | job hname hpath hc hnode =>
      obtain ⟨heq, hmem, hnone⟩ := hlocate hname hpath
      have hjobs := (sample_read hmem (heq ▸ hc)).2.2
      rw [hnone, List.map_eq_nil_iff] at hjobs
      rw [hjobs] at hnode
      cases hnode
  | @base cfgFile k b node jobs path c _ _ _ hpath hc _ =>
    cases cfgFile with
    | none => cases hpath
    | some cfgFile =>
      obtain ⟨rfl, hmem⟩ := sample_find hpath
      exact ⟨hmem, c, hc, rfl, rfl⟩

theorem sample_asked {k : String} (hk : .name k ∈ sampleAsked) : ∃ c : Parsed DistroOpts,
    Asked sampleLoadEnv quietMarshal ["/wl"] sampleAsked k c.main c.jobs.vals := by
  have hcheck : ∀ cfgName ∈ sampleAsked, sampleLoadEnv.locate ["/wl"] cfgName = .ok (some ⟨"/wl", cfgName.str⟩) ∧
      (sampleLoadEnv.readConfig quietMarshal ⟨"/wl", cfgName.str⟩).isOk = true := by decide +kernel
  obtain ⟨hpath, hread⟩ := hcheck _ hk
  cases hc : sampleLoadEnv.readConfig quietMarshal ⟨"/wl", k⟩ with
  | error e => simp [ConfigName.str, hc, Except.isOk, Except.toBool] at hread
  | ok c => exact ⟨c, .target hk hpath hc⟩

theorem sample_made : Made sampleLoadEnv quietMarshal ["/wl"] sampleAsked "bare" := by
  obtain ⟨c, hc⟩ := sample_asked (k := "bare-base.json") (by decide)
  refine ⟨"bare-base.json", .asked hc, fun cfgFile node jobs h => ?_⟩
  obtain ⟨hk, c, hc, rfl, -⟩ := sample_loads h
  obtain ⟨hbase, hdistro, -⟩ := sample_read hk hc
  obtain ⟨d, hd, hname⟩ := Option.map_eq_some_iff.mp hdistro
  refine ⟨hbase, d, hd, hname, fun distMod hmod => ?_⟩
  cases hmod
  rfl

theorem sample_founded : Founded sampleLoadEnv quietMarshal ["/wl"] sampleAsked where
  names cfgFile k node jobs h := by
    have hcheck : ∀ k ∈ sampleNames, ∃ e ∈ [("child", "yaml"), ("parent", "yaml"), ("other", "yaml"), ("plain", "yaml"),
        ("bare-base", "json"), ("net", "yaml"), ("br-base", "json")], k = forkName e.1 (some e.2) ∧
          e.2 ∈ ["yaml", "json"] ∧ ∀ d ∈ ["br", "fedora", "ubuntu", "bare"], stem k ≠ stem d := by decide +kernel
    obtain ⟨e, -, rfl, hext, hstem⟩ := hcheck k (sample_loads h).1
    exact quiet_names e.1 e.2 hext hstem
  distros cfgFile k node jobs b h hb hmod := by
    have hcheck : ∀ k ∈ sampleNames, ∀ b ∈ (sampleFile k).1, quietMarshal.distroMods.hasKey b = true → b = "bare" := by
      decide +kernel
    obtain ⟨hk, c, hc, rfl, -⟩ := sample_loads h
    rw [hcheck k hk b ((sample_read hk hc).1.symm.trans hb) hmod]
    exact sample_made
  forked cfgFile k node jobs h hd k' habove := by
    have hcheck : ∀ k ∈ sampleNames, (sampleFile k).2.1.isSome → quietMarshal.distroMods.hasKey k = false ∧
        ∀ b ∈ (sampleFile k).1, b ∈ sampleNames ∧ (sampleFile b).2.1.isSome := by decide +kernel
    have hset : ∀ {cfgFile k node jobs}, Loads sampleLoadEnv quietMarshal ["/wl"] sampleAsked cfgFile k node jobs →
        node.distro ≠ none → (sampleFile k).2.1.isSome := by
      intro cfgFile k node jobs h hd
      obtain ⟨hk, c, hc, rfl, -⟩ := sample_loads h
      rw [← (sample_read hk hc).2.1, Option.isSome_map]
      exact Option.isSome_iff_ne_none.mpr hd
    suffices hk' : k' ∈ sampleNames ∧ (sampleFile k').2.1.isSome from (hcheck k' hk'.1 hk'.2).1
    induction habove with
    | refl => exact ⟨(sample_loads h).1, hset h hd⟩
    | tail _ hstep ih =>
      obtain ⟨cfgFile, node, jobs, hloads, hb⟩ := hstep
      obtain ⟨hk, c, hc, rfl, -⟩ := sample_loads hloads
      exact (hcheck _ ih.1 ih.2).2 _ ((sample_read hk hc).1.symm.trans hb)
  jobs cfgFile k node jobs h job hjob b hb := by
    have hcheck : ∀ k ∈ sampleNames, ∀ base ∈ (sampleFile k).2.2, base = some "other.yaml" := by decide +kernel
    obtain ⟨hk, c, hc, -, rfl⟩ := sample_loads h
    have hmem : job.cfg.base ∈ (sampleFile k).2.2 := (sample_read hk hc).2.2 ▸ List.mem_map.mpr ⟨job, hjob, rfl⟩
    obtain rfl := Option.some.inj (hb.symm.trans (hcheck k hk _ hmem))
    obtain ⟨c, hasked⟩ := sample_asked (k := "other.yaml") (by decide)
    exact .inl (.asked hasked)

theorem forkAll_of_no_distro (h : ∀ k r, p.cfgs.lookup k = some r → (p.cfg r).distro = none) :
    m.forkAll n p = .ok p := by
  have hrun : ∀ names : List String, (∀ k ∈ names, k ∈ p.cfgs.keys) → names.foldlM (m.forkStep n) p = .ok p := by
    intro names hnames
    induction names with
    | nil => rfl
    | cons name names ih =>
      obtain ⟨r, hr⟩ := Dict.hasKey_iff.mp (Dict.mem_keys_iff.mp (hnames name List.mem_cons_self))
      rw [List.foldlM_cons, Marshal.forkStep, hr]
      simp only [h name r hr]
      exact ih fun k hk => hnames k (List.mem_cons_of_mem _ hk)
  exact hrun _ fun _ hk => hk

def initError (p : Pool ω) : Option WorkloadConfigError :=
  match ConfigManager.initializeAll ⟨"/wlutil", p.cfgs⟩ 5 ⟨p.cfg, p.initialized, []⟩ with
  | .error (.raised e) => some e
  | _ => none

/-- All bases can be located, but forking changes nothing, one base of a configuration or job is not in the pool, and
    initialisation fails for it. -/
def Misses (name base : String) : Prop :=
  AllLocated sampleLoadEnv quietMarshal ["/wl"] [.name name] ∧
    ∃ p, sampleLoadEnv.loadConfigs quietMarshal ["/wl"] 5 [.name name] = .ok p ∧
      (∀ i, quietMarshal.forkAll i p = .ok p) ∧ (∃ x, p.Referenced x ∧ (p.cfg x).base = some base) ∧
      p.cfgs.hasKey base = false ∧
      initError p = some { path := name, extra := some ("Missing required option '" ++ base ++ "'") }

/-- The configurations of the pool, which have no 'distro', and an object of it whose base is not in the pool. -/
def Lacks (cfgs : Dict String Ref) (x : Ref) (base : String) (p : Pool DistroOpts) : Prop :=
  p.cfgs = cfgs ∧ (∀ e ∈ cfgs, (p.cfg e.2).distro = none) ∧ (∃ e ∈ cfgs, x = e.2 ∨ x ∈ (p.cfg e.2).jobs) ∧
    (p.cfg x).base = some base

instance (cfgs : Dict String Ref) (x : Ref) (base : String) : DecidablePred (Lacks cfgs x base) := fun _ =>
  inferInstanceAs (Decidable (_ ∧ _))

theorem misses_of_check {name base : String} (names : List String) (cfgs : Dict String Ref) (x : Ref)
    (hloc : sampleLoadEnv.checkAll quietMarshal ["/wl"] names [.name name] = true)
    (hload : (sampleLoadEnv.loadConfigs quietMarshal ["/wl"] 5 [.name name]).toOption.any (fun p =>
      decide (Lacks cfgs x base p ∧
        initError p = some { path := name, extra := some ("Missing required option '" ++ base ++ "'") })) = true)
    (hnodup : cfgs.keys.Nodup) (hbase : cfgs.hasKey base = false) : Misses name base := by
  obtain ⟨p, hp, ⟨rfl, hdistro, ⟨e, he, hx⟩, hb⟩, herror⟩ := Except.exists_ok hload
  refine ⟨allLocated_of_check hloc, p, hp, fun i => forkAll_of_no_distro fun k r hk => ?_, ⟨x, ?_, hb⟩, hbase, herror⟩
  · exact hdistro (k, r) (Dict.mem_of_lookup hk)
  · exact ⟨e.1, e.2, (Dict.lookup_eq_some hnodup).mpr he, hx⟩

end FireMarshal
