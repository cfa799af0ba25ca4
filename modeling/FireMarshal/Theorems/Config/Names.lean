import FireMarshal.Lib.Qualified
import FireMarshal.Theorems.Build.Bin
import FireMarshal.Theorems.Config.Load
import FireMarshal.Theorems.Config.Read
import FireMarshal.Theorems.Config.Targets

/-! The names of workloads and of their jobs, and what is filed under them. -/

namespace FireMarshal

variable {ω : Type} {env : LoadEnv ω} {m : Marshal ω} {searchPaths : List String} {p q : Pool ω}

/-! ### Names -/

theorem toList_jobName (x a : String) : (jobName x a).toList = x.toList ++ '-' :: a.toList := by
  simp [jobName]

theorem jobName_joins : Qualified.Joins jobName where
  inj {x a b} h := by
    have hlist := congrArg String.toList h
    rw [toList_jobName, toList_jobName] at hlist
    exact String.toList_inj.mp (List.cons.inj (List.append_cancel_left hlist)).2
  ne x a h := by
    have hlength := congrArg (fun s => s.toList.length) h
    simp only [toList_jobName, List.length_append, List.length_cons] at hlength
    omega
  assoc x r a := by simp [jobName, String.append_assoc]
  split {x a y b} h := by
    have hlist := congrArg String.toList h
    rw [toList_jobName, toList_jobName, List.append_eq_append_iff] at hlist
    -- One name is an initial part of the other, and what is left over starts with the separator.
    have hrest : ∀ {u v as : List Char}, '-' :: u = as ++ '-' :: v → as = [] ∨ ∃ r, as = '-' :: r ∧ u = r ++ '-' :: v := by
      intro u v as heq
      cases as with
      | nil => exact .inl rfl
      | cons c r =>
        obtain ⟨rfl, hu⟩ := List.cons.inj heq
        exact .inr ⟨r, rfl, hu⟩
    rcases hlist with ⟨as, hy, hrest'⟩ | ⟨as, hx, hrest'⟩
    · rcases hrest hrest' with rfl | ⟨r, rfl, ha⟩
      · exact .inl (String.toList_inj.mp (by simpa using hy.symm))
      · refine .inr (.inl ⟨String.ofList r, ?_, ?_⟩) <;> apply String.toList_inj.mp <;> simpa [toList_jobName]
    · rcases hrest hrest' with rfl | ⟨r, rfl, hb⟩
      · exact .inl (String.toList_inj.mp (by simpa using hx))
      · refine .inr (.inr ⟨String.ofList r, ?_, ?_⟩) <;> apply String.toList_inj.mp <;> simpa [toList_jobName]

structure LoadEnv.Workload (env : LoadEnv ω) (m : Marshal ω) where
  path : FilePath
  file : ConfigFile ω
  parsed : Parsed ω
  load : env.load path = .ok file
  read : env.readConfig m path = .ok parsed

namespace LoadEnv.Workload

def group (w : env.Workload m) : Qualified.Group String where
  name := w.file.main.raw.name
  members := w.file.jobs.map (·.raw.name)

def entries (w : env.Workload m) : Dict String (ConfigNode ω) := (w.path.name, w.parsed.main) :: w.parsed.jobs

def configs (w : env.Workload m) : List Config := w.entries.vals.map (·.cfg)

variable {w : env.Workload m}

theorem reads (w : env.Workload m) : env.Reads w.path w.file w.parsed := by
  obtain ⟨file, hread⟩ := reads_of_readConfig w.read
  obtain rfl := Except.ok.inj (w.load.symm.trans hread.load)
  exact hread

theorem jobs_keys (hjobs : w.group.members.Nodup) :
    w.parsed.jobs.keys = w.group.members.map (jobName w.group.name) := by
  have hname : w.parsed.main.cfg.name = w.group.name := w.reads.name
  have hkeys := w.reads.keys
  rw [hname] at hkeys
  have hnodup : (w.group.members.map (jobName w.group.name)).Nodup := hjobs.map fun _ _ => jobName_joins.inj
  rw [group, List.map_map] at hnodup ⊢
  exact hkeys hnodup

theorem entries_keys (hjobs : w.group.members.Nodup) :
    w.entries.keys = w.path.name :: w.group.members.map (jobName w.group.name) := by
  rw [← jobs_keys hjobs]
  rfl

theorem names_configs (hjobs : w.group.members.Nodup) : w.configs.map Config.name = w.group.names jobName := by
  have hname : w.parsed.main.cfg.name = w.group.name := w.reads.name
  have hjobNames : w.parsed.jobs.vals.map (fun node => node.cfg.name) = w.parsed.jobs.keys := by
    rw [Dict.vals, Dict.keys, List.map_map]
    refine List.map_congr_left fun e he => ?_
    obtain ⟨job, -, hjob⟩ := w.reads.jobs e he
    exact hjob.key.symm
  rw [jobs_keys hjobs] at hjobNames
  simp [configs, entries, Dict.vals_cons, Qualified.Group.names, hname, ← hjobNames, Function.comp_def]

/-! ### Files that are generated -/

/-- Nothing sets 'out-dir'. -/
def DefaultOutDir (w : env.Workload m) : Prop :=
  w.file.main.raw.outDir = none ∧ ∀ job ∈ w.file.jobs, job.raw.outDir = none

theorem outDir_configs (h : w.DefaultOutDir) {c : Config} (hc : c ∈ w.configs) :
    c.outDir = joinPath env.imageDir c.name := by
  have hinit : ∀ {raw : RawConfig} {c : Config}, Config.init env.toInitEnv raw none [] = .ok c → raw.outDir = none →
      c.outDir = joinPath env.imageDir c.name := by
    intro raw c hc hraw
    obtain ⟨workdir, imgSz, mem, cpus, -, -, -, -, rfl⟩ := Config.init_eq_ok hc
    simp [Config.ofRaw, hraw]
  obtain ⟨node, hnode, rfl⟩ := List.mem_map.mp hc
  obtain ⟨e, he, rfl⟩ := List.mem_map.mp hnode
  rcases List.mem_cons.mp he with rfl | he
  · exact hinit w.reads.main h.1
  · obtain ⟨job, hmem, hjob⟩ := w.reads.jobs e he
    exact hinit hjob.init (h.2 job hmem)

end LoadEnv.Workload

def Origin.Writes : Origin ω → String → Prop
  | .file raw, p => ∃ workdir path, raw.initWorkdir = .ok workdir ∧ (raw.bin = some path ∨ raw.img = some path) ∧
      p = cleanPath path workdir
  | .distro _, _ => False

namespace Config

/-- What the initialisation makes of a configuration that was read from a file, with its base chain. What the manager
    sets in between ('base', 'distro' and the jobs) may be anything. -/
def Becomes (env : InitEnv) (m : Marshal ω) (wlutilDir : String) (c : Config) (chain : List (Origin ω)) (v : Config) :
    Prop :=
  ∃ (raw : RawConfig) (c₁ : Config) (rest : List (Origin ω)), init env raw none [] = .ok c ∧ c₁.OfFile env raw ∧
    c₁.name = c.name ∧ chain = .file raw :: rest ∧
    (rest = [] ∧ v = c₁.setLaunch ∨ ∃ u, BaseChain env m wlutilDir rest u ∧ c₁.applyBase wlutilDir u = .ok v)

/-- What is built of a configuration. -/
def targets (c : Config) : List String := c.bin.toList ++ c.img.toList

end Config

section
variable {env : InitEnv} {wlutilDir : String} {chain : List (Origin ω)} {c c' v v' : Config} {path : String}

theorem Config.Becomes.baseChain (h : c.Becomes env m wlutilDir chain v) : BaseChain env m wlutilDir chain v := by
  obtain ⟨raw, c₁, rest, -, hfile, -, rfl, ⟨rfl, rfl⟩ | ⟨u, hbase, happly⟩⟩ := h
  · exact .alone hfile
  · exact .based hfile hbase happly

theorem Config.Becomes.name_outDir (h : c.Becomes env m wlutilDir chain v) : v.name = c.name ∧ v.outDir = c.outDir := by
  obtain ⟨raw, c₁, rest, hinit, ⟨c₀, hinit₀, hc₁⟩, hname, rfl, hcases⟩ := h
  have hout : c₁.outDir = c.outDir := by
    obtain ⟨_, _, _, _, -, -, -, -, rfl⟩ := init_eq_ok hinit
    obtain ⟨_, _, _, _, -, -, -, -, rfl⟩ := init_eq_ok hinit₀
    rw [hc₁]
    rfl
  rcases hcases with ⟨-, rfl⟩ | ⟨u, -, happly⟩
  · exact ⟨hname, hout⟩
  · have ha := applied_of_applyBase happly
    exact ⟨ha.name.trans hname, ha.outDir.trans hout⟩

theorem Config.OfFile.writes {raw : RawConfig} (h : c.OfFile env raw) (hp : path ∈ c.targets) :
    (Origin.file raw : Origin ω).Writes path := by
  obtain ⟨workdir, hworkdir, hwritten⟩ := h.written
  simp only [targets, hwritten.bin, hwritten.img, List.mem_append, Option.mem_toList, Option.map_eq_some_iff] at hp
  rcases hp with ⟨p, hp, rfl⟩ | ⟨p, hp, rfl⟩
  · exact ⟨workdir, p, hworkdir, .inl hp, rfl⟩
  · exact ⟨workdir, p, hworkdir, .inr hp, rfl⟩

theorem writes_of_chain (h : BaseChain env m wlutilDir chain v) (hlinux : v.linux.isSome = false) (hp : v.bin = some path) :
    ∃ o ∈ chain, o.Writes path := by
  induction h with
  | distro w d => cases hp
  | alone hfile => exact ⟨_, List.mem_singleton_self _, hfile.writes (by simpa [Config.targets] using .inl hp)⟩
  | @based raw c u v chain hfile hbase happly ih =>
    have ha := Config.applied_of_applyBase happly
    have hsets := Config.isSome_inheritLinuxOpts ha.linux
    rw [hlinux] at hsets
    rw [ha.bin, hlinux] at hp
    rcases Option.or_eq_some_iff.mp hp with hp | ⟨-, hp⟩
    · exact ⟨_, List.mem_cons_self, hfile.writes (by simp [Config.targets, hp])⟩
    · obtain ⟨o, ho, hwrites⟩ := ih (by simp_all) hp
      exact ⟨o, List.mem_cons_of_mem _ ho, hwrites⟩

theorem Config.Becomes.target (h : c.Becomes env m wlutilDir chain v) (hp : path ∈ v.targets) :
    (∃ suffix ∈ ["-bin", ".img"], path = joinPath v.outDir (v.name ++ suffix)) ∨ ∃ o ∈ chain, o.Writes path := by
  have hchain := h.baseChain
  obtain ⟨raw, c₁, rest, -, hfile, -, rfl, ⟨rfl, rfl⟩ | ⟨u, hbase, happly⟩⟩ := h
  · exact .inr ⟨_, List.mem_cons_self, hfile.writes hp⟩
  have ha := applied_of_applyBase happly
  rcases List.mem_append.mp hp with hp | hp
  · rw [Option.mem_toList] at hp
    cases hlinux : v.linux.isSome with
    | false => exact .inr (writes_of_chain hchain hlinux hp)
    | true =>
      rw [ha.bin, hlinux] at hp
      rw [ha.outDir, ha.name]
      exact .inl ⟨"-bin", by simp, (Option.some.inj hp).symm⟩
  · rw [Option.mem_toList, ha.img] at hp
    rcases Option.or_eq_some_iff.mp hp with hp | ⟨-, hp⟩
    · obtain ⟨_, -, rfl⟩ := Option.map_eq_some_iff.mp hp
      rw [ha.outDir, ha.name]
      exact .inl ⟨".img", by simp, rfl⟩
    · exact .inr ⟨_, List.mem_cons_self, hfile.writes (by simp [targets, hp])⟩

theorem file_ne_of_name {x y : String} (hx : '/' ∉ x.toList) (hy : '/' ∉ y.toList) (hne : x ≠ y) (dir dir' : String)
    {suffix suffix' : String} (hs : suffix ∈ ["-bin", ".img"]) (hs' : suffix' ∈ ["-bin", ".img"]) :
    Posix.file (joinPath dir (x ++ suffix)) ≠ Posix.file (joinPath dir' (y ++ suffix')) := by
  have hfile : ∀ (dir x : String), '/' ∉ x.toList → ∀ suffix ∈ ["-bin", ".img"],
      (Posix.file (joinPath dir (x ++ suffix))).parts.getLast? = some (x.toList ++ suffix.toList) := by
    intro dir x hx suffix hs
    have hslash : '/' ∉ (x ++ suffix).toList := by
      have hsuffix : ∀ suffix ∈ ["-bin", ".img"], '/' ∉ suffix.toList := by decide
      simp [hx, hsuffix suffix hs]
    have hlength : 2 < (x ++ suffix).toList.length := by
      have hsuffix : ∀ suffix ∈ ["-bin", ".img"], 2 < suffix.toList.length := by decide
      rw [String.toList_append, List.length_append]
      exact Nat.lt_of_lt_of_le (hsuffix suffix hs) (Nat.le_add_left _ _)
    have hshort : ∀ cs : List Char, cs.length ≤ 2 → (x ++ suffix).toList ≠ cs := by
      rintro _ hle rfl
      exact absurd hle (Nat.not_le.mpr hlength)
    rw [joinPath, Posix.file_join_name hslash ⟨hshort _ (by decide), hshort _ (by decide)⟩ (hshort _ (by decide)),
      List.getLast?_concat, String.toList_append]
  intro heq
  have hlast := hfile dir x hx suffix hs
  rw [heq, hfile dir' y hy suffix' hs', Option.some.injEq] at hlast
  -- Names that end in the same way have the same suffix.
  have hsame : suffix' = suffix := by
    have hends : ∀ suffix ∈ ["-bin", ".img"], ∀ suffix' ∈ ["-bin", ".img"],
        suffix'.toList.getLast? = suffix.toList.getLast? → suffix' = suffix := by decide
    have hnil : ∀ suffix ∈ ["-bin", ".img"], suffix.toList ≠ [] := by decide
    have hlast' := congrArg List.getLast? hlast
    rw [List.getLast?_append_of_ne_nil _ (hnil suffix' hs'), List.getLast?_append_of_ne_nil _ (hnil suffix hs)] at hlast'
    exact hends suffix hs suffix' hs' hlast'
  rw [hsame] at hlast
  exact hne (String.toList_inj.mp (List.append_cancel_right hlast)).symm

theorem Config.Becomes.shares {chain' : List (Origin ω)} {path' : String} (h : c.Becomes env m wlutilDir chain v)
    (h' : c'.Becomes env m wlutilDir chain' v') (hc : '/' ∉ c.name.toList) (hc' : '/' ∉ c'.name.toList)
    (hne : c.name ≠ c'.name) (hp : path ∈ v.targets) (hp' : path' ∈ v'.targets)
    (hsame : Posix.file path = Posix.file path') : (∃ o ∈ chain, o.Writes path) ∨ ∃ o ∈ chain', o.Writes path' := by
  rcases h.target hp with ⟨suffix, hs, rfl⟩ | hwritten
  · rcases h'.target hp' with ⟨suffix', hs', rfl⟩ | hwritten
    · rw [h.name_outDir.1, h'.name_outDir.1] at hsame
      exact absurd hsame (file_ne_of_name hc hc' hne _ _ hs hs')
    · exact .inr hwritten
  · exact .inl hwritten

/-- A name that is one component of a path. -/
def PlainName (name : String) : Prop := '/' ∉ name.toList ∧ name ∉ ["", ".", ".."]

instance (name : String) : Decidable (PlainName name) := inferInstanceAs (Decidable (_ ∧ _))

theorem file_joinPath_inj {x y : String} (hx : PlainName x) (hy : PlainName y) (dir : String) :
    Posix.file (joinPath dir x) = Posix.file (joinPath dir y) ↔ x = y := by
  have hfile : ∀ x, PlainName x →
      Posix.file (joinPath dir x) = ⟨(Posix.file dir).root, (Posix.file dir).parts ++ [x.toList]⟩ := by
    intro x ⟨hslash, hdots⟩
    have hne : ∀ s ∈ ["", ".", ".."], x.toList ≠ s.toList := fun s hs heq => hdots (String.toList_inj.mp heq ▸ hs)
    exact Posix.file_join_name hslash ⟨hne "" (by simp), hne "." (by simp)⟩ (hne ".." (by simp))
  rw [hfile x hx, hfile y hy]
  simp [String.toList_inj]

end

/-! ### Entries of the pool -/

namespace Pool

def Keeps (p : Pool ω) (e : String × ConfigNode ω) : Prop := ∃ r, p.cfgs.lookup e.1 = some r ∧ p.Holds r e.2

theorem Keeps.setKey {e : String × ConfigNode ω} {name : String} (h : p.Keeps e) (hne : e.1 ≠ name) (x : Ref) :
    (p.setKey name x).Keeps e := by
  obtain ⟨r, hr, hholds⟩ := h
  exact ⟨r, by rw [lookup_setKey, if_neg hne, hr], hholds.setKey name x⟩

theorem Holds.keeps {r : Ref} {e : String × ConfigNode ω} (h : p.Holds r e.2) : (p.setKey e.1 r).Keeps e :=
  ⟨r, by rw [lookup_setKey, if_pos rfl], h.setKey e.1 r⟩

theorem setKeys_keeps {jobs : List Ref} {d : Dict String (ConfigNode ω)}
    (hholds : List.Forall₂ (fun j node => p.Holds j node) jobs d.vals) (hkey : ∀ e ∈ d, e.1 = e.2.cfg.name)
    (hnodup : d.keys.Nodup) :
    (∀ e ∈ d, (jobs.foldl (fun q j => q.setKey (q.cfg j).name j) p).Keeps e) ∧
      ∀ e, e.1 ∉ d.keys → p.Keeps e → (jobs.foldl (fun q j => q.setKey (q.cfg j).name j) p).Keeps e := by
  induction d generalizing p jobs with
  | nil =>
    cases hholds
    exact ⟨by simp, fun e _ h => h⟩
  | cons e d ih =>
    cases hholds with
    | @cons j _ jobs _ hj hjobs =>
      obtain ⟨hnew, hnodup⟩ := List.nodup_cons.mp hnodup
      have hname : (p.cfg j).name = e.1 := hj.name.trans (hkey e List.mem_cons_self).symm
      obtain ⟨hentries, hothers⟩ := ih (hjobs.imp fun _ _ h => h.setKey e.1 j)
        (fun e' he' => hkey e' (List.mem_cons_of_mem _ he')) hnodup
      rw [List.foldl_cons, hname]
      refine ⟨List.forall_mem_cons.mpr ⟨hothers e hnew hj.keeps, hentries⟩, fun e' he' hkeeps => ?_⟩
      obtain ⟨hne, hrest⟩ := not_or.mp (fun h => he' (List.mem_cons.mpr h))
      exact hothers e' hrest (hkeeps.setKey hne j)

end Pool

open LoadEnv (Workload)

theorem loadExplicit_keeps {w : env.Workload m} {cfgName : ConfigName} {s : String × Pool ω}
    (hloc : env.locate searchPaths cfgName = .ok (some w.path)) (hnodup : w.entries.keys.Nodup)
    (h : env.loadExplicit m searchPaths p cfgName = .ok s) :
    (∀ e ∈ w.entries, s.2.Keeps e) ∧ ∀ e, e.1 ∉ w.entries.keys → p.Keeps e → s.2.Keeps e := by
  obtain ⟨path, c, hpath, hc, rfl⟩ := loadExplicit_eq_ok h
  obtain rfl := Option.some.inj (Except.ok.inj (hloc.symm.trans hpath))
  obtain rfl := Except.ok.inj (w.read.symm.trans hc)
  obtain ⟨hnew, hjobs⟩ := List.nodup_cons.mp hnodup
  obtain ⟨hext, hcfgs, hmain, hholds⟩ := Pool.newConfig_spec w.parsed p
  have hkey : ∀ e ∈ w.parsed.jobs, e.1 = e.2.cfg.name := fun e he => by
    obtain ⟨job, -, hjob⟩ := w.reads.jobs e he
    exact hjob.key
  obtain ⟨hentries, hothers⟩ := Pool.setKeys_keeps
    (hholds.imp fun _ _ h => h.toHolds.setKey w.path.name (p.newConfig w.parsed).last) hkey hjobs
  refine ⟨List.forall_mem_cons.mpr ⟨hothers _ hnew hmain.toHolds.keeps, hentries⟩, fun e he hkeeps => ?_⟩
  obtain ⟨hne, hrest⟩ := not_or.mp (fun h => he (List.mem_cons.mpr h))
  obtain ⟨r, hr, hr'⟩ := hkeeps
  have hkept : (p.newConfig w.parsed).Keeps e := ⟨r, hcfgs ▸ hr, hr'.extend hext⟩
  exact hothers e hrest (hkept.setKey hne _)

theorem loadExplicits_keep {ws : List (env.Workload m)} {configNames : List ConfigName} {s t : String × Pool ω}
    (hloc : configNames.map (env.locate searchPaths) = ws.map fun w => .ok (some w.path))
    (hnodup : (Dict.keys (ws.flatMap Workload.entries)).Nodup)
    (h : configNames.foldlM (fun s cfgName => env.loadExplicit m searchPaths s.2 cfgName) s = .ok t) :
    (∀ e ∈ ws.flatMap Workload.entries, t.2.Keeps e) ∧
      ∀ e, e.1 ∉ Dict.keys (ws.flatMap Workload.entries) → s.2.Keeps e → t.2.Keeps e := by
  induction ws generalizing configNames s with
  | nil =>
    obtain rfl := List.map_eq_nil_iff.mp hloc
    cases h
    exact ⟨by simp, fun e _ he => he⟩
  | cons w ws ih =>
    obtain ⟨cfgName, configNames, rfl, hfirst, hrest⟩ := List.map_eq_cons_iff.mp hloc
    obtain ⟨u, hu, h⟩ := Except.foldlM_cons_ok h
    rw [List.flatMap_cons, Dict.keys_append] at hnodup
    obtain ⟨hw, hws, hdisjoint⟩ := List.nodup_append.mp hnodup
    obtain ⟨hentries, hothers⟩ := loadExplicit_keeps hfirst hw hu
    obtain ⟨hentries', hothers'⟩ := ih hrest hws h
    rw [List.flatMap_cons, Dict.keys_append]
    refine ⟨List.forall_mem_append.mpr ⟨fun e he => ?_, hentries'⟩, fun e he hkeeps => ?_⟩
    · refine hothers' e (fun hmem => ?_) (hentries e he)
      exact hdisjoint e.1 (List.mem_map.mpr ⟨e, he, rfl⟩) e.1 hmem rfl
    · obtain ⟨hfirst, hlater⟩ := not_or.mp (fun h => he (List.mem_append.mpr h))
      exact hothers' e hlater (hothers e hfirst hkeeps)

theorem keeps_all_iff {ws : List (env.Workload m)} {configNames : List ConfigName} {s t : String × Pool ω}
    (hnames : ((ws.flatMap Workload.configs).map Config.name).Nodup)
    (hloc : configNames.map (env.locate searchPaths) = ws.map fun w => .ok (some w.path))
    (h : configNames.foldlM (fun s cfgName => env.loadExplicit m searchPaths s.2 cfgName) s = .ok t) :
    (∀ e ∈ ws.flatMap Workload.entries, t.2.Keeps e) ↔ (Dict.keys (ws.flatMap Workload.entries)).Nodup := by
  refine ⟨fun hkeeps => ?_, fun hnodup => (loadExplicits_keep hloc hnodup h).1⟩
  -- The name of a configuration is found by way of its key.
  have hfound : (ws.flatMap Workload.configs).map Config.name = (Dict.keys (ws.flatMap Workload.entries)).map
      fun k => ((t.2.cfgs.lookup k).map fun r => (t.2.cfg r).name).getD "" := by
    have hconfigs : ws.flatMap Workload.configs = (ws.flatMap Workload.entries).map fun e => e.2.cfg := by
      rw [List.map_flatMap]
      exact List.flatMap_congr fun w _ => by simp [Workload.configs, Dict.vals, Function.comp_def]
    rw [hconfigs, List.map_map, Dict.keys, List.map_map]
    refine List.map_congr_left fun e he => ?_
    obtain ⟨r, hr, hholds⟩ := hkeeps e he
    simp [hr, hholds.name]
  rw [hfound] at hnames
  exact hnames.of_map _

structure TwoNames where
  first : String
  firstJobs : List String
  second : String
  secondJobs : List String

def twoEnv (names : TwoNames) : LoadEnv Unit where
  toInitEnv := { imageDir := "/images", resolve := id, parseSize := fun _ => .ok 0, int := fun _ => .ok 0 }
  iterdir _ := .ok ["a.yaml", "b.yaml"]
  load file :=
    .ok
      (if file.name = "a.yaml" then workload names.first names.firstJobs else workload names.second names.secondJobs)
  initOpts _ _ _ opts := .ok opts
where
  workload (name : String) (jobs : List String) : ConfigFile Unit :=
    { main := { raw := { name } }, jobs := jobs.map fun name => { raw := { name } } }

def apartNames : TwoNames := ⟨"a", ["x", "y"], "b", ["x"]⟩

def clashNames : TwoNames := ⟨"a", ["b-c"], "a-b", ["c"]⟩

def noDistros : Marshal Unit := ⟨[], "/images"⟩

def loadTwo (names : TwoNames) : Except (Memo.Failure LoadError) (String × Pool Unit) :=
  [ConfigName.name "a.yaml", .name "b.yaml"].foldlM
    (fun s cfgName => (twoEnv names).loadExplicit noDistros ["/wl"] s.2 cfgName) ("", .empty)

theorem exists_workload (file : String) (group : Qualified.Group String)
    (hok : ((twoEnv apartNames).readConfig noDistros ⟨"/wl", file⟩).isOk = true)
    (hgroup : ∀ f, (twoEnv apartNames).load ⟨"/wl", file⟩ = .ok f → f.main.raw.outDir = none ∧
      (∀ job ∈ f.jobs, job.raw.outDir = none) ∧ group = ⟨f.main.raw.name, f.jobs.map (·.raw.name)⟩) :
    ∃ w : (twoEnv apartNames).Workload noDistros, w.path = ⟨"/wl", file⟩ ∧ w.group = group ∧ w.DefaultOutDir := by
  obtain ⟨hmain, hjobs, hname⟩ := hgroup _ rfl
  cases hread : (twoEnv apartNames).readConfig noDistros ⟨"/wl", file⟩ with
  | error e => simp [hread, Except.isOk, Except.toBool] at hok
  | ok c => exact ⟨⟨⟨"/wl", file⟩, _, c, rfl, hread⟩, rfl, hname.symm, hmain, hjobs⟩

theorem jobName_ne_of_length {x y : String} (h : y.toList.length ≤ x.toList.length) (r : String) : y ≠ jobName x r := by
  rintro rfl
  rw [toList_jobName, List.length_append, List.length_cons] at h
  omega

end FireMarshal
