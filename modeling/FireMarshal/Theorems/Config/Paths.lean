import FireMarshal.Theorems.Config.Inherit
import FireMarshal.Theorems.Config.Read

/-! Whether the paths of a configuration are absolute, for files that are found in any directory. -/

namespace FireMarshal

/-! ### Paths -/

def Linux.paths (l : Linux) : List String := l.source.toList ++ l.config.getD [] ++ (l.modules.getD []).vals.filterMap id

namespace Config

def scripts (c : Config) : List RunSpec :=
  c.runSpec.toList ++ c.guestInit.toList ++ c.postRunHook.toList ++ c.hostInit.toList ++ c.postBin.toList

/-- All paths on the host that are in the options of a configuration. -/
def paths (c : Config) : List String :=
  c.workdir :: (c.cfgFile.toList ++ c.overlay.toList ++ c.bin.toList ++ c.img.toList ++ c.spike.join.toList ++
    c.qemu.join.toList ++ c.linux.toList.flatMap Linux.paths ++ c.firmware.toList.flatMap (·.opensbiSrc.toList) ++
    (c.files.getD []).map FileSpec.src ++ c.scripts.filterMap RunSpec.path)

/-- All paths are absolute, and 'cfg-file' is the given file. -/
def Rooted (resolve : String → String) (file : FilePath) (c : Config) : Prop :=
  (∀ p ∈ c.paths, isAbsolute p = true) ∧ ∃ p, c.cfgFile = some p ∧ resolve p = resolve (joinPath file.dir file.name)

end Config

variable {ω : Type} {env : LoadEnv ω} {m : Marshal ω} {p dir workdir : String} {path : FilePath}

theorem isAbsolute_joinPath (hdir : dir ≠ "") (p : String) :
    isAbsolute (joinPath dir p) = (isAbsolute p || isAbsolute dir) := Posix.isAbsolute_join hdir p

theorem ne_empty_of_isAbsolute (h : isAbsolute dir = true) : dir ≠ "" := by
  rintro rfl
  cases h

theorem cleanPath_eq (p workdir : String) : cleanPath p workdir = joinPath workdir p := by
  unfold cleanPath
  split
  · next hp => exact (Posix.join_of_absolute hp workdir).symm
  · rfl

theorem isAbsolute_cleanPath (h : isAbsolute workdir = true) (p : String) : isAbsolute (cleanPath p workdir) = true := by
  rw [cleanPath_eq, isAbsolute_joinPath (ne_empty_of_isAbsolute h), h, Bool.or_true]

theorem isAbsolute_initLinuxOpts (h : isAbsolute workdir = true) (l : RawLinux) :
    ∀ p ∈ (initLinuxOpts workdir l).paths, isAbsolute p = true := by
  have hclean := isAbsolute_cleanPath h
  simp only [Linux.paths, initLinuxOpts, List.forall_mem_append]
  refine ⟨⟨?_, ?_⟩, ?_⟩
  · cases l.source <;> simp [hclean]
  · cases l.config <;> simp [hclean]
  · intro p hp
    cases hmodules : l.modules with
    | none => simp [hmodules, Dict.vals] at hp
    | some d =>
      simp only [hmodules, Dict.vals, Dict.mapVals, Option.map_some, Option.getD_some, List.map_map, List.filterMap_map,
        List.mem_filterMap] at hp
      obtain ⟨e, -, he⟩ := hp
      obtain ⟨q, -, rfl⟩ := Option.map_eq_some_iff.mp he
      exact hclean q

theorem isAbsolute_fromString {env : InitEnv} (hresolve : ∀ p, isAbsolute (env.resolve p) = true) (command : String) :
    ∀ p ∈ (RunSpec.fromString env command workdir).path, isAbsolute p = true := by
  unfold RunSpec.fromString
  split
  · simp
  · simp [hresolve]

theorem forall_mem_map_toList {α β : Type} {P : β → Prop} {f : α → β} (h : ∀ a, P (f a)) (o : Option α) :
    ∀ b ∈ (o.map f).toList, P b := by
  cases o <;> simp [h]

theorem isAbsolute_scripts {env : InitEnv} (hresolve : ∀ p, isAbsolute (env.resolve p) = true) (raw : RawConfig)
    (distro : Option Ref) (jobs : List Ref) (imgSz mem cpus : Nat) :
    ∀ r ∈ (Config.ofRaw env raw distro jobs workdir imgSz mem cpus).scripts, ∀ p ∈ r.path, isAbsolute p = true := by
  have hscript := forall_mem_map_toList (P := fun r => ∀ p ∈ r.path, isAbsolute p = true)
    (f := (RunSpec.fromString env · workdir)) (isAbsolute_fromString hresolve)
  simp only [Config.scripts, List.forall_mem_append]
  refine ⟨⟨⟨⟨?_, hscript raw.guestInit⟩, hscript raw.postRunHook⟩, hscript raw.hostInit⟩, hscript raw.postBin⟩
  cases hrun : raw.run with
  | some run => simpa [Config.ofRaw, hrun] using hscript (some run)
  | none => cases hcommand : raw.command <;> simp [Config.ofRaw, hrun, hcommand]

theorem isAbsolute_ofRaw {env : InitEnv} (hresolve : ∀ p, isAbsolute (env.resolve p) = true)
    (h : isAbsolute workdir = true) (raw : RawConfig) (distro : Option Ref) (jobs : List Ref) (imgSz mem cpus : Nat) :
    ∀ p ∈ (Config.ofRaw env raw distro jobs workdir imgSz mem cpus).paths, isAbsolute p = true := by
  have hclean := isAbsolute_cleanPath h
  have hoption := forall_mem_map_toList (P := fun p => isAbsolute p = true) hclean
  have hoptional : ∀ o : Option (Option String), ∀ p ∈ (o.map fun q => q.map (cleanPath · workdir)).join.toList,
      isAbsolute p = true := by
    rintro (_ | _ | o) <;> simp [hclean]
  simp only [Config.paths, List.forall_mem_cons, List.forall_mem_append]
  refine ⟨h, ⟨⟨⟨⟨⟨⟨⟨⟨⟨?_, hoption raw.overlay⟩, hoption raw.bin⟩, hoption raw.img⟩, hoptional raw.spike⟩,
    hoptional raw.qemu⟩, ?_⟩, ?_⟩, ?_⟩, ?_⟩⟩
  · cases raw.cfgFile <;> simp [Config.ofRaw, hclean]
  · intro p hp
    obtain ⟨l, hl, hp⟩ := List.mem_flatMap.mp hp
    exact forall_mem_map_toList (P := fun l => ∀ p ∈ l.paths, isAbsolute p = true) (isAbsolute_initLinuxOpts h)
      raw.linuxOpts l hl p hp
  · intro p hp
    obtain ⟨f, hf, hp⟩ := List.mem_flatMap.mp hp
    exact forall_mem_map_toList (P := fun f => ∀ p ∈ f.opensbiSrc.toList, isAbsolute p = true)
      (fun f => hoption f.opensbiSrc) raw.firmware f hf p hp
  · intro p hp
    obtain ⟨f, hf, rfl⟩ := List.mem_map.mp hp
    cases hraw : raw.files with
    | none => simp [Config.ofRaw, hraw] at hf
    | some files =>
      simp only [Config.ofRaw, hraw, Option.map_some, Option.getD_some, List.mem_map] at hf
      obtain ⟨g, -, rfl⟩ := hf
      exact hclean g.1
  · intro p hp
    obtain ⟨r, hr, hp⟩ := List.mem_filterMap.mp hp
    exact isAbsolute_scripts hresolve raw distro jobs imgSz mem cpus r hr p hp

/-! ### One configuration -/

theorem rooted_iff {raw : RawConfig} {c : Config} (hresolve : ∀ p, isAbsolute (env.resolve p) = true)
    (h : Config.init env.toInitEnv raw none [] = .ok c) (hraw : raw.cfgFile = some path) (file : FilePath) :
    c.Rooted env.resolve file ↔ isAbsolute c.workdir = true ∧
      env.resolve (cleanPath (joinPath path.dir path.name) c.workdir) = env.resolve (joinPath file.dir file.name) := by
  obtain ⟨workdir, imgSz, mem, cpus, -, -, -, -, rfl⟩ := Config.init_eq_ok h
  have hcfgFile : (Config.ofRaw env.toInitEnv raw none [] workdir imgSz mem cpus).cfgFile =
      some (cleanPath (joinPath path.dir path.name) workdir) := by
    simp [Config.ofRaw, hraw]
  constructor
  · rintro ⟨habs, p, hp, heq⟩
    cases hcfgFile.symm.trans hp
    exact ⟨habs _ List.mem_cons_self, heq⟩
  · rintro ⟨habs, heq⟩
    exact ⟨isAbsolute_ofRaw hresolve habs raw none [] imgSz mem cpus, _, hcfgFile, heq⟩

theorem isAbsolute_workdir {raw : RawConfig} {c : Config} (h : Config.init env.toInitEnv raw none [] = .ok c)
    (hraw : raw.cfgFile = some path) (hdir : isAbsolute path.dir = true) :
    isAbsolute c.workdir = true := by
  obtain ⟨workdir, imgSz, mem, cpus, hworkdir, -, -, -, rfl⟩ := Config.init_eq_ok h
  change isAbsolute workdir = true
  unfold RawConfig.initWorkdir at hworkdir
  rw [hraw] at hworkdir
  split at hworkdir
  · split at hworkdir
    · next habs =>
      cases hworkdir
      exact habs
    · cases hworkdir
      rw [isAbsolute_joinPath (ne_empty_of_isAbsolute hdir), hdir, Bool.or_true]
  · next hfile =>
    cases hfile
    cases hworkdir
    exact isAbsolute_cleanPath hdir raw.name
  · next hfile => cases hfile

def RawConfig.ownDir (raw : RawConfig) : String := raw.workdir.getD raw.name

theorem initWorkdir_eq {raw : RawConfig} (hraw : raw.cfgFile = some path) :
    raw.initWorkdir = .ok (cleanPath raw.ownDir path.dir) := by
  unfold RawConfig.initWorkdir RawConfig.ownDir
  rw [hraw]
  cases raw.workdir with
  | none => rfl
  | some workdir =>
    simp only [Option.getD_some, cleanPath]
    split <;> rfl

theorem workdir_of_init {raw : RawConfig} {c : Config} (h : Config.init env.toInitEnv raw none [] = .ok c)
    (hraw : raw.cfgFile = some path) : c.workdir = cleanPath raw.ownDir path.dir := by
  obtain ⟨workdir, imgSz, mem, cpus, hworkdir, -, -, -, rfl⟩ := Config.init_eq_ok h
  rw [initWorkdir_eq hraw] at hworkdir
  exact (Except.ok.inj hworkdir).symm

/-! ### A file with its jobs -/

theorem cleanPath_joinPath (dir p workdir : String) :
    cleanPath (joinPath dir p) workdir = joinPath (cleanPath dir workdir) p := by
  rw [cleanPath_eq, cleanPath_eq]
  exact Posix.join_assoc workdir dir p

theorem rooted_job {main c : Config} {job : ConfigDict ω} (hresolve : ∀ p, isAbsolute (env.resolve p) = true)
    (hworkdir : isAbsolute main.workdir = true)
    (hfile : env.resolve (cleanPath (joinPath path.dir path.name) main.workdir) =
      env.resolve (joinPath path.dir path.name))
    (h : Config.init env.toInitEnv (LoadEnv.jobDict path main job).raw none [] = .ok c) : c.Rooted env.resolve path := by
  have habs : isAbsolute (cleanPath path.dir main.workdir) = true := isAbsolute_cleanPath hworkdir path.dir
  have hraw : (LoadEnv.jobDict path main job).raw.cfgFile = some ⟨cleanPath path.dir main.workdir, path.name⟩ := rfl
  refine (rooted_iff hresolve h hraw path).mpr ⟨isAbsolute_workdir h hraw habs, ?_⟩
  have hjob : isAbsolute (joinPath (cleanPath path.dir main.workdir) path.name) = true := by
    rw [isAbsolute_joinPath (ne_empty_of_isAbsolute habs), habs, Bool.or_true]
  rw [← hfile, cleanPath_joinPath path.dir, cleanPath, if_pos hjob]

/-- A file and its jobs hold absolute paths and know the file exactly if it was found in an absolute directory, or
    is found again below an absolute 'workdir' (or its own name, without one). -/
theorem readConfig_rooted_iff {file : ConfigFile ω} {c : Parsed ω} (hresolve : ∀ p, isAbsolute (env.resolve p) = true)
    (hdir : path.dir ≠ "") (hload : env.load path = .ok file) (h : env.readConfig m path = .ok c) :
    (∀ node ∈ c.main :: c.jobs.vals, node.cfg.Rooted env.resolve path) ↔
      isAbsolute path.dir = true ∨ isAbsolute file.main.raw.ownDir = true ∧
        env.resolve (joinPath file.main.raw.ownDir (joinPath path.dir path.name)) =
          env.resolve (joinPath path.dir path.name) := by
  obtain ⟨file', hread⟩ := reads_of_readConfig h
  obtain rfl := Except.ok.inj (hload.symm.trans hread.load)
  have hmain := rooted_iff hresolve hread.main rfl path
  have hall : (∀ node ∈ c.main :: c.jobs.vals, node.cfg.Rooted env.resolve path) ↔
      c.main.cfg.Rooted env.resolve path := by
    refine ⟨fun hall => hall c.main List.mem_cons_self, fun hrooted => ?_⟩
    obtain ⟨hworkdir, hfile⟩ := hmain.mp hrooted
    refine List.forall_mem_cons.mpr ⟨hrooted, fun node hnode => ?_⟩
    obtain ⟨e, he, rfl⟩ := List.mem_map.mp hnode
    obtain ⟨job, -, hjob⟩ := hread.jobs e he
    exact rooted_job hresolve hworkdir hfile hjob.init
  rw [hall, hmain, cleanPath_eq]
  by_cases habs : isAbsolute path.dir = true
  · have hjoin : joinPath c.main.cfg.workdir (joinPath path.dir path.name) = joinPath path.dir path.name := by
      refine Posix.join_of_absolute ?_ _
      exact (isAbsolute_joinPath hdir _).trans (by rw [habs, Bool.or_true])
    simp [habs, hjoin, isAbsolute_workdir hread.main rfl habs]
  · -- A relative directory leaves the workload in the one of its options, if that is absolute.
    have hworkdir : c.main.cfg.workdir = cleanPath _ path.dir := workdir_of_init hread.main rfl
    change c.main.cfg.workdir = cleanPath file.main.raw.ownDir path.dir at hworkdir
    have hrel : isAbsolute path.dir = false := by simpa using habs
    by_cases hown : isAbsolute file.main.raw.ownDir = true
    · have heq : c.main.cfg.workdir = file.main.raw.ownDir := by rw [hworkdir, cleanPath, if_pos hown]
      simp [hrel, heq]
    · have hrelative : isAbsolute c.main.cfg.workdir = false := by
        rw [hworkdir, cleanPath_eq, isAbsolute_joinPath hdir, hrel, Bool.or_false]
        simpa using hown
      simp [hrel, hown, hrelative]

def overlayEnv : LoadEnv Unit where
  toInitEnv := { sampleInitEnv with resolve := (cleanPath · "/cwd") }
  iterdir _ := .ok ["x.yaml"]
  load _ := .ok { main := { raw := { name := "x", overlay := some "overlay" } }, jobs := [{ raw := { name := "job" } }] }
  initOpts _ _ _ opts := .ok opts

theorem readConfig_rooted_absolute : ∃ c, overlayEnv.readConfig ⟨[], "/images"⟩ ⟨"/wl", "x.yaml"⟩ = .ok c ∧
    ∀ node ∈ c.main :: c.jobs.vals, node.cfg.Rooted overlayEnv.resolve ⟨"/wl", "x.yaml"⟩ := by
  obtain ⟨c, hc, -⟩ : ∃ c, overlayEnv.readConfig ⟨[], "/images"⟩ ⟨"/wl", "x.yaml"⟩ = .ok c ∧
      c.main.cfg.overlay = some "/wl/x/overlay" := Except.exists_ok (by decide +kernel)
  have hresolve : ∀ p, isAbsolute (overlayEnv.resolve p) = true := isAbsolute_cleanPath (by decide)
  exact ⟨c, hc, (readConfig_rooted_iff hresolve (by decide) rfl hc).mpr (.inl (by decide))⟩

/-- With `--workdir wl`, paths stay relative, and 'cfg-file' names a file that does not exist. -/
theorem readConfig_relative : ∃ c, overlayEnv.readConfig ⟨[], "/images"⟩ ⟨"wl", "x.yaml"⟩ = .ok c ∧
    c.main.cfg.workdir = "wl/x" ∧ c.main.cfg.overlay = some "wl/x/overlay" ∧
    c.main.cfg.cfgFile = some "wl/x/wl/x.yaml" ∧ c.jobs.vals.map (·.cfg.workdir) = ["wl/x/wl/wl/x"] :=
  Except.exists_ok (by decide +kernel)

end FireMarshal
