import FireMarshal.Lib.Registry
import FireMarshal.Config.Config

/-! The task graph that is handed to doit (`wlutil/build.py`).

Tasks keep what doit reads of them: their name, action, targets and dependencies. `addDep` offers the tasks of one
configuration in a fixed order, and raises at the first option that it reads and that is missing; both are
definitions of their own here. -/

namespace FireMarshal

def noDiskPath (path : String) : String := path ++ "-nodisk"

inductive Action where
  | buildBusybox
  | handleHostInit (config : Config)
  | submoduleDeps (submodules : List String)
  | kmodDeps (config : Config)
  | makeBin (config : Config) (nodisk : Bool)
  | handlePostBin (config : Config) (linuxBin : String)
  | fileDeps (overlay : Option String) (files : Option (List FileSpec))
  | makeImage (config : Config)
  | buildBaseImage (builder : String)
deriving DecidableEq, Repr

structure Task where
  name : String
  action : Action
  targets : List String := []
  fileDep : List String := []
  taskDep : List String := []
  calcDep : List String := []
deriving DecidableEq, Repr

def addTask : List Task → Task → List Task := Registry.add Task.name

/-- What the graph depends on besides the configurations. -/
structure BuildEnv where
  initramfsDir : String
  wlutilDir : String
  /-- `fileDeps()` of the builder of a distro -/
  fileDeps : String → List String

namespace Config

/-! ### The tasks of a configuration -/

def busyboxTask (env : BuildEnv) : Task where
  name := "build_busybox"
  action := .buildBusybox
  targets :=
    [joinPath (joinPath (joinPath env.initramfsDir "disk") "bin") "busybox",
      joinPath (joinPath (joinPath env.initramfsDir "nodisk") "bin") "busybox"]
  fileDep := [joinPath env.wlutilDir "busybox-config"]

def hostInitDeps (c : Config) : List String := (c.hostInit.map RunSpec.str).toList

def hostInitTasks (c : Config) : List Task :=
  c.hostInit.toList.map fun h => { name := h.str, action := .handleHostInit c }

def binFileDeps (c : Config) : List String := (c.linux.bind Linux.config).getD []

def binTaskDeps (c : Config) : List String :=
  c.hostInitDeps ++ c.baseDeps ++ (if c.linux.isSome then ["build_busybox"] else []) ++
    (if c.useParentBin then c.baseBin.toList else [])

/-- The list that the submodule task holds; the source of Linux is appended to it after the task was made. -/
def moddeps (c : Config) : List String :=
  (c.firmware.bind Firmware.source).toList ++ (c.linux.bind Linux.source).toList

def submoduleDepsTask (c : Config) : Task where
  name := "_submodule_deps_" ++ c.name
  action := .submoduleDeps c.moddeps

def kmodDepsTask (c : Config) : Task where
  name := "_kmod_deps_" ++ c.name
  action := .kmodDeps c

def binCalcDepTasks (c : Config) : List Task :=
  c.submoduleDepsTask :: if c.linux.isSome then [c.kmodDepsTask] else []

def binTask (c : Config) (bin : String) : Task where
  name := bin
  action := .makeBin c false
  targets := bin :: c.dwarf.toList
  fileDep := c.binFileDeps
  taskDep := c.binTaskDeps
  calcDep := c.binCalcDepTasks.map Task.name

def nodiskTask (c : Config) (bin : String) : Task where
  name := noDiskPath bin
  action := .makeBin c true
  targets := noDiskPath bin :: (c.dwarf.map noDiskPath).toList
  fileDep := c.binFileDeps ++ c.img.toList
  taskDep := c.binTaskDeps ++ c.img.toList

/-- `diskBin + nodiskBin` -/
def postBinTaskDeps (c : Config) : List String :=
  c.bin.toList ++ if c.nodisk then (c.bin.map noDiskPath).toList else []

def postBinTask (c : Config) (bin : String) (script : RunSpec) : Task where
  name := script.str
  action := .handlePostBin c bin
  taskDep := c.postBinTaskDeps

/-- The task that computes the file dependencies of the image holds this same list, with what is appended later. -/
def imgTaskDeps (c : Config) : List String :=
  c.hostInitDeps ++ (c.postBin.map RunSpec.str).toList ++ c.baseDeps ++
    if c.guestInit.isSome then c.bin.toList else []

def hasFiles (c : Config) : Bool := c.files.isSome || c.overlay.isSome

def fileDepsTask (c : Config) : Task where
  name := "calc_" ++ c.name ++ "_dep"
  action := .fileDeps c.overlay c.files
  taskDep := c.imgTaskDeps

def imgFileDeps (c : Config) : List String :=
  c.baseImg.toList ++ (c.guestInit.bind RunSpec.path).toList ++ (c.runSpec.bind RunSpec.path).toList ++
    c.cfgFile.toList

def imgTask (c : Config) (img : String) : Task where
  name := img
  action := .makeImage c
  targets := [img]
  fileDep := c.imgFileDeps
  taskDep := c.imgTaskDeps
  calcDep := if c.hasFiles then [c.fileDepsTask.name] else []

def depTasks (env : BuildEnv) (c : Config) : List Task :=
  [busyboxTask env] ++ c.hostInitTasks ++
    (c.bin.toList.flatMap fun bin => c.binCalcDepTasks ++ [c.binTask bin]) ++
    (if c.nodisk then c.bin.toList.map c.nodiskTask else []) ++
    (c.bin.toList.flatMap fun bin => c.postBin.toList.map (c.postBinTask bin)) ++
    (c.img.toList.flatMap fun img => (if c.hasFiles then [c.fileDepsTask] else []) ++ [c.imgTask img])

/-- The first option that `addDep` misses, if any. -/
def missingOption (c : Config) : Option PyError :=
  (c.linux.bind fun l =>
    if l.config.isNone then some (.keyError "config")
    else if c.dwarf.isNone then some (.keyError "dwarf") else none) <|>
  (if c.useParentBin ∧ c.baseBin.isNone then some (.keyError "base-bin") else none) <|>
  (c.bin.bind fun _ =>
    (c.firmware.bind fun f => if f.source.isNone then some (.keyError "source") else none) <|>
    (c.linux.bind fun l => if l.source.isNone then some (.keyError "source") else none)) <|>
  (if c.postBin.isSome ∧ c.bin.isNone then some (.indexError "list index out of range") else none) <|>
  (c.img.bind fun _ =>
    (if c.guestInit.isSome ∧ c.bin.isNone then some (.keyError "bin") else none) <|>
    (if c.distro.isSome ∧ c.builder.isNone then some (.keyError "builder") else none))

/-- The workload of a distro itself, whose image the builder makes. -/
def isBaseImage (c : Config) : Bool := c.isDistro && c.img.isSome

end Config

/-! ### The graph -/

def addDep (env : BuildEnv) (loader : List Task) (c : Config) : Except PyError (List Task) :=
  match c.missingOption with
  | some e => .error e
  | none => .ok ((c.depTasks env).foldl addTask loader)

def baseImageTask (env : BuildEnv) (builder img : String) : Task where
  name := img
  action := .buildBaseImage builder
  targets := [img]
  fileDep := env.fileDeps builder

def addBaseImage (env : BuildEnv) (loader : List Task) (c : Config) (img : String) : Except PyError (List Task) :=
  match c.builder with
  | none => .error (.keyError "builder")
  | some builder => .ok (addTask loader (baseImageTask env builder img))

def addConfig (env : BuildEnv) (val : Ref → Config) (loader : List Task) (r : Ref) : Except PyError (List Task) :=
  match (val r).isDistro, (val r).img with
  | true, some img => addBaseImage env loader (val r) img
  | _, _ =>
    addDep env loader (val r) >>= fun loader =>
      (val r).jobs.foldlM (fun loader job => addDep env loader (val job)) loader

def buildDepGraph (env : BuildEnv) (cfgs : Dict String Ref) (val : Ref → Config) : Except PyError (List Task) :=
  cfgs.vals.foldlM (addConfig env val) []

/-- A task of the graph needs another one to run first. -/
def Needs (g : List Task) (t u : Task) : Prop :=
  t ∈ g ∧ u ∈ g ∧ (u.name ∈ t.taskDep ∨ u.name ∈ t.calcDep ∨ u ≠ t ∧ ∃ f ∈ t.fileDep, f ∈ u.targets)

instance (g : List Task) (t u : Task) : Decidable (Needs g t u) := inferInstanceAs (Decidable (_ ∧ _ ∧ _))

end FireMarshal
