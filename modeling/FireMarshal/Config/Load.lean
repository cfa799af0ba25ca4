import FireMarshal.Config.Distros
import FireMarshal.Config.Init
import FireMarshal.Config.Manager

/-! The loading loops of `ConfigManager.__init__`, and `findConfig` (`wlutil/config.py`).

Files are read and turned into configurations first, and then put into the pool of objects. -/

namespace FireMarshal

/-! ### Files -/

/-- A dictionary of options with its groups 'name' and 'opts' of 'distro'. -/
structure ConfigDict (ω : Type) where
  raw : RawConfig
  distro : Option (String × ω) := none

structure ConfigFile (ω : Type) where
  main : ConfigDict ω
  jobs : List (ConfigDict ω) := []

/-- What loading takes from its surroundings: the names in a directory, the contents of a file, and `initOpts` of the
    distro modules for the name and the directory of a configuration. -/
structure LoadEnv (ω : Type) extends InitEnv where
  iterdir : String → Except PyError (List String)
  load : FilePath → Except PyError (ConfigFile ω)
  initOpts : String → String → String → ω → Except PyError ω

def findConfig (iterdir : String → Except PyError (List String)) (targetName : String) :
    List String → Except PyError (Option FilePath)
  | [] => .ok none
  | searchDir :: searchPaths =>
    iterdir searchDir >>= fun candidates =>
    if targetName ∈ candidates then .ok (some ⟨searchDir, targetName⟩) else findConfig iterdir targetName searchPaths

/-- The search paths that `main` of `marshal` sets up, as the keys of an ordered dictionary. -/
def workdirs (builtin : String) (workloadDirs : List String) (workdir : Option String) (cwd : String) : List String :=
  Dict.fromKeys (builtin :: (workloadDirs ++ workdir.toList ++ [cwd]))

def parentDir (path : String) : String :=
  match path.toList.reverse.dropWhile (· ≠ '/') with
  | [] => "."
  | ['/'] => "/"
  | _ :: dir => String.ofList dir.reverse

/-! ### Options of distros -/

/-- `initOpts` of `br.py`; `expandvars` is `os.path.expandvars` where one more variable is set. -/
def br.initOpts (expandvars : String × String → String → String) (name workdir : String) (opts : DistroOpts) :
    DistroOpts :=
  let pathVar := name.toUpper.replace "-" "_" ++ "_PATH"
  let environment := Dict.mapVals (fun _ v => expandvars (pathVar, workdir) v) (opts.environment.getD [])
  { configs := some ((opts.configs.getD []).map (cleanPath · workdir))
    environment := some (Dict.merge environment [(pathVar, workdir)]) }

/-- `initOpts` of the modules of the default board; only that for Buildroot does something. -/
def initOpts (expandvars : String × String → String → String) (distro name workdir : String) (opts : DistroOpts) :
    DistroOpts :=
  if distro = "br" then br.initOpts expandvars name workdir opts else opts

instance : Inhabited DistroOpts := ⟨{}⟩

/-! ### Configurations -/

/-- A configuration that is not in a pool yet, with its dictionary 'distro'. -/
structure ConfigNode (ω : Type) where
  cfg : Config
  distro : Option (Distro ω)

structure Parsed (ω : Type) where
  main : ConfigNode ω
  jobs : Dict String (ConfigNode ω)

variable {ω : Type}

namespace LoadEnv

variable (env : LoadEnv ω) (m : Marshal ω)

def initDistro (dict : ConfigDict ω) : Except PyError (Option (Distro ω)) :=
  match dict.distro with
  | none => .ok none
  | some (name, opts) =>
    dict.raw.initWorkdir >>= fun workdir =>
    if m.distroMods.hasKey name then
      env.initOpts name dict.raw.name workdir opts >>= fun opts => .ok (some { name, opts, leaf := true })
    else .error (.keyError name)

def readDict (dict : ConfigDict ω) : Except PyError (ConfigNode ω) :=
  env.initDistro m dict >>= fun distro =>
  Config.init env.toInitEnv dict.raw none [] >>= fun cfg => .ok ⟨cfg, distro⟩

/-- What `Config.__init__` adds to the dictionary of a job. By then a relative 'cfg-file' is put below the 'workdir'. -/
def jobDict (cfgFile : FilePath) (main : Config) (job : ConfigDict ω) : ConfigDict ω :=
  { job with
    raw :=
      { job.raw with
        workdir := some main.workdir
        name := main.name ++ "-" ++ job.raw.name
        cfgFile := some { cfgFile with dir := cleanPath cfgFile.dir main.workdir }
        base := some (job.raw.base.getD cfgFile.name) } }

/-- `Config(cfgFile)` -/
def readConfig (cfgFile : FilePath) : Except PyError (Parsed ω) :=
  env.load cfgFile >>= fun file =>
  env.readDict m { file.main with raw := { file.main.raw with cfgFile := some cfgFile } } >>= fun main =>
  file.jobs.foldlM (fun jobs job =>
    env.readDict m (jobDict cfgFile main.cfg job) >>= fun node =>
    .ok (Dict.merge jobs [(node.cfg.name, node)])) [] >>= fun jobs =>
  .ok ⟨main, jobs⟩

end LoadEnv

namespace Pool

/-- `self.cfgs[name] = r` -/
def setKey (p : Pool ω) (name : String) (r : Ref) : Pool ω := { p with cfgs := p.cfgs.merge [(name, r)] }

def newNode (p : Pool ω) (node : ConfigNode ω) (jobs : List Ref) : Pool ω :=
  match node.distro with
  | none => p.newCfg { node.cfg with distro := none, jobs }
  | some d => (p.newDist d).newCfg { node.cfg with distro := some p.next, jobs }

def newJobs (p : Pool ω) : List (ConfigNode ω) → List Ref × Pool ω
  | [] => ([], p)
  | node :: nodes =>
    let q := p.newNode node []
    let rest := q.newJobs nodes
    (q.last :: rest.1, rest.2)

/-- New objects for what was read from a file; the configuration is the object that is allocated last. -/
def newConfig (p : Pool ω) (c : Parsed ω) : Pool ω :=
  let jobs := p.newJobs c.jobs.vals
  jobs.2.newNode c.main jobs.1

def empty [Inhabited ω] : Pool ω where
  cfgs := []
  cfg _ := { name := "", outDir := "" }
  dist _ := { name := "", opts := default, leaf := false }
  initialized _ := false
  next := 0

end Pool

/-! ### The loops -/

inductive ConfigName where
  | path (file : FilePath)
  | name (cfgName : String)
deriving DecidableEq, Repr

def ConfigName.str : ConfigName → String
  | path file => joinPath file.dir file.name
  | name cfgName => cfgName

inductive LoadError where
  | config (e : WorkloadConfigError)
  | python (e : PyError)
deriving DecidableEq, Repr

def liftPython {α : Type} : Except PyError α → Except (Memo.Failure LoadError) α
  | .ok a => .ok a
  | .error e => .error (.raised (.python e))

namespace LoadEnv

variable (env : LoadEnv ω) (m : Marshal ω) (searchPaths : List String)

def locate : ConfigName → Except PyError (Option FilePath)
  | .path file => .ok (some file)
  | .name cfgName => findConfig env.iterdir cfgName searchPaths

/-- The body of the loop over `configNames`; also the name of the file. -/
def loadExplicit (p : Pool ω) (cfgName : ConfigName) : Except (Memo.Failure LoadError) (String × Pool ω) :=
  liftPython (env.locate searchPaths cfgName) >>= fun cfgPath =>
  match cfgPath with
  | none =>
    .error (.raised (.config { path := cfgName.str, extra := some "Could not locate workload" }))
  | some cfgPath =>
    liftPython (env.readConfig m cfgPath) >>= fun targetCfg =>
    let q := p.newConfig targetCfg
    -- Jobs are workloads of their own.
    .ok (cfgPath.name, (q.cfg q.last).jobs.foldl (fun q j => q.setKey (q.cfg j).name j) (q.setKey cfgPath.name q.last))

/-- A base is also looked for beside the file of the configuration. -/
def findBase (cfgFile : Option String) (parentName : String) : Except PyError (Option FilePath) :=
  match cfgFile with
  | none => .error (.keyError "cfg-file")
  | some cfgFile => findConfig env.iterdir parentName (searchPaths ++ [parentDir cfgFile])

/-- The loop that loads the chain of bases of a configuration, which is from `cfgFile`. -/
def loadParents (cfgFile : Option String) :
    Nat → String → Option String → Pool ω → Except (Memo.Failure LoadError) (Pool ω)
  | 0, _, _, _ => .error .outOfFuel
  | _ + 1, _, none, p => .ok p
  | n + 1, currentName, some parentName, p =>
    if p.cfgs.hasKey parentName || m.distroMods.hasKey parentName then .ok p
    else
      liftPython (env.findBase searchPaths cfgFile parentName) >>= fun parentPath =>
      match parentPath with
      | none =>
        .error (.raised (.config
          { path := currentName, opt := some "base"
            extra := some ("Could not locate base workload '" ++ parentName ++ "'") }))
      | some parentPath =>
        liftPython (env.readConfig m parentPath) >>= fun parentCfg =>
        let q := p.newConfig parentCfg
        loadParents cfgFile n parentName (q.cfg q.last).base (q.setKey parentName q.last)

/-- The body of the loop over the configurations that are loaded explicitly. -/
def loadBases (n : Nat) (cfgName : String) (p : Pool ω) (targetCfg : Ref) : Except (Memo.Failure LoadError) (Pool ω) :=
  env.loadParents m searchPaths (p.cfg targetCfg).cfgFile n cfgName (p.cfg targetCfg).base p

/-- The loops of `ConfigManager.__init__` that load configurations. -/
def loadConfigs [Inhabited ω] (n : Nat) (configNames : List ConfigName) : Except (Memo.Failure LoadError) (Pool ω) :=
  configNames.foldlM (fun s cfgName => env.loadExplicit m searchPaths s.2 cfgName) ("", .empty) >>= fun s =>
  s.2.cfgs.vals.foldlM (env.loadBases m searchPaths n s.1) s.2

end LoadEnv
end FireMarshal
