import FireMarshal.Build.Graph

/-! Builds of one `marshal` process: `buildWorkload` (`wlutil/build.py`), `testWorkload` (`wlutil/test.py`) as far as
it builds, and the loop of `main` over its configuration files (`marshal`).

The task graph is a global variable that the first build sets. What doit is asked for is recorded with the graph in
use at that moment; its answer does not matter to the loop. -/

namespace FireMarshal

structure Request where
  targets : List String
  graph : List Task
deriving DecidableEq, Repr

structure Session where
  val : Ref → Config
  taskLoader : Option (List Task) := none
  requests : List Request := []

/-! ### One build -/

namespace Config

def requestedBins (c : Config) : List String := c.bin.toList.map fun bin => if c.nodisk then noDiskPath bin else bin

def requestedJobBins (c : Config) : List String :=
  c.bin.toList.flatMap fun bin => bin :: if c.nodisk then [noDiskPath bin] else []

def requestedImgs (c : Config) : List String := if c.imgHardcoded then [] else c.img.toList

end Config

/-- What a build of a workload asks for; the binaries of jobs are read without a check. -/
def targets (buildBin buildImg : Bool) (val : Ref → Config) (r : Ref) : Except PyError (List String) :=
  if buildBin ∧ ∃ job ∈ (val r).jobs, (val job).bin = none then .error (.keyError "bin")
  else
    .ok
      ((if buildBin then (val r).requestedBins ++ (val r).jobs.flatMap fun job => (val job).requestedJobBins else []) ++
      if buildImg then (val r).requestedImgs ++ (val r).jobs.flatMap fun job => (val job).requestedImgs else [])

/-- The graph in use, which the first build makes. -/
def Session.loader (env : BuildEnv) (cfgs : Dict String Ref) (s : Session) : Except PyError (List Task) :=
  match s.taskLoader with
  | some loader => .ok loader
  | none => buildDepGraph env cfgs s.val

/-- `buildWorkload`, and the exception that it raises. -/
def buildWorkload (env : BuildEnv) (cfgs : Dict String Ref) (buildBin buildImg : Bool) (r : Ref) (s : Session) :
    Session × Option PyError :=
  match s.loader env cfgs with
  | .error e => (s, some e)
  | .ok loader =>
    match targets buildBin buildImg s.val r with
    | .error e => ({ s with taskLoader := some loader }, some e)
    | .ok ts => ({ s with taskLoader := some loader, requests := s.requests ++ [⟨ts, loader⟩] }, none)

/-- `testWorkload`, whose build is skipped for a manual test. Exceptions of the build fail the test only. -/
def testWorkload (env : BuildEnv) (cfgs : Dict String Ref) (manual : Option String) (r : Ref) (s : Session) :
    Session × Option PyError :=
  match (s.val r).testing with
  | none => (s, none)
  | some testCfg =>
    match testCfg.refDir, manual with
    | none, _ => (s, some (.keyError "refDir"))
    | some _, some _ => (s, none)
    | some _, none => ((buildWorkload env cfgs true true r s).1, none)

/-! ### The loop over configuration files -/

inductive Command where
  | build (binOnly imgOnly : Bool)
  | test (manual : Option String)
deriving DecidableEq, Repr

structure Args where
  command : Command
  initramfs : Bool := false
  noDisk : Bool := false
deriving DecidableEq, Repr

inductive Exit where
  | unknownWorkload (cfgName : String)
  | raised (e : PyError)
deriving DecidableEq, Repr

def setNoDisk (val : Ref → Config) (r : Ref) : Ref → Config :=
  fun q => if q = r ∨ q ∈ (val r).jobs then { val q with nodisk := true } else val q

/-- The configurations when it is the turn of one. -/
def Args.mark (args : Args) (val : Ref → Config) (r : Ref) : Ref → Config :=
  if args.initramfs || args.noDisk then setNoDisk val r else val

/-- Which targets are built; both, unless just one is asked for. -/
def Command.buildBin : Command → Bool
  | .build binOnly imgOnly => binOnly || !imgOnly
  | .test _ => true

def Command.buildImg : Command → Bool
  | .build binOnly imgOnly => imgOnly || !binOnly
  | .test _ => true

/-- The body of the loop in `main`. -/
def runCommand (env : BuildEnv) (cfgs : Dict String Ref) (args : Args) (cfgName : String) (s : Session) :
    Session × Option Exit :=
  match cfgs.lookup cfgName with
  | none => (s, some (.unknownWorkload cfgName))
  | some r =>
    let s := { s with val := args.mark s.val r }
    let (s, e) := match args.command with
      | .build .. => buildWorkload env cfgs args.command.buildBin args.command.buildImg r s
      | .test manual => testWorkload env cfgs manual r s
    (s, e.map .raised)

/-- The loop of `main`. -/
def runCommands (env : BuildEnv) (cfgs : Dict String Ref) (args : Args) :
    List String → Session → Session × Option Exit
  | [], s => (s, none)
  | cfgName :: rest, s =>
    match runCommand env cfgs args cfgName s with
    | (s, some e) => (s, some e)
    | (s, none) => runCommands env cfgs args rest s

end FireMarshal
