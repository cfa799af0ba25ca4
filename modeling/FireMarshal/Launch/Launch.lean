import FireMarshal.Build.Workload
import FireMarshal.Lib.Raising

/-! Launching workloads in a simulator (`wlutil/launch.py`), and the loop of `main` over the configuration files of
`marshal launch` (`marshal`).

Simulators are commands that are started, and what they leave in their logs. Names of workloads are single components
of a path. -/

namespace FireMarshal

inductive LaunchError where
  | python (e : PyError)
  | nameError (name : String)
  | runtimeError (message : String)
  | fileExistsError (path : String)
  | calledProcessError (returncode : Int) (cmd : String)
deriving DecidableEq, Repr

structure LaunchEnv where
  resDir : String
  riscv : Option String
  isFile : String → Bool
  /-- What exists before the first launch. -/
  pathExists : String → Bool
  /-- The port that is found free for the n-th simulator of a launch. -/
  freeTcpPort : Nat → String
  /-- The lines of a log once its simulator has ended; `none` if there is no such file. -/
  readlines : String → Option (List String)
  /-- The exception that `copyImgFiles` raises for an image, if any. -/
  copyImgFiles : String → List FileSpec → Option LaunchError
  /-- The exception that `run` raises for a command and a directory, if any. -/
  run : List String → String → Option LaunchError
  hasJobs : Ref → Bool

/-! ### Commands -/

def strOrNone : Option String → String := (·.getD "None")

def Config.memStr (c : Config) : String := toString (c.mem / (1024 * 1024))

def spikeDisk (env : LaunchEnv) (img : String) : Except PyError String :=
  match env.riscv with
  | none => .error (.valueError "The RISCV environment variable is not set")
  | some riscvLibPath =>
    if env.isFile (riscvLibPath ++ "/lib/libspikedevices.so") then
      .ok ("--extlib=libspikedevices.so --device=\"iceblk,img=" ++ img ++ "\" ")
    else
      .error (.valueError
        "Spike does not support disk-based configurations without libspikedevices.so installed by Chipyard")

def spikeArgs (env : LaunchEnv) (config : Config) (nodisk : Bool) : Except PyError String :=
  match config.img with
  | none => .ok ""
  | some img => if config.imgHardcoded || nodisk then .ok "" else spikeDisk env img

def Config.exe (c : Config) (nodisk : Bool) : Except PyError String :=
  match c.bin with
  | none => .error (.keyError "bin")
  | some bin => .ok (if nodisk then noDiskPath bin else bin)

def getSpikeCmd (env : LaunchEnv) (config : Config) (nodisk : Bool) : Except PyError String := do
  let args ← spikeArgs env config nodisk
  let exe ← config.exe nodisk
  .ok (" ".intercalate
    [(config.spike.map strOrNone).getD "spike", args, config.spikeArgs.getD "",
      " -p" ++ toString config.cpus, " -m" ++ config.memStr, exe])

def getQemuCmd (launchPort : String) (config : Config) (nodisk : Bool) : Except PyError String := do
  let exe ← config.exe nodisk
  let disk := match config.img with
    | none => []
    | some img =>
      if nodisk then [] else ["-device", "virtio-blk-device,drive=hd0", "-drive", "file=" ++ img ++ ",format=raw,id=hd0"]
  .ok (" ".intercalate
    ([(config.qemu.map strOrNone).getD "qemu-system-riscv64", "-nographic", "-bios none",
      "-smp", toString config.cpus, "-machine", "virt", "-m", config.memStr, "-kernel", exe,
      "-object", "rng-random,filename=/dev/urandom,id=rng0", "-device", "virtio-rng-device,rng=rng0",
      "-device", "virtio-net-device,netdev=usernet",
      "-netdev", "user,id=usernet,hostfwd=tcp::" ++ launchPort ++ "-:22"] ++ disk) ++
    " " ++ config.qemuArgs.getD "")

/-! ### One launch -/

/-- What a launch has done, and the variables that its loops share. A file is copied out of an image. -/
structure Launch where
  runResDir : Option String := none
  uartlogs : List String := []
  resDirs : List String := []
  jobProcs : List String := []
  copies : List (String × FileSpec) := []
  hook : Option (List String × String) := none
deriving DecidableEq, Repr

/-- The body of the first loop of `launchWorkload`. -/
def startJob (env : LaunchEnv) (baseResDir : String) (spike : Bool) (config : Config) (l : Launch) :
    Launch × Option LaunchError :=
  match config.launch with
  | none => (l, some (.python (.keyError "launch")))
  | some false => (l, none)
  | some true =>
    let runResDir := joinPath baseResDir config.name
    let uartLog := joinPath runResDir "uartlog"
    let l := { l with runResDir := some runResDir, uartlogs := l.uartlogs ++ [uartLog] }
    if env.pathExists runResDir || l.resDirs.contains runResDir then (l, some (.fileExistsError runResDir))
    else
      let l := { l with resDirs := l.resDirs ++ [runResDir] }
      let cmd := if spike then getSpikeCmd env config config.nodisk
        else getQemuCmd (env.freeTcpPort l.jobProcs.length) config config.nodisk
      match cmd with
      | .error e => (l, some (.python e))
      | .ok cmd => ({ l with jobProcs := l.jobProcs ++ ["script -f -c \"" ++ cmd ++ "\" " ++ uartLog] }, none)

def contains (line marker : String) : Bool := line.toList.tails.any fun rest => marker.toList.isPrefixOf rest

/-- The last line of a log tells how the command ended. -/
def checkUartlog (env : LaunchEnv) (uartlog : String) (l : Launch) : Launch × Option LaunchError :=
  match env.readlines uartlog with
  | none => (l, some (.runtimeError ("Unable to check output of job with " ++ uartlog ++ " uartlog.")))
  | some lines =>
    match lines.getLast? with
    | none => (l, some (.python (.indexError "list index out of range")))
    | some lastLine =>
      if contains lastLine "COMMAND_EXIT_CODE=\"0\"" then (l, none)
      else
        (l, some (.runtimeError "One (or more) job(s) returned a non-zero error code. Please check output."))

/-- The list `outputSpec`, for which `runResDir` is read once for each file. -/
def outputSpec (runResDir : Option String) (outputs : List String) : Except LaunchError (List FileSpec) :=
  outputs.mapM fun f =>
    match runResDir with
    | none => .error (.nameError "runResDir")
    | some dst => .ok { src := f, dst }

/-- The body of the last loop of `launchWorkload`. -/
def copyOutputs (env : LaunchEnv) (config : Config) (l : Launch) : Launch × Option LaunchError :=
  match config.outputs with
  | none => (l, none)
  | some outputs =>
    match outputSpec l.runResDir outputs with
    | .error e => (l, some e)
    | .ok files =>
      match config.img with
      | none => (l, some (.python (.keyError "img")))
      | some img => ({ l with copies := l.copies ++ files.map fun f => (img, f) }, env.copyImgFiles img files)

/-- The script runs in the directory of the configuration that the loops came to last. The exception for its failure
    has no output. -/
def runPostRunHook (env : LaunchEnv) (baseResDir : String) (baseConfig : Config) (configs : List Config) (l : Launch) :
    Launch × Option LaunchError :=
  match baseConfig.postRunHook with
  | none => (l, none)
  | some hook =>
    match configs.getLast?, hook.path with
    | none, _ => (l, some (.nameError "config"))
    | some _, none =>
      (l, some (.python (.typeError "expected str, bytes or os.PathLike object, not NoneType")))
    | some config, some path =>
      let prhCmd := [path] ++ hook.args ++ [baseResDir]
      let l := { l with hook := some (prhCmd, config.workdir) }
      match env.run prhCmd config.workdir with
      | some (.calledProcessError _ _) => (l, some (.runtimeError "Post run hook failed:\nNone"))
      | e => (l, e)

/-- The loops of `launchWorkload` over its configurations, and what follows. -/
def launchConfigs (env : LaunchEnv) (baseResDir : String) (spike : Bool) (baseConfig : Config)
    (configs : List Config) : Launch × Option LaunchError :=
  Raising.andThen (Raising.each (startJob env baseResDir spike) configs {}) fun l =>
  Raising.andThen (Raising.each (checkUartlog env) l.uartlogs l) fun l =>
  Raising.andThen (Raising.each (copyOutputs env) configs l) fun l =>
  runPostRunHook env baseResDir baseConfig configs l

def getJob (env : LaunchEnv) (val : Ref → Config) (r : Ref) (j : String) : Except PyError Ref :=
  if env.hasJobs r then
    match (val r).jobs.find? fun job => (val job).name = j with
    | none => .error (.keyError j)
    | some job => .ok job
  else .error (.keyError "jobs")

def selectConfigs (env : LaunchEnv) (val : Ref → Config) (r : Ref) : Option (List String) → Except PyError (List Ref)
  | none => .ok [r]
  | some jobs => jobs.mapM (getJob env val r)

def launchWorkload (env : LaunchEnv) (runName : String) (val : Ref → Config) (r : Ref) (jobs : Option (List String))
    (spike : Bool) : Launch × Option LaunchError :=
  if spike ∧ (val r).spike = some none then ({}, some (.runtimeError "This workload does not support spike"))
  else if ¬ spike ∧ (val r).qemu = some none then ({}, some (.runtimeError "This workload does not support qemu"))
  else
    match selectConfigs env val r jobs with
    | .error e => ({}, some (.python e))
    | .ok configs => launchConfigs env (joinPath env.resDir runName) spike (val r) (configs.map val)

/-! ### The loop over configuration files -/

structure LaunchArgs where
  job : Option (List String) := none
  all : Bool := false
  spike : Bool := false
  initramfs : Bool := false
  noDisk : Bool := false
deriving DecidableEq, Repr

/-- A call of `launchWorkload`, with the list `configs` in it. -/
structure LaunchCall where
  target : Ref
  jobs : Option (List String)
  configs : Option (List Ref)
  result : Launch × Option LaunchError
deriving DecidableEq, Repr

/-- The variables of `main`, which assigns `args.job`, and the calls so far. -/
structure LaunchSession where
  val : Ref → Config
  args : LaunchArgs
  calls : List LaunchCall := []

/-- The number of launches that failed; an exception of theirs is logged only. -/
def LaunchSession.failCount (s : LaunchSession) : Nat := s.calls.countP fun call => call.result.2.isSome

/-- What `args.job` becomes; job-configs are named special internally. -/
def LaunchArgs.nextJob (env : LaunchEnv) (args : LaunchArgs) (val : Ref → Config) (r : Ref) :
    Except PyError (Option (List String)) :=
  if args.all then
    if env.hasJobs r then .ok (some ((val r).jobs.map fun job => (val job).name)) else .error (.keyError "jobs")
  else .ok (args.job.map fun jobs => jobs.map fun job => (val r).name ++ "-" ++ job)

def LaunchArgs.mark (args : LaunchArgs) (val : Ref → Config) (r : Ref) : Ref → Config :=
  if args.initramfs || args.noDisk then setNoDisk val r else val

/-- The body of the loop in `main`; `setRunName` finds a new name for each of its rounds. -/
def launchCommand (env : LaunchEnv) (setRunName : Nat → String) (cfgs : Dict String Ref) (cfgName : String)
    (s : LaunchSession) : LaunchSession × Option Exit :=
  match cfgs.lookup cfgName with
  | none => (s, some (.unknownWorkload cfgName))
  | some r =>
    let s := { s with val := s.args.mark s.val r }
    match s.args.nextJob env s.val r with
    | .error e => (s, some (.raised e))
    | .ok job =>
      let call := {
        target := r
        jobs := job
        configs := (selectConfigs env s.val r job).toOption
        result := launchWorkload env (setRunName s.calls.length) s.val r job s.args.spike }
      ({ s with args := { s.args with job }, calls := s.calls ++ [call] }, none)

def launchCommands (env : LaunchEnv) (setRunName : Nat → String) (cfgs : Dict String Ref) :
    List String → LaunchSession → LaunchSession × Option Exit :=
  Raising.each (launchCommand env setRunName cfgs)

end FireMarshal
