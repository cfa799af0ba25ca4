import Mathlib.Algebra.Ring.Nat
import FireMarshal.Lib.Dict
import FireMarshal.Lib.Posix

/-! Workload configurations (`wlutil/config.py`): their options after `Config.__init__`, and what a configuration
takes from its base.

Paths are strings that spell them, and objects are known by references. An option that is absent from the dictionary of a
configuration is `none`; those that `Config.__init__` always sets are not optional. -/

namespace FireMarshal

/-- `p / q` of `pathlib`; an absolute `q` stays as it is. -/
def joinPath (p q : String) : String := Posix.join p q

/-! ### Option groups -/

structure RunSpec where
  path : Option String := none
  command : Option String := none
  args : List String := []
deriving DecidableEq, Repr

def RunSpec.str (r : RunSpec) : String :=
  match r.command, r.path with
  | some c, _ => c
  | none, some p => p ++ " " ++ " ".intercalate r.args
  | none, none => "uninitialized"

structure FileSpec where
  src : String
  dst : String
deriving DecidableEq, Repr

/-- The group 'linux'; a module without a source is one to remove. -/
structure Linux where
  source : Option String := none
  config : Option (List String) := none
  modules : Option (Dict String (Option String)) := none
deriving DecidableEq, Repr

structure Firmware where
  opensbiSrc : Option String := none
  opensbiBuildArgs : Option (List String) := none
  source : Option String := none
deriving DecidableEq, Repr

structure Testing where
  refDir : Option String := none
deriving DecidableEq, Repr

inductive PyError where
  | keyError (key : String)
  | valueError (message : String)
  | typeError (message : String)
  | indexError (message : String)
  | assertionError (message : String)
deriving DecidableEq, Repr

def PyError.repr : PyError → String
  | .keyError key => "KeyError('" ++ key ++ "')"
  | .valueError message => "ValueError('" ++ message ++ "')"
  | .typeError message => "TypeError('" ++ message ++ "')"
  | .indexError message => "IndexError('" ++ message ++ "')"
  | .assertionError message => "AssertionError('" ++ message ++ "')"

/-- Two values of the option 'linux' are equal. -/
def Linux.same (l m : Linux) : Bool :=
  l.source == m.source && l.config == m.config &&
    match l.modules, m.modules with
    | none, none => true
    | some d, some e => Dict.same d e
    | _, _ => false

def inheritLinuxOpts (config base : Option Linux) : Except PyError (Option Linux) :=
  match config, base with
  | none, base => .ok base
  | some l, none => .ok (some l)
  | some l, some b =>
    -- Later fragments take precedence over earlier ones.
    let config := match b.config, l.config with
      | some bc, some lc => some (bc ++ lc)
      | bc, lc => lc <|> bc
    let modules := match b.modules, l.modules with
      | some bm, some lm => some (Dict.merge bm lm)
      | bm, lm => lm <|> bm
    match modules with
    | none => .error (.keyError "modules")
    | some d =>
      .ok (some { source := l.source <|> b.source, config, modules := some (d.filter fun (_, src) => src.isSome) })

def inheritFirmwareOpts (config base : Option Firmware) : Except PyError (Option Firmware) :=
  let merged := match config, base with
    | none, base => base
    | some f, none => some f
    | some f, some b =>
      some
        { opensbiSrc := f.opensbiSrc <|> b.opensbiSrc
          opensbiBuildArgs := match b.opensbiBuildArgs, f.opensbiBuildArgs with
            | some ba, some fa => some (ba ++ fa)
            | ba, fa => fa <|> ba
          source := f.source <|> b.source }
  match merged with
  | none => .ok none
  | some f =>
    match f.opensbiSrc with
    | none => .error (.keyError "opensbi-src")
    | some src => .ok (some { f with source := some src })

/-! ### Configurations -/

/-- A reference to a Python object. -/
abbrev Ref := Nat

/-- The dictionary of a `Config`. The groups 'distro' and 'jobs' hold references: configurations share the
    dictionary of 'distro', and jobs are `Config` objects themselves. -/
structure Config where
  name : String
  base : Option String := none
  jobs : List Ref := []
  outDir : String
  workdir : String := ""
  imgHardcoded : Bool := false
  isDistro : Bool := false
  nodisk : Bool := false
  useParentBin : Bool := false
  baseDeps : List String := []
  cpus : Nat := 4
  mem : Nat := 16 * 2 ^ 30
  imgSz : Nat := 0
  runSpec : Option RunSpec := none
  run : Option String := none
  files : Option (List FileSpec) := none
  outputs : Option (List String) := none
  opensbiSrc : Option String := none
  opensbiBuildArgs : Option (List String) := none
  builder : Option String := none
  distro : Option Ref := none
  spike : Option (Option String) := none
  qemu : Option (Option String) := none
  launch : Option Bool := none
  bin : Option String := none
  img : Option String := none
  postRunHook : Option RunSpec := none
  spikeArgs : Option String := none
  rootfsSize : Option String := none
  qemuArgs : Option String := none
  baseImg : Option String := none
  baseBin : Option String := none
  dwarf : Option String := none
  baseDwarf : Option String := none
  hostInit : Option RunSpec := none
  postBin : Option RunSpec := none
  guestInit : Option RunSpec := none
  overlay : Option String := none
  linux : Option Linux := none
  firmware : Option Firmware := none
  cfgFile : Option String := none
  testing : Option Testing := none
deriving DecidableEq, Repr

namespace Config

/-- The options of `configInherit` that the configuration does not set. Of that list, 'out-dir', 'img-hardcoded',
    'cpus' and 'mem' are always set. -/
def inherit (self base : Config) : Config :=
  { self with
    runSpec := self.runSpec <|> base.runSpec
    files := self.files <|> base.files
    outputs := self.outputs <|> base.outputs
    opensbiSrc := self.opensbiSrc <|> base.opensbiSrc
    opensbiBuildArgs := self.opensbiBuildArgs <|> base.opensbiBuildArgs
    builder := self.builder <|> base.builder
    distro := self.distro <|> base.distro
    spike := self.spike <|> base.spike
    qemu := self.qemu <|> base.qemu
    launch := self.launch <|> base.launch
    bin := self.bin <|> base.bin
    img := self.img <|> base.img
    postRunHook := self.postRunHook <|> base.postRunHook
    spikeArgs := self.spikeArgs <|> base.spikeArgs
    rootfsSize := self.rootfsSize <|> base.rootfsSize
    qemuArgs := self.qemuArgs <|> base.qemuArgs }

def inheritTargets (self base : Config) : Config :=
  let self := match base.img with
    | some img =>
      { self with
        baseImg := some img
        baseDeps := self.baseDeps ++ [img]
        img := some (joinPath self.outDir (self.name ++ ".img")) }
    | none => self
  { self with
    baseBin := base.bin <|> self.baseBin
    baseDwarf := base.dwarf <|> self.baseDwarf
    baseDeps := self.baseDeps ++ (base.hostInit.map RunSpec.str).toList }

/-- The comparison behind 'use-parent-bin'. A `RunSpec` has no equality of its own, so that the 'host-init' of a
    configuration never equals that of its base. -/
def sameBinary (self base : Config) : Bool :=
  (match self.firmware with
    | none => true
    | some f => some f == base.firmware) &&
  (match self.linux, base.linux with
    | none, _ => true
    | some l, some m => l.same m
    | some _, none => false) &&
  self.hostInit.isNone

/-- The binary of a Linux workload; other workloads use that of the base directly. -/
def setBinary (self base : Config) : Config :=
  if self.linux.isSome then
    { self with
      bin := some (joinPath self.outDir (self.name ++ "-bin"))
      dwarf := some (joinPath self.outDir (self.name ++ "-bin-dwarf"))
      useParentBin := self.sameBinary base }
  else { self with useParentBin := false }

/-- The default of 'launch', for a workload without a base too. -/
def setLaunch (self : Config) : Config := { self with launch := some (self.launch.getD true) }

/-- The default of 'runSpec' is the script `null_run.sh` in the directory of wlutil. -/
def setRunSpec (wlutilDir : String) (self : Config) : Config :=
  if self.runSpec.isSome then self
  else
    { self with
      run := some (joinPath wlutilDir "null_run.sh")
      runSpec := some { path := some (joinPath wlutilDir "null_run.sh") } }

def applyBase (wlutilDir : String) (self base : Config) : Except PyError Config := do
  let self := (self.inherit base).inheritTargets base
  let linux ← inheritLinuxOpts self.linux base.linux
  let firmware ← inheritFirmwareOpts self.firmware base.firmware
  let self := { self with linux, firmware }
  .ok (((self.setBinary base).setLaunch).setRunSpec wlutilDir)

end Config
end FireMarshal
