import FireMarshal.Lib.Except
import FireMarshal.Config.Config

/-! `Config.__init__` (`wlutil/config.py`): the options of a file, and their canonical form.

The options are those that later steps read. Functions of other packages are parameters. -/

namespace FireMarshal

/-- What `Config.__init__` takes from its surroundings: the directory for images with the name of the board,
    `Path.resolve`, `humanfriendly.parse_size`, and `int`. -/
structure InitEnv where
  imageDir : String
  resolve : String → String
  parseSize : String → Except PyError Nat
  int : String → Except PyError Nat

/-! ### Options as they are written -/

/-- A list, or its only entry. -/
inductive OneOrMany where
  | one (entry : String)
  | many (entries : List String)
deriving DecidableEq, Repr

def OneOrMany.toList : OneOrMany → List String
  | one entry => [entry]
  | many entries => entries

structure RawLinux where
  source : Option String := none
  config : Option OneOrMany := none
  modules : Option (Dict String (Option String)) := none
deriving DecidableEq, Repr

structure RawFirmware where
  opensbiSrc : Option String := none
  opensbiBuildArgs : Option String := none
deriving DecidableEq, Repr

structure FilePath where
  dir : String
  name : String
deriving DecidableEq, Repr

/-- The dictionary that `Config.__init__` gets, without the groups 'distro' and 'jobs'. -/
structure RawConfig where
  name : String
  base : Option String := none
  cfgFile : Option FilePath := none
  workdir : Option String := none
  outDir : Option String := none
  spike : Option (Option String) := none
  spikeArgs : Option String := none
  qemu : Option (Option String) := none
  qemuArgs : Option String := none
  bin : Option String := none
  img : Option String := none
  linux : Option RawLinux := none
  linuxSrc : Option String := none
  linuxConfig : Option OneOrMany := none
  firmware : Option RawFirmware := none
  hostInit : Option String := none
  postBin : Option String := none
  postRunHook : Option String := none
  guestInit : Option String := none
  overlay : Option String := none
  files : Option (List (String × String)) := none
  outputs : Option (List String) := none
  run : Option String := none
  command : Option String := none
  launch : Option Bool := none
  rootfsSize : Option String := none
  cpus : Option String := none
  mem : Option String := none
  testing : Option Testing := none
  isDistro : Option Bool := none
  nodisk : Option Bool := none
  builder : Option String := none
deriving DecidableEq, Repr

/-! ### Canonical forms -/

def isAbsolute (path : String) : Bool := Posix.isAbsolute path

def cleanPath (path workdir : String) : String := if isAbsolute path then path else joinPath workdir path

def splitWhen (sep : Char → Bool) : List Char → List (List Char)
  | [] => [[]]
  | c :: cs =>
    if sep c then [] :: splitWhen sep cs
    else
      match splitWhen sep cs with
      | [] => [[c]]
      | part :: parts => (c :: part) :: parts

def RunSpec.fromString (env : InitEnv) (command baseDir : String) : RunSpec :=
  match splitWhen (· = ' ') command.toList with
  | [] => {}
  | script :: args =>
    { path := some (env.resolve (cleanPath (String.ofList script) baseDir)), args := args.map String.ofList }

namespace RawConfig

def linuxOpts (raw : RawConfig) : Option RawLinux :=
  match raw.linux with
  | some l => some l
  | none =>
    if raw.linuxConfig.isSome || raw.linuxSrc.isSome then some { source := raw.linuxSrc, config := raw.linuxConfig }
    else none

def initWorkdir (raw : RawConfig) : Except PyError String :=
  match raw.workdir, raw.cfgFile with
  | some workdir, cfgFile =>
    if isAbsolute workdir then .ok workdir
    else
      match cfgFile with
      | some file => .ok (joinPath file.dir workdir)
      | none =>
        .error (.assertionError
          "'workdir' must be absolute for hard-coded configurations (i.e. those without a config file)")
  | none, some file => .ok (cleanPath raw.name file.dir)
  | none, none => .error (.assertionError "No workdir or cfg-file provided")

end RawConfig

def initLinuxOpts (workdir : String) (l : RawLinux) : Linux where
  source := l.source.map (cleanPath · workdir)
  config := l.config.map fun config => config.toList.map (cleanPath · workdir)
  modules := l.modules.map fun modules => modules.mapVals fun _ path => path.map (cleanPath · workdir)

def initFirmwareOpts (workdir : String) (f : RawFirmware) : Firmware where
  opensbiSrc := f.opensbiSrc.map (cleanPath · workdir)
  -- `str.split` without a separator
  opensbiBuildArgs := f.opensbiBuildArgs.map fun args =>
    ((splitWhen Char.isWhitespace args.toList).filter (· ≠ [])).map String.ofList

/-! ### Configurations -/

namespace Config

/-! `configDefaults` -/

/-- An image with this size is shrunk. -/
def defaultImgSz : Nat := 0

def defaultMem : Nat := 16 * 2 ^ 30

def defaultCpus : Nat := 4

/-- The options of a configuration, once numbers are parsed and the directory is known. -/
def ofRaw (env : InitEnv) (raw : RawConfig) (distro : Option Ref) (jobs : List Ref) (workdir : String)
    (imgSz mem cpus : Nat) : Config :=
  { name := raw.name
    base := raw.base
    jobs
    outDir := joinPath env.imageDir (raw.outDir.getD raw.name)
    workdir
    imgHardcoded := raw.img.isSome
    isDistro := raw.isDistro.getD false
    nodisk := raw.nodisk.getD false
    cpus
    mem
    imgSz
    runSpec :=
      match raw.run, raw.command with
      | some run, _ => some (.fromString env run workdir)
      | none, some command => some { command := some command }
      | none, none => none
    run := raw.run
    files := raw.files.map fun files => files.map fun f => ⟨cleanPath f.1 workdir, f.2⟩
    outputs := raw.outputs
    builder := raw.builder
    distro
    spike := raw.spike.map fun spike => spike.map (cleanPath · workdir)
    qemu := raw.qemu.map fun qemu => qemu.map (cleanPath · workdir)
    launch := raw.launch
    bin := raw.bin.map (cleanPath · workdir)
    img := raw.img.map (cleanPath · workdir)
    postRunHook := raw.postRunHook.map (.fromString env · workdir)
    spikeArgs := raw.spikeArgs
    rootfsSize := raw.rootfsSize
    qemuArgs := raw.qemuArgs
    hostInit := raw.hostInit.map (.fromString env · workdir)
    postBin := raw.postBin.map (.fromString env · workdir)
    guestInit := raw.guestInit.map (.fromString env · workdir)
    overlay := raw.overlay.map (cleanPath · workdir)
    linux := raw.linuxOpts.map (initLinuxOpts workdir)
    firmware := raw.firmware.map (initFirmwareOpts workdir)
    cfgFile := raw.cfgFile.map fun file => cleanPath (joinPath file.dir file.name) workdir
    testing := raw.testing }

def parseOr (parse : String → Except PyError Nat) (default : Nat) : Option String → Except PyError Nat
  | some text => parse text
  | none => .ok default

/-- `Config.__init__`; the objects for 'distro' and 'jobs' are made by the caller. -/
def init (env : InitEnv) (raw : RawConfig) (distro : Option Ref) (jobs : List Ref) : Except PyError Config :=
  raw.initWorkdir >>= fun workdir =>
  parseOr env.parseSize defaultImgSz raw.rootfsSize >>= fun imgSz =>
  parseOr env.parseSize defaultMem raw.mem >>= fun mem =>
  parseOr env.int defaultCpus raw.cpus >>= fun cpus =>
  .ok (ofRaw env raw distro jobs workdir imgSz mem cpus)

theorem init_eq_ok {env : InitEnv} {raw : RawConfig} {distro : Option Ref} {jobs : List Ref} {c : Config}
    (h : init env raw distro jobs = .ok c) :
    ∃ workdir imgSz mem cpus, raw.initWorkdir = .ok workdir ∧
      parseOr env.parseSize defaultImgSz raw.rootfsSize = .ok imgSz ∧
      parseOr env.parseSize defaultMem raw.mem = .ok mem ∧ parseOr env.int defaultCpus raw.cpus = .ok cpus ∧
      c = ofRaw env raw distro jobs workdir imgSz mem cpus := by
  obtain ⟨workdir, hworkdir, h⟩ := Except.bind_ok h
  obtain ⟨imgSz, himgSz, h⟩ := Except.bind_ok h
  obtain ⟨mem, hmem, h⟩ := Except.bind_ok h
  obtain ⟨cpus, hcpus, h⟩ := Except.bind_ok h
  cases h
  exact ⟨workdir, imgSz, mem, cpus, hworkdir, himgSz, hmem, hcpus, rfl⟩

end Config
end FireMarshal
