import FireMarshal.Build.Graph

/-! The files that the actions `makeBin` and `makeImage` read (`wlutil/build.py`), and those that doit knows a task to
depend on.

Programs that are run, and files that an action makes before it reads them, are left out. There are no links, so two
paths name the same file just if they are the same once `..` is resolved. -/

namespace FireMarshal

/-- One of the paths names the file. -/
def names (paths : List String) (f : String) : Bool := paths.any fun path => decide (Posix.file path = Posix.file f)

/-- The file is the directory or inside it. -/
def under (dir f : String) : Bool :=
  decide ((Posix.file dir).root = (Posix.file f).root) && (Posix.file dir).parts.isPrefixOf (Posix.file f).parts

/-- Files, and directories with all that is in them. -/
structure Inputs where
  files : List String := []
  dirs : List String := []
deriving DecidableEq, Repr

def Inputs.has (i : Inputs) (f : String) : Bool := names i.files f || i.dirs.any (under · f)

structure ActionEnv extends BuildEnv where
  busyboxDir : String

namespace Config

/-! ### Actions -/

/-- `makeBin` for a binary that is the same as that of the base. -/
def copyInputs (c : Config) : Inputs where
  files := c.baseBin.toList ++ if c.dwarf.isSome then c.baseDwarf.toList else []

/-- The parts of the initramfs, the sources that are compiled, and the options of busybox, which are copied. -/
def compileInputs (env : ActionEnv) (c : Config) (l : Linux) (nodisk : Bool) : Inputs where
  files := [joinPath env.initramfsDir "devNodes.cpio", joinPath env.busyboxDir ".config"]
  dirs :=
    [joinPath env.initramfsDir "drivers", joinPath env.initramfsDir (if nodisk then "nodisk" else "disk")] ++
      l.source.toList ++ (c.firmware.bind Firmware.source).toList ++
      (l.modules.getD []).vals.filterMap id

def binInputs (env : ActionEnv) (c : Config) (nodisk : Bool) : Inputs :=
  if c.useParentBin && !nodisk then c.copyInputs
  else
    match c.linux with
    | none => {}
    | some l =>
      let inputs := c.compileInputs env l nodisk
      { inputs with files := l.config.getD [] ++ (if nodisk then c.img.toList else []) ++ inputs.files }

/-- What is copied into the image; an entry of 'files' is a file or a directory. -/
def contentInputs (c : Config) : Inputs where
  files := (c.files.getD []).map FileSpec.src
  dirs := c.overlay.toList ++ (c.files.getD []).map FileSpec.src

def imgInputs (c : Config) : Inputs where
  files :=
    c.baseImg.toList ++ c.contentInputs.files ++ (c.guestInit.bind RunSpec.path).toList ++
      -- The script is run by booting the image.
      (if c.guestInit.isSome then c.bin.toList else []) ++
      (c.runSpec.bind fun spec => if spec.command.isSome then none else spec.path).toList
  dirs := c.contentInputs.dirs

end Config

def Action.inputs (env : ActionEnv) : Action → Inputs
  | .makeBin c nodisk => c.binInputs env nodisk
  | .makeImage c => c.imgInputs
  | _ => {}

/-! ### File dependencies -/

/-- The key 'file_dep' of what the action of a task returns; only `fileDeps` sets it. -/
def Action.fileDep : Action → Inputs
  | .fileDeps overlay files =>
    let paths := overlay.toList ++ (files.getD []).map FileSpec.src
    { files := paths, dirs := paths }
  | _ => {}

/-- The file is a file dependency of the task, which doit takes from its calc_dep tasks too. -/
def Task.lists (g : List Task) (t : Task) (f : String) : Bool :=
  names t.fileDep f || g.any fun u => t.calcDep.contains u.name && u.action.fileDep.has f

end FireMarshal
