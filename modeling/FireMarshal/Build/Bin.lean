import FireMarshal.Build.Graph

/-! The action of the tasks for binaries (`makeBin` in `wlutil/build.py`), and the files that it makes.

The boot binary and the kernel with its symbols depend on the options of Linux and of the firmware, and without a
disk on the image too. How they are compiled is left open. Submodules are taken to be checked out. There are no links,
so two paths name the same file just if they are the same once `..` is resolved. -/

namespace FireMarshal

abbrev Files (β : Type) := Posix.Path → Option β

inductive MakeError where
  | keyError (key : String)
  | fileNotFoundError (path : String)
  | sameFileError (src dst : String)
deriving DecidableEq, Repr

/-- What Linux and the firmware are compiled to, with an image in the initramfs or without. -/
structure Toolchain (β : Type) where
  bootBin : Linux → Firmware → Option β → β
  vmlinux : Linux → Firmware → Option β → β

variable {β : Type}

def require {α : Type} (key : String) : Option α → Except MakeError α
  | some a => .ok a
  | none => .error (.keyError key)

theorem require_eq_ok {α : Type} {key : String} {o : Option α} {a : α} : require key o = .ok a ↔ o = some a := by
  cases o <;> simp [require]

namespace Files

def read (files : Files β) (path : String) : Except MakeError β :=
  match files (Posix.file path) with
  | some x => .ok x
  | none => .error (.fileNotFoundError path)

def write (files : Files β) (path : String) (x : β) : Files β := Function.update files (Posix.file path) (some x)

/-- `shutil.copy`, which does not copy a file over itself. -/
def copy (files : Files β) (src dst : String) : Except MakeError (Files β) :=
  files.read src >>= fun x =>
  if Posix.file src = Posix.file dst then .error (.sameFileError src dst) else .ok (files.write dst x)

end Files

def compile (tools : Toolchain β) (l : Linux) (firmware : Option Firmware) (img : Option β) :
    Except MakeError (β × β) :=
  require "source" l.source >>= fun _ =>
  require "firmware" firmware >>= fun f =>
  require "source" f.source >>= fun _ =>
  require "config" l.config >>= fun _ =>
  .ok (tools.bootBin l f img, tools.vmlinux l f img)

/-- The branch of `makeBin` for a binary that is the same as that of the base. -/
def copyBin (c : Config) (files : Files β) : Except MakeError (Files β) :=
  require "bin" c.bin >>= fun bin =>
  require "base-bin" c.baseBin >>= fun baseBin =>
  files.copy baseBin bin >>= fun files =>
  match c.dwarf with
  | none => .ok files
  | some dwarf => require "base-dwarf" c.baseDwarf >>= fun baseDwarf => files.copy baseDwarf dwarf

def makeBin (tools : Toolchain β) (c : Config) (nodisk : Bool) (files : Files β) : Except MakeError (Files β) :=
  if c.useParentBin && !nodisk then copyBin c files
  else
    match c.linux with
    -- Without Linux, the binary exists already.
    | none => .ok files
    | some l =>
      (if nodisk then require "img" c.img >>= fun img => files.read img >>= fun x => .ok (some x) else .ok none) >>=
        fun img =>
      compile tools l c.firmware img >>= fun out =>
      require "bin" c.bin >>= fun bin =>
      require "dwarf" c.dwarf >>= fun dwarf =>
      if nodisk then .ok ((files.write (noDiskPath bin) out.1).write (noDiskPath dwarf) out.2)
      else .ok ((files.write bin out.1).write dwarf out.2)

/-- What is run for the binary of a configuration, which comes first in the list, before its bases: the task for the
    binary of the base is run first where `addDep` names it. -/
def buildBin (tools : Toolchain β) : List Config → Files β → Except MakeError (Files β)
  | [], files => .ok files
  | c :: bases, files =>
    (if c.useParentBin then buildBin tools bases files else .ok files) >>= makeBin tools c false

end FireMarshal
