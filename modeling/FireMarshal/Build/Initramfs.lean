import Mathlib.Logic.Function.Basic
import Mathlib.Tactic.Common

/-! The initramfs (`makeInitramfs` in `wlutil/build.py`): an archive of each source is made in a scratch directory,
    and the archives are copied one after the other into a file of the same directory.

    Directories are identified by number, whatever paths lead to them. -/

namespace FireMarshal.Initramfs

abbrev Bytes := List UInt8

/-- A directory to include: `name` is the last component of its path. -/
structure Source where
  dir : Nat
  name : String
deriving DecidableEq, Repr

abbrev File := Nat × String

abbrev Files := File → Option Bytes

structure Env where
  toCpio : Nat → Bytes
  /-- After these writes to an open file, the number of bytes that are on disk; the others are still buffered. -/
  onDisk : List Bytes → Nat

def remove (files : Files) (file : File) : Files := Function.update files file none

def write (files : Files) (file : File) (bytes : Bytes) : Files := Function.update files file (some bytes)

def Source.cpio (cpioDir : Nat) (src : Source) : File := (cpioDir, src.name ++ ".cpio")

def devNodes (initramfsDir : Nat) : File := (initramfsDir, "devNodes.cpio")

def finalPath (cpioDir : Nat) : File := (cpioDir, "initramfs.cpio")

def writeCpios (env : Env) (cpioDir : Nat) : List Source → Files → Files
  | [], files => files
  | src :: srcs, files =>
    let dst := src.cpio cpioDir
    writeCpios env cpioDir srcs (write (remove files dst) dst (env.toCpio src.dir))

/-- `shutil.copyfileobj` from the file that is written to: it ends when it has read all that is on disk. -/
def copySelf (env : Env) : Nat → Nat → List Bytes → Option (List Bytes)
  | 0, _, _ => none
  | fuel + 1, pos, written =>
    let buf := ((written.flatten.take (env.onDisk written)).drop pos).take (64 * 1024)
    if buf = [] then some written else copySelf env fuel (pos + buf.length) (written ++ [buf])

/-- The loop that copies the archives to `final`. The result is `none` as long as a copy goes on, and the file if one
    is missing. -/
def copyCpios (env : Env) (files : Files) (final : File) (fuel : Nat) :
    List File → List Bytes → Option (Except File (List Bytes))
  | [], written => some (.ok written)
  | cpio :: cpios, written =>
    if cpio = final then copySelf env fuel 0 written >>= copyCpios env files final fuel cpios
    else
      match files cpio with
      | none => some (.error cpio)
      | some bytes => copyCpios env files final fuel cpios (written ++ [bytes])

def makeInitramfs (env : Env) (initramfsDir : Nat) (srcs : List Source) (cpioDir : Nat) (includeDevNodes : Bool)
    (files : Files) (fuel : Nat) : Option (Except File Files) :=
  let cpios := srcs.map (·.cpio cpioDir) ++ if includeDevNodes then [devNodes initramfsDir] else []
  let files := writeCpios env cpioDir srcs files
  let final := finalPath cpioDir
  let files := write (remove files final) final []
  (copyCpios env files final fuel cpios []).map (·.map fun written => write files final written.flatten)

/-- The directories that `makeBin` names; the name of 'mount-dir' can be chosen. -/
structure Dirs where
  mountDir : Source
  drivers : Nat
  nodisk : Nat
  disk : Nat

def initramfsIncludes (dirs : Dirs) (nodisk : Bool) : List Source :=
  if nodisk then [dirs.mountDir, ⟨dirs.drivers, "drivers"⟩, ⟨dirs.nodisk, "nodisk"⟩]
  else [⟨dirs.drivers, "drivers"⟩, ⟨dirs.disk, "disk"⟩]

end FireMarshal.Initramfs
