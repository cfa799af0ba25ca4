import FireMarshal.Config.Init
import FireMarshal.Lib.Raising

/-! Copying files into and out of a mounted image (`wlutil/wlutil.py`).

A path is the list of its components, as `pathlib` has them: without empty ones and '.', but with '..'. Paths on the
host are absolute. -/

namespace FireMarshal

abbrev PurePath := List String

/-- The host with the image in it, without the times of files. -/
structure FileSystem where
  /-- The file that a path leads to, through links and '..'. -/
  lookup : PurePath → Option Nat
  isDir : Nat → Bool
  /-- The twelve permission bits of a file. -/
  mode : Nat → Nat
  owner : Nat → Nat
  content : Nat → List UInt8
  /-- The target of a link that a path names. -/
  readlink : PurePath → Option String

inductive CopyError where
  | python (e : PyError)
  | fileNotFoundError (path : PurePath)
  | permissionError (path : PurePath)
  | calledProcessError (returncode : Int)
deriving DecidableEq, Repr

inductive Direction where
  | into
  | out
deriving DecidableEq, Repr

structure FilesEnv where
  mountDir : PurePath
  srcIsDir : FileSystem → PurePath → Bool
  /-- What `cp -a -f` of a source to a destination leaves, and the code that it returns. -/
  cp : PurePath → PurePath → FileSystem → FileSystem × Int

/-! ### Paths -/

def parts (path : String) : PurePath := (Posix.components path.toList).map String.ofList

def PurePath.str (path : PurePath) : String := "/" ++ "/".intercalate path

/-- `path.relative_to('/')`; exactly two slashes at the start are another root. -/
def relativeToRoot (path : String) : Except PyError PurePath :=
  if isAbsolute path ∧ (path.toList[1]? ≠ some '/' ∨ path.toList[2]? = some '/') then .ok (parts path)
  else
    .error (.valueError
      ("'" ++ path ++ "' is not in the subpath of '/' OR one path is relative and the other is absolute."))

structure CopyPaths where
  cpSrcResPath : PurePath
  cpDstResPath : PurePath
  withinMountRelPath : PurePath

def copyPaths (env : FilesEnv) (direction : Direction) (f : FileSpec) : Except PyError CopyPaths :=
  match direction with
  | .into => do
    let dst ← relativeToRoot f.dst
    .ok ⟨parts f.src, env.mountDir ++ dst, dst⟩
  | .out => do
    let src ← relativeToRoot f.src
    .ok ⟨env.mountDir ++ src, parts f.dst, src⟩

/-! ### Permissions -/

namespace FileSystem

/-- The last three octal digits of `st_mode`. -/
def perms (fs : FileSystem) (file : Nat) : Nat := fs.mode file % 0o1000

def isDirPath (fs : FileSystem) (path : PurePath) : Bool := (fs.lookup path).any fs.isDir

def chmod (fs : FileSystem) (file perms : Nat) : FileSystem := { fs with mode := Function.update fs.mode file perms }

end FileSystem

/-- What becomes of a call of `os.chmod`. -/
inductive ChmodResult where
  | done
  /-- The call returns, but the mode is what it was. -/
  | ignored
  | raised
deriving DecidableEq, Repr

/-- What a call leaves. -/
def FileSystem.afterChmod (fs : FileSystem) (result : ChmodResult) (file perms : Nat) : FileSystem :=
  if result = .done then fs.chmod file perms else fs

def relaxedPerms : Nat := 0o777

/-- The list `parents`, from the mount point down. -/
def parentsDown (path : PurePath) : List PurePath := if path = [] then [[]] else path.inits.dropLast

def dirsToModify (env : FilesEnv) (direction : Direction) (paths : CopyPaths) (fs : FileSystem) : List PurePath :=
  let withinMountPath := env.mountDir ++ paths.withinMountRelPath
  -- A directory that is copied onto one of the same name.
  let merged := paths.cpDstResPath ++ paths.cpSrcResPath.getLast?.toList
  Dict.fromKeys
    ((parentsDown paths.withinMountRelPath).map (env.mountDir ++ ·) ++
      (if fs.isDirPath withinMountPath then [withinMountPath] else []) ++
      if direction = .into ∧ env.srcIsDir fs paths.cpSrcResPath ∧ (fs.lookup merged).isSome then [merged] else [])

/-- The dictionary `oldPerms`, and the file system. -/
structure Relaxing where
  oldPerms : Dict PurePath Nat := []
  fs : FileSystem
  chmods : Nat := 0

/-- The body of the loop that changes permissions. -/
def relax (chmod : Nat → ChmodResult) (dirPath : PurePath) (s : Relaxing) : Relaxing × Option CopyError :=
  match s.fs.lookup dirPath with
  | none => (s, some (.fileNotFoundError dirPath))
  | some dir =>
    if s.oldPerms.hasKey dirPath then
      (s, some (.python (.assertionError
        ("Something went wrong. Expected that " ++ dirPath.str ++ "'s permissions aren't already set"))))
    else
      let result := chmod s.chmods
      let s :=
        { s with
          oldPerms := s.oldPerms.merge [(dirPath, s.fs.perms dir)]
          fs := s.fs.afterChmod result dir relaxedPerms
          chmods := s.chmods + 1 }
      if result = .raised then (s, some (.permissionError dirPath))
      else if s.fs.perms dir = relaxedPerms then (s, none)
      else (s, some (.python (.assertionError ("Unable to set perms of " ++ dirPath.str ++ " to 0o777"))))

structure Restoring where
  fs : FileSystem
  chmods : Nat := 0

/-- The body of the loop that changes them back. -/
def restore (chmod : Nat → ChmodResult) (oldPerms : Dict PurePath Nat) (dirPath : PurePath) (s : Restoring) :
    Restoring × Option CopyError :=
  match oldPerms.lookup dirPath, s.fs.lookup dirPath with
  | none, _ => (s, some (.python (.keyError dirPath.str)))
  | some _, none => (s, some (.fileNotFoundError dirPath))
  | some perms, some dir =>
    let result := chmod s.chmods
    let s := { s with fs := s.fs.afterChmod result dir perms, chmods := s.chmods + 1 }
    if result = .raised then (s, some (.permissionError dirPath))
    else if s.fs.perms dir = perms then (s, none)
    else (s, some (.python (.assertionError "Unable to revert permissions")))

/-! ### Copies -/

/-- The directories whose permissions were changed for a copy, and what `cp` found and left. -/
structure Copied where
  dirsToModify : List PurePath
  before : FileSystem
  after : FileSystem

structure CopyState where
  fs : FileSystem
  chmods : Nat := 0
  copied : List Copied := []

/-- The body of the loop of `copyImgFiles`. Permissions are changed back also if `cp` fails, but not if changing them
    does. -/
def copyFile (chmod : Nat → ChmodResult) (env : FilesEnv) (direction : Direction) (f : FileSpec) (s : CopyState) :
    CopyState × Option CopyError :=
  match copyPaths env direction f with
  | .error e => (s, some (.python e))
  | .ok paths =>
    let dirs := dirsToModify env direction paths s.fs
    match Raising.each (relax chmod) dirs { fs := s.fs, chmods := s.chmods } with
    | (r, some e) => ({ s with fs := r.fs, chmods := r.chmods }, some e)
    | (r, none) =>
      let cp := env.cp paths.cpSrcResPath paths.cpDstResPath r.fs
      let b := Raising.each (restore chmod r.oldPerms) dirs { fs := cp.1, chmods := r.chmods }
      ({ fs := b.1.fs, chmods := b.1.chmods, copied := s.copied ++ [⟨dirs, r.fs, cp.1⟩] },
        b.2.or (if cp.2 = 0 then none else some (.calledProcessError cp.2)))

/-- `copyImgFiles`, where `chmod` tells what becomes of each call of `os.chmod`. -/
def copyImgFilesOn (chmod : Nat → ChmodResult) (env : FilesEnv) (files : List FileSpec) (direction : Direction) :
    CopyState → CopyState × Option CopyError :=
  Raising.each (copyFile chmod env direction) files

/-- `copyImgFiles`, where every `os.chmod` takes effect. -/
def copyImgFiles (env : FilesEnv) (files : List FileSpec) (direction : Direction) :
    CopyState → CopyState × Option CopyError :=
  copyImgFilesOn (fun _ => .done) env files direction

/-- The names are those in the directory `overlay`. -/
def applyOverlay (env : FilesEnv) (overlay : String) (names : List String) : CopyState → CopyState × Option CopyError :=
  copyImgFiles env (names.map fun f => { src := joinPath overlay f, dst := "/" }) .into

end FireMarshal
