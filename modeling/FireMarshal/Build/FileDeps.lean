import FireMarshal.Lib.Forest
import FireMarshal.Build.Files

/-! The sources of an image: what the build depends on (`fileDeps` in `wlutil/build.py`), and what is copied into the
    image (`applyOverlay` and `copyImgFiles` in `wlutil/wlutil.py`).

Directories of the same names are listed in the same order. Of a source, times and hard links are left out: `cp -a` copies
them too, and what is said of images is said up to them. -/

namespace FireMarshal.Sources

structure Attrs where
  mode : Nat
  owner : Nat
deriving DecidableEq, Repr

inductive Leaf where
  | file (content : List UInt8) (attrs : Attrs)
  | link (target : String) (owner : Nat)
deriving DecidableEq, Repr

abbrev Item := Forest.Item String Leaf Attrs

abbrev Entry := Forest.Entry Leaf Attrs

def isLink : Entry → Bool
  | .leaf (.link _ _) => true
  | _ => false

def isFile : Entry → Bool
  | .leaf (.file _ _) => true
  | _ => false

/-! ### The host -/

/-- A name that an entry of a directory can have. -/
def ProperName (name : String) : Prop := '/' ∉ name.toList ∧ Posix.Proper name.toList ∧ name ≠ ".."

instance : DecidablePred ProperName := fun _ => inferInstanceAs (Decidable (_ ∧ _ ∧ _))

/-- A state of the host. -/
structure Host (listing : Forest.Listing String) where
  /-- What a path names; a link at its end is not followed. -/
  lstat : PurePath → Option Item
  stat : PurePath → Option Item
  stat_eq : ∀ path, ¬(lstat path).any (isLink ·.entry) → stat path = lstat path
  lstat_child : ∀ path attrs entries name, name ≠ ".." →
    stat path = some (.dir attrs entries) → lstat (path ++ [name]) = entries.get name
  ordered : ∀ path item, stat path = some item → item.Ordered listing
  names : ∀ path attrs entries, stat path = some (.dir attrs entries) → ∀ name ∈ entries.names, ProperName name

namespace Host

variable {listing : Forest.Listing String} (host : Host listing)

def isSymlink (path : PurePath) : Bool := (host.lstat path).any (isLink ·.entry)

def isDir (path : PurePath) : Bool := (host.stat path).any (·.entry.isDir)

def listdir (path : PurePath) : List String :=
  match host.stat path with
  | some (.dir _ entries) => entries.names
  | _ => []

/-- `path.glob('**/*')`, which follows no links. -/
def glob (path : PurePath) : List PurePath :=
  match host.stat path with
  | some (.dir _ entries) => entries.paths.map (path ++ ·)
  | _ => []

/-- The paths `file_dep` for an overlay and the sources of a list of files. -/
def fileDeps (overlay : Option PurePath) (srcs : List PurePath) : List PurePath :=
  let deps := overlay.toList ++ srcs.filter (!host.isSymlink ·)
  let deps := deps ++ deps.flatMap fun dep =>
    if host.isDir dep then (host.glob dep).filter (!host.isSymlink ·) else []
  deps.filter (!host.isDir ·)

end Host

/-! ### The image -/

/-- What `cp -a -f` leaves of a source, by its path, and a destination, and the code that it returns. The source may not
    be there. -/
abbrev Cp := Option Item → PurePath → PurePath → FileSystem → FileSystem × Int

section Copy

variable {listing : Forest.Listing String} (cp : Cp) (mountDir : PurePath) (host : Host listing)

/-- The sources are not in the image, so that copies leave them as they are. -/
def filesEnv : FilesEnv where
  mountDir
  srcIsDir _ := host.isDir
  cp src := cp (host.lstat src) src

/-- The copies of `makeImage` to a base image. -/
def makeImage (overlay : Option String) (files : List FileSpec) (s : CopyState) : CopyState × Option CopyError :=
  Raising.andThen
    (overlay.elim (s, none) fun dir => applyOverlay (filesEnv cp mountDir host) dir (host.listdir (parts dir)) s)
    (copyImgFiles (filesEnv cp mountDir host) files .into)

end Copy

end FireMarshal.Sources
