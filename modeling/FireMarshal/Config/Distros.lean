import FireMarshal.Config.Fork

/-! The distro modules of the default board (`boards/default/distros`). -/

namespace FireMarshal

/-- The dictionary 'opts' of a distro. -/
structure DistroOpts where
  configs : Option (List String) := none
  environment : Option (Dict String String) := none
deriving DecidableEq, Repr

/-- What the modules take from the file system: the contents of a file, the status of the buildroot repository,
    and the directories of the modules and of images. -/
structure Host where
  read : String → String
  gitStatus : String
  hexdigest : String → String
  str : Dict String String → String
  brDir : String
  fedDir : String
  ubuntuDir : String
  imageDir : String

namespace br

/-- `hashOpts` of `br.py`. In `h.str` the path of FireMarshal is already removed. -/
def hashOpts (h : Host) (opts : DistroOpts) : Option String :=
  match opts.configs, opts.environment with
  | none, none => none
  | configs, environment =>
    let files := (configs.getD []).map h.read
    let env := (environment.map h.str).getD ""
    some (String.ofList ((h.hexdigest (String.join files ++ env ++ h.gitStatus)).toList.take 4))

/-- `mergeOpts` of `br.py` -/
def mergeOpts (base new : DistroOpts) : Except PyError DistroOpts :=
  match base.configs, new.configs, base.environment, new.environment with
  | some bc, some nc, some be, some ne => .ok { configs := some (bc ++ nc), environment := some (be.merge ne) }
  | none, _, _, _ | _, none, _, _ => .error (.keyError "configs")
  | _, _, _, _ => .error (.keyError "environment")

/-- `Builder(opts).getWorkload()` of `br.py`, with what `initOpts` adds to its options. -/
def getWorkload (h : Host) (opts : DistroOpts) : DistroWorkload DistroOpts :=
  let name := forkName "br" (hashOpts h opts)
  { name
    distroName := "br"
    opts := { configs := some [], environment := some [((name.toUpper.replace "-" "_") ++ "_PATH", h.brDir)] }
    builder := name
    img := some (joinPath (joinPath h.imageDir name) (name ++ ".img")) }

end br

def brModule (h : Host) : DistroModule DistroOpts := ⟨br.mergeOpts, br.hashOpts h, br.getWorkload h⟩

/-- The modules `fedora.py`, `ubuntu.py` and `bare.py`, which have no options. -/
def plainModule (w : DistroWorkload DistroOpts) : DistroModule DistroOpts where
  mergeOpts base _ := .ok base
  hashOpts _ := none
  getWorkload _ := w

def fedoraModule (h : Host) : DistroModule DistroOpts :=
  plainModule
    { name := "fedora-base", distroName := "fedora", opts := {}, builder := "fedora"
      img := some (joinPath h.fedDir "rootfs.img") }

def ubuntuModule (h : Host) : DistroModule DistroOpts :=
  plainModule
    { name := "ubuntu-base", distroName := "ubuntu", opts := {}, builder := "ubuntu"
      img := some (joinPath h.ubuntuDir "rootfs.img") }

def bareModule : DistroModule DistroOpts :=
  plainModule { name := "bare", distroName := "bare", opts := {}, builder := "bare", qemu := some none }

/-- The option 'distro-mods' of the default board. -/
def distroMods (h : Host) : Dict String (DistroModule DistroOpts) :=
  [("br", brModule h), ("fedora", fedoraModule h), ("ubuntu", ubuntuModule h), ("bare", bareModule)]

end FireMarshal
