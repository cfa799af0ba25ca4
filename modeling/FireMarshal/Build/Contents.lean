import FireMarshal.Build.Files
import FireMarshal.Build.Image

/-! What images hold: `makeImage` (`wlutil/build.py`) with `copyImgFiles`, `applyOverlay` and `genRunScript`
(`wlutil/wlutil.py`), and `generateBootScriptOverlay` of the distros.

All images share the overlays of the distros and the script for commands, which each image writes anew. What an image
holds is left open, and so is what `cp -a` and a guest make of it; any call of theirs may fail. Files that workloads
name are not changed while images are made. -/

namespace FireMarshal

/-! ### Directories of the host -/

inductive Entry where
  | file (text : String)
  | dir
  | link (target : String)
deriving DecidableEq, Repr

/-- Entries by their paths in a directory, in the order in which they are copied. -/
abbrev Listing := List (List String × Entry)

namespace Listing

def names (l : Listing) : List String := (l.filterMap fun e => e.1.head?).eraseDups

def belowEntry (n : String) (e : List String × Entry) : Option (List String × Entry) :=
  match e.1 with
  | m :: rest => if m = n then some (rest, e.2) else none
  | [] => none

def below (n : String) (l : Listing) : Listing := l.filterMap (belowEntry n)

def under (d : List String) (l : Listing) : Listing := l.map fun e => (d ++ e.1, e.2)

end Listing

/-! ### Boot scripts -/

/-- The overlay of a distro for boot scripts. -/
structure BootOverlay where
  /-- What is in the directory besides the two files that are written. -/
  rest : Listing
  scriptDst : List String
  serviceDst : List String
  /-- The text of the file that runs the script, for the arguments of that. -/
  service : String → String
  script_ne : scriptDst ≠ []
  service_ne : serviceDst ≠ []
  distinct : scriptDst ≠ serviceDst

/-- The two files in an overlay. -/
structure BootFiles where
  script : Option String := none
  service : Option String := none
deriving DecidableEq, Repr

namespace BootOverlay

def listing (o : BootOverlay) (files : BootFiles) : Listing :=
  o.rest ++ (files.script.map fun text => (o.scriptDst, Entry.file text)).toList ++
    (files.service.map fun text => (o.serviceDst, Entry.file text)).toList

def files (o : BootOverlay) (text : String) (args : List String) : BootFiles :=
  ⟨some text, some (o.service (" ".intercalate args))⟩

/-- Without a script, the one that is there is deleted and a blank one is created. -/
def generateBootScriptOverlay (o : BootOverlay) (script : Option String) (args : List String) (old : BootFiles) :
    Except ImageError BootFiles :=
  match script, old.script with
  | some text, _ => .ok (o.files text args)
  | none, some _ => .ok (o.files "" args)
  | none, none => .error (.fileNotFoundError ("/".intercalate o.scriptDst))

end BootOverlay

namespace br

def initTemplate (args : String) : String :=
  "#!/bin/sh\n\nSYSLOGD_ARGS=-n\nKLOGD_ARGS=-n\n\nstart() \x7b\n" ++
  "    echo \"launching firemarshal workload run/command\" && /firemarshal.sh " ++ args ++
  " && echo \"firemarshal workload run/command done\"\n\x7d\n\n" ++
  "case \"$1\" in\n  start)\n  start\n  ;;\n  stop)\n  #stop\n  ;;\n  restart|reload)\n  start\n  ;;\n  *)\n" ++
  "  echo \"Usage: $0 \x7bstart|stop|restart\x7d\"\n  exit 1\nesac\n\nexit"

def bootOverlay (rest : Listing) : BootOverlay where
  rest
  scriptDst := ["firemarshal.sh"]
  serviceDst := ["etc", "init.d", "S99run"]
  service := initTemplate
  script_ne := by decide
  service_ne := by decide
  distinct := by decide

end br

/-- `serviceTemplate` of `fedora.py` and `ubuntu.py`, for the script `firesim.sh` -/
def serviceTemplate (args : String) : String :=
  "[Unit]\nRequires=multi-user.target\nAfter=multi-user.target\nBefore=firesim.target\nWants=firesim.target\n\n" ++
  "[Service]\nExecStart=/etc/firesim/firesim.sh " ++ args ++ "\nStandardOutput=journal+console"

/-- The overlays of Fedora and of Ubuntu. -/
def systemdBootOverlay (rest : Listing) : BootOverlay where
  rest
  scriptDst := ["etc", "firesim", "firesim.sh"]
  serviceDst := ["etc", "systemd", "system", "firesim.service"]
  service := serviceTemplate
  script_ne := by decide
  service_ne := by decide
  distinct := by decide

/-! ### Steps -/

/-- What images are made with; `τ` is what an image holds. -/
structure ContentsEnv (τ : Type) where
  commandScript : String
  builder : String → BootOverlay
  overlay : String → Listing
  /-- What there is at a path, which is a directory if there is more than one entry; `none` if there is nothing. -/
  source : String → Option Listing
  /-- The text of a script, if there is such a file. -/
  script : String → Option String
  /-- What `cp -a` makes of an image for entries that go to these paths in it. -/
  copy : Listing → τ → τ
  /-- Whether a path leads to a directory of an image. -/
  isDir : τ → List String → Bool
  /-- What a guest makes of the image that it boots. -/
  guest : τ → τ
  /-- Why the call of this number fails, if it does: a copy does not fit, there is no room, the image is damaged. -/
  fault : Nat → ImageStep → τ → Option ImageError
  left : Nat → ImageStep → τ → τ

/-- What `makeImage` changes. -/
structure ImageHost (τ : Type) where
  images : String → Option τ
  boot : String → BootFiles
  commandScript : Option String := none
  calls : Nat := 0

namespace ContentsEnv

variable {τ : Type} (env : ContentsEnv τ)

/-- The text of a script, which may be the one for commands. -/
def readScript (command : Option String) (script : String) : Option String :=
  if script = env.commandScript then command else env.script script

/-- The text to copy, if there is to be a script. -/
def scriptText (command : Option String) : Option String → Except ImageError (Option String)
  | none => .ok none
  | some script => ((env.readScript command script).map some).elim (.error (.fileNotFoundError script)) .ok

/-- A copy of something of this name is made in a directory, or in place of what is there. -/
def target (t : τ) (name : String) (dst : List String) : List String :=
  if env.isDir t dst then dst ++ [name] else dst

/-- A copy into an image. What has no name is the root of the host. -/
def copyFile (t : τ) (f : FileSpec) : Except ImageError τ :=
  match relativeToRoot f.dst with
  | .error e => .error (.python e)
  | .ok dst =>
    match env.source f.src, (parts f.src).getLast? with
    | some l, some name => .ok (env.copy (Listing.under (env.target t name dst) l) t)
    | _, _ => .error (.calledProcessError 1)

/-- Everything in the overlay is copied to the root, one name after the other. -/
def applyOverlay (l : Listing) (t : τ) : τ :=
  (Listing.names l).foldl (fun t n => env.copy (Listing.under [n] (Listing.below n l)) t) t

/-- A change of an image by the call number `n`. -/
def attempt (n : Nat) (s : ImageStep) (g : τ → Except ImageError τ) (t : τ) : τ × Option ImageError :=
  match env.fault n s t, g t with
  | some e, _ => (env.left n s t, some e)
  | none, .error e => (env.left n s t, some e)
  | none, .ok u => (u, none)

/-- The image at `path` becomes what a call makes of the contents `t`. -/
def store (path : String) (s : ImageStep) (g : τ → Except ImageError τ) (t : τ) (h : ImageHost τ) :
    ImageHost τ × Option ImageError :=
  ({ h with
      images := Function.update h.images path (some (env.attempt h.calls s g t).1)
      calls := h.calls + 1 },
    (env.attempt h.calls s g t).2)

/-- A change of the image at `path`, which is mounted. -/
def edit (path : String) (s : ImageStep) (g : τ → Except ImageError τ) (h : ImageHost τ) :
    ImageHost τ × Option ImageError :=
  match h.images path with
  | none => (h, some (.python (.assertionError ("Unable to find " ++ path ++ " to mount"))))
  | some t => env.store path s g t h

/-- A step for the image at `path`. -/
def step (path : String) (s : ImageStep) (h : ImageHost τ) : ImageHost τ × Option ImageError :=
  match s with
  | .copyBase base =>
    match h.images base with
    | none => (h, some (.fileNotFoundError base))
    | some t => env.store path s .ok t h
  | .resizeFS _ =>
    -- `e2fsck` fails without an image.
    if (h.images path).isNone then (h, some (.calledProcessError 8)) else env.edit path s .ok h
  | .applyOverlay overlay => env.edit path s (fun t => .ok (env.applyOverlay (env.overlay overlay) t)) h
  | .copyImgFiles files => env.edit path s (fun t => files.foldlM env.copyFile t) h
  | .findScript kind script =>
    if (env.readScript h.commandScript script).isSome then (h, none)
    else (h, some (.python (.valueError (kind ++ " script " ++ script ++ " not found."))))
  | .bootScript none _ _ => (h, some (.python (.keyError "builder")))
  | .bootScript (some b) script args =>
    match env.scriptText h.commandScript script >>= fun text =>
      (env.builder b).generateBootScriptOverlay text args (h.boot b) with
    | .error e => (h, some e)
    | .ok files =>
      env.edit path s (fun t => .ok (env.applyOverlay ((env.builder b).listing files) t))
        { h with boot := Function.update h.boot b files }
  | .boot => env.edit path s (fun t => .ok (env.guest t)) h

end ContentsEnv

/-! ### Images -/

def genRunScript (command : String) : String := "#!/bin/sh\n" ++ command ++ "\nsync; poweroff -f\n"

namespace Config

def commandText (c : Config) : Option String := (c.runSpec.bind RunSpec.command).map genRunScript

/-- The steps of `makeImage` up to the script that an image runs. -/
def firstSteps (c : Config) : List ImageStep :=
  c.baseImg.toList.map .copyBase ++ (if c.imgSz ≠ 0 then [.resizeFS c.imgSz] else []) ++
    c.overlay.toList.map .applyOverlay ++ c.files.toList.map .copyImgFiles ++
    c.guestInit.toList.flatMap c.guestInitSteps

def lastSteps (commandScript : String) (c : Config) : List ImageStep :=
  c.runSpec.toList.flatMap (c.runSteps commandScript) ++ if c.imgSz = 0 then [.resizeFS 0] else []

/-- `makeImage`, on the host. -/
def makeImageOn {τ : Type} (env : ContentsEnv τ) (c : Config) (h : ImageHost τ) : ImageHost τ × Option ImageError :=
  match c.img with
  | none => (h, some (.python (.keyError "img")))
  | some path =>
    let h := { h with images := Function.update h.images path none }
    Raising.andThen (Raising.each (env.step path) c.firstSteps h) fun h =>
      Raising.each (env.step path) (c.lastSteps env.commandScript)
        { h with commandScript := c.commandText.or h.commandScript }

end Config

/-- Images that are made one after the other. One that cannot be made does not keep others from it. -/
def makeImages {τ : Type} (env : ContentsEnv τ) (cs : List Config) (h : ImageHost τ) : ImageHost τ :=
  cs.foldl (fun h c => (c.makeImageOn env h).1) h

/-! ### Images by themselves

What an image is to hold, from the contents of its base and the options of its workload alone. -/

section Contents

variable {τ : Type} (env : ContentsEnv τ)

/-- What a step that does not fail makes of the contents of an image, where `command` is the script for commands. -/
def ContentsEnv.write (command : Option String) (t : τ) (s : ImageStep) : Except ImageError τ :=
  match s with
  | .copyBase _ | .resizeFS _ => .ok t
  | .applyOverlay overlay => .ok (env.applyOverlay (env.overlay overlay) t)
  | .copyImgFiles files => files.foldlM env.copyFile t
  | .findScript kind script =>
    if (env.readScript command script).isSome then .ok t
    else .error (.python (.valueError (kind ++ " script " ++ script ++ " not found.")))
  | .bootScript none _ _ => .error (.python (.keyError "builder"))
  | .bootScript (some b) script args =>
    (env.scriptText command script).map fun text =>
      env.applyOverlay ((env.builder b).listing ((env.builder b).files (text.getD "") args)) t
  | .boot => .ok (env.guest t)

/-- The contents of the image of a workload, for those of its base. -/
def Config.contents (c : Config) (t : τ) : Except ImageError τ :=
  (c.imageSteps env.commandScript).foldlM (env.write c.commandText) t

end Contents

end FireMarshal
