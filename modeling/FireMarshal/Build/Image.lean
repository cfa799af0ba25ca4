import FireMarshal.Lib.Except
import FireMarshal.Config.Config

/-! The images of workloads: `makeImage` (`wlutil/build.py`) and `resizeFS` (`wlutil/wlutil.py`).

An image is known by the base that it was copied from and by what was written to it since. What is written to images,
and whether there is room for it, is left open. -/

namespace FireMarshal

inductive ImageStep where
  | copyBase (baseImg : String)
  | resizeFS (newSize : Nat)
  | applyOverlay (overlay : String)
  | copyImgFiles (files : List FileSpec)
  | findScript (kind script : String)
  /-- The overlay that `generateBootScriptOverlay` of the builder makes is applied. -/
  | bootScript (builder script : Option String) (args : List String)
  | boot
deriving DecidableEq, Repr

structure Image where
  base : String
  size : Nat
  writes : List (ImageStep × Nat) := []
deriving DecidableEq, Repr

inductive ImageError where
  | python (e : PyError)
  | calledProcessError (returncode : Nat)
  | fileNotFoundError (path : String)
deriving DecidableEq, Repr

/-- What images are made with: the sizes of images, the exit status of `e2fsck`, the size of the file after
    `resize2fs -M`, the option 'rootfs-margin', the files on the host, the option 'command-script', and whether a step
    can be written to an image. -/
structure ImageTools where
  getsize : String → Option Nat
  e2fsck : Image → Nat
  minimum : Image → Nat
  margin : Nat
  present : String → Bool
  commandScript : String
  write : Image → ImageStep → Except ImageError Unit

namespace ImageTools

variable (tools : ImageTools)

/-- The new size 0 stands for the minimal size and a margin. An image is never made smaller than it is otherwise. -/
def resizeFS (img : Image) (newSize : Nat) : Except ImageError Image :=
  if 4 ≤ tools.e2fsck img then .error (.calledProcessError (tools.e2fsck img))
  else
    let size := if newSize = 0 then tools.minimum img else img.size
    let newSize := if newSize = 0 then size + tools.margin else newSize
    .ok { img with size := if size < newSize then newSize else size }

/-- A step for the image at `path`. Without a base there is no image, and `e2fsck` fails. -/
def step (path : String) (img : Option Image) (s : ImageStep) : Except ImageError (Option Image) :=
  match s, img with
  | .copyBase base, _ =>
    match tools.getsize base with
    | none => .error (.fileNotFoundError base)
    | some size => .ok (some { base, size })
  | .resizeFS _, none => .error (.calledProcessError 8)
  | .resizeFS newSize, some img => tools.resizeFS img newSize >>= fun img => .ok (some img)
  | .findScript kind script, img =>
    if tools.present script then .ok img
    else .error (.python (.valueError (kind ++ " script " ++ script ++ " not found.")))
  | .bootScript none _ _, _ => .error (.python (.keyError "builder"))
  | _, none => .error (.python (.assertionError ("Unable to find " ++ path ++ " to mount")))
  | s, some img => tools.write img s >>= fun _ => .ok (some { img with writes := img.writes ++ [(s, img.size)] })

end ImageTools

namespace Config

/-- The script to run once, while the image is made. -/
def guestInitSteps (c : Config) (script : RunSpec) : List ImageStep :=
  [.findScript "Init" (script.path.getD ""), .bootScript c.builder script.path script.args, .boot,
    .bootScript c.builder none []]

/-- The script to run at each boot; one for a command is written first. -/
def runSteps (commandScript : String) (c : Config) (spec : RunSpec) : List ImageStep :=
  match spec.command with
  | some _ => [.bootScript c.builder (some commandScript) spec.args]
  | none => [.findScript "Run" (spec.path.getD ""), .bootScript c.builder spec.path spec.args]

/-- The steps between those that set the size. -/
def contentSteps (commandScript : String) (c : Config) : List ImageStep :=
  c.overlay.toList.map .applyOverlay ++ c.files.toList.map .copyImgFiles ++
    c.guestInit.toList.flatMap c.guestInitSteps ++ c.runSpec.toList.flatMap (c.runSteps commandScript)

def imageSteps (commandScript : String) (c : Config) : List ImageStep :=
  c.baseImg.toList.map .copyBase ++ (if c.imgSz ≠ 0 then [.resizeFS c.imgSz] else []) ++
    c.contentSteps commandScript ++ if c.imgSz = 0 then [.resizeFS 0] else []

end Config

/-- `makeImage`; an old image is removed first. -/
def makeImage (tools : ImageTools) (c : Config) : Except ImageError (Option Image) :=
  match c.img with
  | none => .error (.python (.keyError "img"))
  | some path => (c.imageSteps tools.commandScript).foldlM (tools.step path) none

end FireMarshal
