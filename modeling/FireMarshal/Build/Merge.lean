import FireMarshal.Lib.Layers
import FireMarshal.Config.Distros

/-! The configuration of the kernel and of buildroot (`merge_config.sh`, `generateKConfig` in `wlutil/build.py` and
`configure` in `br.py`).

What `make` writes to `.config` for a merged file is left open, and so is the script of the kernel, which comes with its
source. Of the fragments of a call, those are taken that the shell sees as one word of `MERGE_LIST`: paths with blanks or
wildcards are left out. -/

namespace FireMarshal

namespace Merge

abbrev Line := List Char
abbrev Name := List Char

/-- A character of the class `[a-zA-Z0-9_]`. -/
def isWord (c : Char) : Bool := c.isAlphanum || c == '_'

/-- A file: its lines, and what stands after the last newline. -/
structure Text where
  lines : List Line
  rest : Line := []
deriving DecidableEq, Repr

namespace Text

/-- The lines as `grep` and `sed` take them. -/
def all (t : Text) : List Line := if t.rest.isEmpty then t.lines else t.lines ++ [t.rest]

/-- `cat`. What has no newline at the end of the first file goes on with the first line of the second one. -/
def cat (a b : Text) : Text :=
  match b.lines with
  | [] => ⟨a.lines, a.rest ++ b.rest⟩
  | l :: ls => ⟨a.lines ++ (a.rest ++ l) :: ls, b.rest⟩

/-- The file ends with a newline, or is empty. -/
def Ended (t : Text) : Prop := t.rest = []

instance (t : Text) : Decidable t.Ended := inferInstanceAs (Decidable (_ = _))

end Text

inductive Value where
  | text (s : List Char)
  | notSet
deriving DecidableEq, Repr

/-- The name at the start of a line, and what follows it. -/
def nameOf (pre : Name) (l : Line) : Option (Name × Line) :=
  if pre.isPrefixOf l then
    some (pre ++ (l.drop pre.length).takeWhile isWord, (l.drop pre.length).dropWhile isWord)
  else none

def assigned (pre : Name) (l : Line) : Option (Name × Value) :=
  match nameOf pre l with
  | some (x, '=' :: v) => some (x, .text v)
  | _ => none

def unset (pre : Name) (l : Line) : Option (Name × Value) :=
  match l with
  | '#' :: ' ' :: l =>
    match nameOf pre l with
    | some (x, rest) => if rest = " is not set".toList then some (x, .notSet) else none
    | none => none
  | _ => none

def setting (pre : Name) (l : Line) : Option (Name × Value) := (assigned pre l).or (unset pre l)

/-- `grep -w` on one line. The flag is whether the character before is of a word. -/
def hasWordFrom (x : Name) : Bool → Line → Bool
  | inWord, [] => !inWord && x.isEmpty
  | inWord, c :: l =>
    (!inWord && x.isPrefixOf (c :: l) && !((c :: l).drop x.length).head?.any isWord) || hasWordFrom x (isWord c) l

def hasWord (x : Name) (l : Line) : Bool := hasWordFrom x false l

/-- The pattern `$CFG[ =]`, which is not anchored. -/
def mentions (x : Name) (l : Line) : Bool :=
  l.tails.any fun t => (x ++ [' ']).isPrefixOf t || (x ++ ['=']).isPrefixOf t

def grepWord (x : Name) (file : List Line) : List Line := file.filter (hasWord x)

def delete (x : Name) (file : List Line) : List Line := file.filter fun l => !mentions x l

def Text.delete (x : Name) (t : Text) : Text := ⟨Merge.delete x t.lines, if mentions x t.rest then [] else t.rest⟩

/-- `${text#CONFIG_*=}`, on lines that `grep` prints. -/
def stripName (ls : List Line) : List Char :=
  let text := ['\n'].intercalate ls
  if "CONFIG_".toList.isPrefixOf text then
    match (text.drop "CONFIG_".length).dropWhile (· != '=') with
    | _ :: v => v
    | [] => text
  else text

inductive Note where
  | base (file : String)
  | merging (file : String)
  | notDemoted (prev new : List Line)
  | redefined (x : Name) (file : String) (prev new : List Line)
  | redundant (x : Name) (file : String)
  | notInConfig (x : Name) (requested actual : List Line)
deriving DecidableEq, Repr

inductive Error where
  | noBaseFile (file : String)
  | noMergeFile (file : String)
deriving DecidableEq, Repr

structure Options where
  runMake : Bool := true
  warnRedun : Bool := false
  builtin : Bool := false
  pre : Name := "CONFIG_".toList
deriving DecidableEq, Repr

structure State where
  tmp : Text
  merge : Text
  notes : List Note
deriving DecidableEq, Repr

/-- One round of the loop over `CFG_LIST`. -/
def mergeOption (o : Options) (file : String) (s : State) (x : Name) : State :=
  let prev := grepWord x s.tmp.all
  let new := grepWord x s.merge.all
  if prev.isEmpty then s
  else if o.builtin && stripName new == ['m'] && stripName prev == ['y'] then
    { s with merge := s.merge.delete x, notes := s.notes ++ [.notDemoted prev new] }
  else
    let said :=
      if prev ≠ new then [Note.redefined x file prev new]
      else if o.warnRedun then [Note.redundant x file]
      else []
    { s with tmp := s.tmp.delete x, notes := s.notes ++ said }

def mergeFragment (o : Options) (file : String) (content tmp : Text) (notes : List Note) : State :=
  (Layers.keys (setting o.pre) content.all).foldl (mergeOption o file) ⟨tmp, content, notes ++ [.merging file]⟩

/-- The loop over `MERGE_LIST`. -/
def mergeFragments (o : Options) (files : String → Option Text) :
    List String → Text → List Note → Except Error (Text × List Note)
  | [], tmp, notes => .ok (tmp, notes)
  | f :: fs, tmp, notes =>
    match files f with
    | none => .error (.noMergeFile f)
    | some content =>
      let s := mergeFragment o f content tmp notes
      mergeFragments o files fs (s.tmp.cat s.merge) s.notes

def missed (pre : Name) (tmp config : List Line) : List Note :=
  (Layers.keys (setting pre) tmp).flatMap fun x =>
    if grepWord x tmp ≠ grepWord x config then [.notInConfig x (grepWord x tmp) (grepWord x config)] else []

/-- `merge_config.sh`: the file `.config` that it leaves, and what it printed. -/
def script (o : Options) (make : Text → Text) (files : String → Option Text) (init : String)
    (fragments : List String) : Except Error (Text × List Note) :=
  match files init with
  | none => .error (.noBaseFile init)
  | some content =>
    match mergeFragments o files fragments content [.base init] with
    | .error e => .error e
    | .ok (tmp, notes) =>
      if o.runMake then .ok (make tmp, notes ++ missed o.pre tmp.all (make tmp).all) else .ok (tmp, notes)

end Merge

/-! ### The kernel -/

section Kernel

open Merge

variable {ε : Type}

/-- A `merge_config.sh`, on the files there are, the base file and the fragments: the `.config` that it leaves. -/
abbrev MergeScript (ε : Type) := (String → Option Text) → String → List String → Except ε Text

/-- `generateKConfig` on the `.config` that the source has, with the script of the kernel. The `.config` is copied to
    `defCfg`; the call of `make defconfig` is commented out. -/
def generateKConfig (merge : MergeScript ε) (files : String → Option Text) (defCfg : String) (kfrags : List String)
    (config : Text) : Except ε Text :=
  merge (fun f => if f = defCfg then some config else files f) defCfg kfrags

def makeInitramfsKfrag (src : String) : Text :=
  ⟨["CONFIG_BLK_DEV_INITRD=y".toList, ("CONFIG_INITRAMFS_SOURCE=\"" ++ src ++ "\"").toList], []⟩

/-- What `makeBin` configures the kernel with: the fragments of the workload, and the fragment that it writes for the
    initramfs. -/
structure KernelBuild where
  kfrags : List String
  initramfsKfrag : String
  initramfsPath : String
deriving DecidableEq, Repr

def KernelBuild.fragments (b : KernelBuild) : List String := b.kfrags ++ [b.initramfsKfrag]

def KernelBuild.written (b : KernelBuild) (files : String → Option Text) (f : String) : Option Text :=
  if f = b.initramfsKfrag then some (makeInitramfsKfrag b.initramfsPath) else files f

/-- The two configurations of `makeBin`: for modules, then for the kernel. The second one stays in the source. -/
def configureKernel (merge : MergeScript ε) (files : String → Option Text) (defCfg : String) (config : Text)
    (b : KernelBuild) : Except ε Text :=
  match generateKConfig merge files defCfg b.kfrags config with
  | .error e => .error e
  | .ok moduleConfig => generateKConfig merge (b.written files) defCfg b.fragments moduleConfig

/-- The builds of kernels from one source, one after the other. -/
def configureKernels (merge : MergeScript ε) (defCfg : String) :
    List KernelBuild → (String → Option Text) → Text → Except ε Text
  | [], _, config => .ok config
  | b :: bs, files, config =>
    match configureKernel merge files defCfg config b with
    | .error e => .error e
    | .ok config => configureKernels merge defCfg bs (b.written files) config

end Kernel

/-! ### Buildroot -/

structure ToolVersions where
  linuxMaj : String
  linuxMin : String
  gcc : String
deriving DecidableEq, Repr

namespace br

open Merge

def toolKfrag (v : ToolVersions) (jlevel : Nat) : Text where
  lines :=
    [ "BR2_TOOLCHAIN_EXTERNAL_HEADERS_" ++ v.linuxMaj ++ "_" ++ v.linuxMin ++ "=y",
      "BR2_TOOLCHAIN_HEADERS_AT_LEAST_" ++ v.linuxMaj ++ "_" ++ v.linuxMin ++ "=y",
      "BR2_TOOLCHAIN_HEADERS_AT_LEAST=\"" ++ v.linuxMaj ++ "." ++ v.linuxMin ++ "\"",
      "BR2_TOOLCHAIN_GCC_AT_LEAST_" ++ v.gcc ++ "=y",
      "BR2_TOOLCHAIN_GCC_AT_LEAST=\"" ++ v.gcc ++ "\"",
      "BR2_TOOLCHAIN_EXTERNAL_GCC_" ++ v.gcc ++ "=y",
      "BR2_JLEVEL=" ++ toString jlevel,
      "BR2_PACKAGE_HOST_E2FSPROGS=y" ].map String.toList

def written (files : String → Option Text) (genDir : String) (tool defconfig : Text) (f : String) : Option Text :=
  if f = joinPath genDir "brDefConfig" then some defconfig
  else if f = joinPath genDir "brToolKfrag" then some tool
  else files f

/-- `configure` of `br.py` up to the merge: the `.config` of buildroot. `defconfig` is what `make defconfig` writes. -/
def configure (make : Text → Text) (files : String → Option Text) (genDir : String) (defconfig : Text)
    (v : ToolVersions) (jlevel : Nat) (configs : List String) : Except Merge.Error (Text × List Note) :=
  script {} make (written files genDir (toolKfrag v jlevel) defconfig) (joinPath genDir "brDefConfig")
    (joinPath genDir "brToolKfrag" :: configs)

end br

end FireMarshal
