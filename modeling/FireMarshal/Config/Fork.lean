import FireMarshal.Lib.Memo
import FireMarshal.Config.Config

/-! Forking of base configurations for distro options (`wlutil/config.py`).

A configuration that sets 'distro' gets copies of all its parents, down to a distro workload that is built with its
options. Configurations and the dictionaries of their group 'distro' are objects that are shared by reference and
changed in place. -/

namespace FireMarshal

/-- The dictionary 'distro' of a configuration; `ω` is the type of the options of distro modules. -/
structure Distro (ω : Type) where
  name : String
  opts : ω
  leaf : Bool
deriving DecidableEq, Repr

structure DistroWorkload (ω : Type) where
  name : String
  distroName : String
  opts : ω
  builder : String
  img : Option String := none
  qemu : Option (Option String) := none

/-- The functions of a distro module; `getWorkload` stands for `Builder(opts).getWorkload()`. -/
structure DistroModule (ω : Type) where
  mergeOpts : ω → ω → Except PyError ω
  hashOpts : ω → Option String
  getWorkload : ω → DistroWorkload ω

/-- The loaded configurations (`cfgs`), and the objects that they refer to. Objects are allocated from `next` on. -/
structure Pool (ω : Type) where
  cfgs : Dict String Ref
  cfg : Ref → Config
  dist : Ref → Distro ω
  initialized : Ref → Bool
  next : Ref

/-- The options that are set outside of the configurations: 'distro-mods', and the directory for the images. -/
structure Marshal (ω : Type) where
  distroMods : Dict String (DistroModule ω)
  imageDir : String

variable {ω : Type}

namespace Pool

def setCfg (p : Pool ω) (r : Ref) (c : Config) : Pool ω := { p with cfg := Function.update p.cfg r c }

def setBase (p : Pool ω) (r : Ref) (base : String) : Pool ω := p.setCfg r { p.cfg r with base := some base }

def setOpts (p : Pool ω) (d : Ref) (opts : ω) : Pool ω :=
  { p with dist := Function.update p.dist d { p.dist d with opts } }

def addKey (p : Pool ω) (name : String) (r : Ref) : Pool ω := { p with cfgs := p.cfgs ++ [(name, r)] }

def last (p : Pool ω) : Ref := p.next - 1

def newCfg (p : Pool ω) (c : Config) : Pool ω := { p.setCfg p.next c with next := p.next + 1 }

def newDist (p : Pool ω) (d : Distro ω) : Pool ω :=
  { p with dist := Function.update p.dist p.next d, next := p.next + 1 }

/-- A copy of a configuration with its own dictionary 'distro', but with the same jobs. -/
def copyCfg (p : Pool ω) (c : Config) : Pool ω :=
  match c.distro with
  | none => p.newCfg c
  | some d => (p.newDist (p.dist d)).newCfg { c with distro := some p.next }

/-- Copies of jobs, and their references; jobs have no jobs themselves. -/
def copyJobs (p : Pool ω) : List Ref → List Ref × Pool ω
  | [] => ([], p)
  | j :: js =>
    let q := p.copyCfg (p.cfg j)
    let rest := q.copyJobs js
    (q.last :: rest.1, rest.2)

/-- `copy.deepcopy(cfg)`; the copy is the object that is allocated last. -/
def deepcopy (p : Pool ω) (r : Ref) : Pool ω :=
  let copies := p.copyJobs (p.cfg r).jobs
  copies.2.copyCfg { p.cfg r with jobs := copies.1 }

def mergeOptsRecursive (distMod : DistroModule ω) (p : Pool ω) : Nat → Ref → Except (Memo.Failure PyError) (Option ω)
  | 0, _ => .error .outOfFuel
  | n + 1, r =>
    let cfg := p.cfg r
    if cfg.isDistro then .ok none
    else
      match cfg.base with
      | none =>
        match cfg.distro with
        | none => .error (.raised (.keyError "distro"))
        | some d => .ok (some (p.dist d).opts)
      | some base =>
        match p.cfgs.lookup base with
        | none => .error (.raised (.keyError base))
        | some b =>
          p.mergeOptsRecursive distMod n b >>= fun baseOpts =>
          match cfg.distro, baseOpts with
          | none, baseOpts => .ok baseOpts
          | some d, none => .ok (some (p.dist d).opts)
          | some d, some baseOpts =>
            match distMod.mergeOpts baseOpts (p.dist d).opts with
            | .ok opts => .ok (some opts)
            | .error e => .error (.raised e)

end Pool

def forkName (name : String) : Option String → String
  | some distID => name ++ "." ++ distID
  | none => name

namespace Marshal

/-- `Config(cfgDict=distObj.getWorkload())` -/
def distroConfig (m : Marshal ω) (w : DistroWorkload ω) (distro : Ref) : Config :=
  { name := w.name
    outDir := joinPath m.imageDir w.name
    imgHardcoded := w.img.isSome
    isDistro := true
    distro := some distro
    builder := some w.builder
    img := w.img
    qemu := w.qemu }

def addDistro (m : Marshal ω) (p : Pool ω) (baseName : String) (w : DistroWorkload ω) : Pool ω :=
  let q := (p.newDist { name := w.distroName, opts := w.opts, leaf := true }).newCfg (m.distroConfig w p.next)
  { q.addKey baseName (p.next + 1) with initialized := Function.update q.initialized (p.next + 1) true }

/-- The branch of `forkRecursive` for a workload that is based on a distro directly. -/
def forkRoot (m : Marshal ω) (distID : Option String) (r : Ref) (p : Pool ω) : Except (Memo.Failure PyError) (Pool ω) :=
  match (p.cfg r).distro with
  | none => .error (.raised (.valueError "The 'distro' option is required for workloads that do not have a base"))
  | some d =>
    let distName := (p.dist d).name
    match m.distroMods.lookup distName with
    | none => .error (.raised (.keyError distName))
    | some distMod =>
      let baseName := forkName distName distID
      let q := if p.cfgs.hasKey baseName then p else m.addDistro p baseName (distMod.getWorkload (p.dist d).opts)
      .ok (q.setBase r baseName)

/-- Enter a copy of the base `b` of `r` under the name `forkedBaseName`, with the dictionary 'distro' of `r`. -/
def forkBase (r b : Ref) (forkedBaseName : String) (p : Pool ω) : Pool ω :=
  let q := p.deepcopy b
  let fork := { q.cfg q.last with name := forkedBaseName, distro := (p.cfg r).distro }
  ((q.setCfg q.last fork).addKey forkedBaseName q.last).setBase r forkedBaseName

def forkRecursive (m : Marshal ω) (distID : Option String) :
    Nat → Ref → Pool ω → Except (Memo.Failure PyError) (Pool ω)
  | 0, _, _ => .error .outOfFuel
  | n + 1, r, p =>
    match (p.cfg r).base with
    | none => m.forkRoot distID r p
    | some base =>
      match p.cfgs.lookup base with
      | none => .error (.raised (.keyError base))
      | some b =>
        if (p.cfg b).isDistro then m.forkRoot distID r p
        else
          let forkedBaseName := forkName base distID
          if p.cfgs.hasKey forkedBaseName then .ok (p.setBase r forkedBaseName)
          else
            -- The recursion goes on with the copy.
            m.forkRecursive distID n (p.deepcopy b).last (forkBase r b forkedBaseName p)

def forkDistro (m : Marshal ω) (n : Nat) (r : Ref) (p : Pool ω) : Except (Memo.Failure PyError) (Pool ω) :=
  match (p.cfg r).distro with
  | none => .error (.raised (.keyError "distro"))
  | some d =>
    match m.distroMods.lookup (p.dist d).name with
    | none => .error (.raised (.keyError (p.dist d).name))
    | some distMod =>
      p.mergeOptsRecursive distMod n r >>= fun opts =>
      match opts with
      -- Only a configuration with 'isDistro' has no options here; `hashOpts` of Buildroot takes their length.
      | none => .error (.raised (.typeError "object of type 'NoneType' has no len()"))
      | some opts => m.forkRecursive (distMod.hashOpts opts) n r (p.setOpts d opts)

/-- The body of the loop of `ConfigManager.__init__` over the names of the configurations. -/
def forkStep (m : Marshal ω) (n : Nat) (p : Pool ω) (cfgName : String) : Except (Memo.Failure PyError) (Pool ω) :=
  match p.cfgs.lookup cfgName with
  | none => .error (.raised (.keyError cfgName))
  | some r =>
    match (p.cfg r).distro with
    | none => .ok p
    | some d => if (p.dist d).leaf then m.forkDistro n r p else .ok p

/-- The loop of `ConfigManager.__init__` that forks configurations, over the names that are loaded at its start. -/
def forkAll (m : Marshal ω) (n : Nat) (p : Pool ω) : Except (Memo.Failure PyError) (Pool ω) :=
  p.cfgs.keys.foldlM (m.forkStep n) p

end Marshal
end FireMarshal
