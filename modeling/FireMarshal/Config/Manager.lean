import FireMarshal.Lib.Memo
import FireMarshal.Config.Config

/-! The initialisation loop of `ConfigManager` (`wlutil/config.py`).

The configurations are objects on a heap: the dictionary of each (`val`), its attribute `initialized` (`done`), and
the calls of `applyBase` so far (`calls`), which the code does not record. Recursion is bounded by fuel. -/

namespace FireMarshal

abbrev Heap := Memo.St Ref Config

structure WorkloadConfigError where
  path : String
  opt : Option String := none
  extra : Option String := none
deriving DecidableEq, Repr

def WorkloadConfigError.str (e : WorkloadConfigError) : String :=
  "Unable to load workload " ++ e.path ++
    (match e.opt with
      | some opt => ": error with option '" ++ opt ++ "'"
      | none => "") ++
    (match e.extra with
      | some extra => ": " ++ extra
      | none => "")

structure ConfigManager where
  wlutilDir : String
  cfgs : Dict String Ref

namespace ConfigManager

def callApplyBase (m : ConfigManager) (cfg baseCfg : Ref) (s : Heap) : Except (Memo.Failure PyError) Heap :=
  match (s.val cfg).applyBase m.wlutilDir (s.val baseCfg) with
  | .error e => .error (.raised e)
  | .ok v => .ok (s.call cfg baseCfg v)

def initializeFromBase (m : ConfigManager) : Nat → Ref → Heap → Except (Memo.Failure PyError) Heap
  | 0, _, _ => .error .outOfFuel
  | n + 1, cfg, s =>
    if s.done cfg then .ok s
    else
      (match (s.val cfg).base with
        | some base =>
          match m.cfgs.lookup base with
          | none => .error (.raised (.keyError base))
          | some baseCfg =>
            (if s.done baseCfg then .ok s else m.initializeFromBase n baseCfg s) >>= m.callApplyBase cfg baseCfg
        | none => .ok (s.set cfg (s.val cfg).setLaunch)) >>= fun s =>
      -- Jobs refer to this configuration, so that it is marked before they are initialised.
      ((s.mark cfg).val cfg).jobs.foldlM (fun s job => m.initializeFromBase n job s) (s.mark cfg)

/-- The handler around `_initializeFromBase` in `ConfigManager.__init__`. -/
def wrapError {α : Type} (cfgName : String) :
    Except (Memo.Failure PyError) α → Except (Memo.Failure WorkloadConfigError) α
  | .ok a => .ok a
  | .error .outOfFuel => .error .outOfFuel
  | .error (.raised (.keyError key)) =>
    .error (.raised { path := cfgName, extra := some ("Missing required option '" ++ key ++ "'") })
  | .error (.raised e) => .error (.raised { path := cfgName, extra := some ("Unable to parse config: " ++ e.repr) })

/-- The loop of `ConfigManager.__init__` that fills in defaults from base configurations. -/
def initializeAll (m : ConfigManager) (n : Nat) (s : Heap) : Except (Memo.Failure WorkloadConfigError) Heap :=
  m.cfgs.foldlM (fun s (cfgName, cfg) => wrapError cfgName (m.initializeFromBase n cfg s)) s

end ConfigManager
end FireMarshal
