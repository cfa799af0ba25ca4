import FireMarshal.Build.Graph

/-! The actions that run scripts of workloads on the host: `handleHostInit` and `handlePostBin` (`wlutil/build.py`). -/

namespace FireMarshal

/-- A script that is run, in a directory, with variables added to the environment. -/
structure ScriptRun where
  script : RunSpec
  cwd : String
  env : Dict String String := []
deriving DecidableEq, Repr

def checkScript (present : String → Bool) (opt : String) (script : RunSpec) : Except PyError Unit :=
  if script.path.any present then .ok () else .error (.valueError (opt ++ " script " ++ script.str ++ " not found."))

def handleHostInit (present : String → Bool) (c : Config) : Except PyError (Option ScriptRun) :=
  match c.hostInit with
  | none => .ok none
  | some script => checkScript present "host-init" script >>= fun _ => .ok (some { script, cwd := c.workdir })

def handlePostBin (present : String → Bool) (c : Config) (linuxBin : String) : Except PyError (Option ScriptRun) :=
  match c.postBin with
  | none => .ok none
  | some script =>
    checkScript present "post-bin" script >>= fun _ =>
    match c.linux with
    | none => .ok (some { script, cwd := c.workdir })
    | some l =>
      match l.source with
      | none => .error (.keyError "source")
      | some source =>
        .ok (some
          { script, cwd := c.workdir, env := [("FIREMARSHAL_LINUX_SRC", source), ("FIREMARSHAL_LINUX_BIN", linuxBin)] })

def Action.script (present : String → Bool) : Action → Except PyError (Option ScriptRun)
  | .handleHostInit c => FireMarshal.handleHostInit present c
  | .handlePostBin c linuxBin => FireMarshal.handlePostBin present c linuxBin
  | _ => .ok none

end FireMarshal
