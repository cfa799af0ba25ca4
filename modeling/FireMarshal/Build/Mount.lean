import FireMarshal.Config.Init
import FireMarshal.Lib.Raising
import Mathlib.Data.List.Infix

/-! Mounting an image (`mountImg` in `wlutil/wlutil.py`), a context manager with three methods. Each acquires the mount,
    runs the body of the `with` statement, and unmounts. -/

namespace FireMarshal

inductive MountError where
  | python (e : PyError)
  | fileNotFoundError (path : String)
  | calledProcessError (returncode : Int)
deriving DecidableEq, Repr

/-- What the host tells `mountImg`, and what becomes of its commands. -/
structure MountEnv where
  imgPath : String
  mntPath : String
  isFile : Bool
  /-- What `mountpoint` returns for an empty directory. -/
  emptyRet : Int
  pwdlessSudo : Bool
  /-- Both firesim scripts exist and can be run with sudo. -/
  fsimCmds : Bool
  /-- The type of the file system of `mntPath`. -/
  fstype : String
  mount : Int
  chown : Int
  readPid : Option MountError
  /-- The exception that the body of the `with` statement raises. -/
  body : Option MountError
  /-- The code that each run of the unmount command returns. -/
  unmount : Nat → Int
  removePid : Option MountError

structure MountState where
  mounted : Bool := false
  unmounts : Nat := 0
deriving DecidableEq, Repr

namespace MountEnv

def run (returncode : Int) (s : MountState) : MountState × Option MountError :=
  (s, if returncode = 0 then none else some (.calledProcessError returncode))

def runMount (env : MountEnv) (s : MountState) : MountState × Option MountError :=
  run env.mount { s with mounted := s.mounted || env.mount = 0 }

def runUnmount (env : MountEnv) (s : MountState) : MountState :=
  { mounted := s.mounted && env.unmount s.unmounts ≠ 0, unmounts := s.unmounts + 1 }

/-- `run_with_retries` of the unmount command; only the last attempt raises. -/
def runWithRetries (env : MountEnv) : Nat → MountState → MountState × Option MountError
  | 0, s => (s, none)
  | attempts + 1, s =>
    if env.unmount s.unmounts = 0 then (env.runUnmount s, none)
    else if attempts = 0 then (env.runUnmount s, some (.calledProcessError (env.unmount s.unmounts)))
    else runWithRetries env attempts (env.runUnmount s)

def raises (e : Option MountError) (s : MountState) : MountState × Option MountError := (s, e)

/-- `mount` and `chown`, with sudo. -/
def withSudo (env : MountEnv) (s : MountState) : MountState × Option MountError :=
  Raising.andThen (env.runMount s) fun s =>
    Raising.andThen (run env.chown s) fun s =>
      Raising.andFinally (raises env.body s) (env.runWithRetries 3)

def withFiresim (env : MountEnv) (s : MountState) : MountState × Option MountError :=
  Raising.andThen (env.runMount s) fun s => Raising.andFinally (raises env.body s) (env.runWithRetries 3)

def withGuestmount (env : MountEnv) (s : MountState) : MountState × Option MountError :=
  Raising.andThen (env.runMount s) fun s =>
    Raising.andFinally (Raising.andThen (raises env.readPid s) (raises env.body)) fun s =>
      Raising.andThen (run (env.unmount s.unmounts) (env.runUnmount s)) (raises env.removePid)

def alreadyMounted (env : MountEnv) : MountError :=
  .python (.assertionError (env.mntPath ++ " already mounted. Somethings wrong"))

def mountpoint (env : MountEnv) (s : MountState) : Int := if s.mounted then 0 else env.emptyRet

def mountImg (env : MountEnv) (s : MountState) : MountState × Option MountError :=
  let ret := env.mountpoint s
  if !env.isFile then (s, some (.python (.assertionError ("Unable to find " ++ env.imgPath ++ " to mount"))))
  else if ¬(ret = 1 ∨ ret = 32) then (s, some env.alreadyMounted)
  else if env.pwdlessSudo then env.withSudo s
  else if env.fsimCmds then env.withFiresim s
  else if "nfs".toList <:+: env.fstype.toList then
    (s, some (.python (.assertionError
      ("Guestmount does not support " ++ env.fstype ++ " filesystems, change mount-dir to a non-NFS filesystem"))))
  else env.withGuestmount s

end MountEnv
end FireMarshal
