import FireMarshal.Lib.Dict
import FireMarshal.Iocache.Driver

/-! The event context of the device (`iocache_misc.c`): `IOCACHE_IOCTL_SET_EVENTFD` and `iocache_misc_release`.

Both exchange `ev_ctx` under `ev_lock`, and put the context that they took out after they have left the lock.
`taken` and `overput` are not in the source: the first holds the references that the driver has taken and not yet
put, the second says that a context was put of which it had none. -/

namespace FireMarshal.Iocache

abbrev EventfdCtx := Nat

inductive EfdArg where
  | unreadable
  | clear
  /-- A descriptor for which `eventfd_ctx_fdget` returns an error. -/
  | invalid (err : Int)
  | valid (ctx : EventfdCtx)
deriving DecidableEq, Repr

structure Eventfds where
  evCtx : Option EventfdCtx := none
  taken : List EventfdCtx := []
  overput : Bool := false
deriving DecidableEq, Repr

namespace Eventfds

def fdget (s : Eventfds) (ctx : EventfdCtx) : Eventfds := { s with taken := ctx :: s.taken }

def exchange (s : Eventfds) (new : Option EventfdCtx) : Option EventfdCtx × Eventfds := (s.evCtx, { s with evCtx := new })

def put (s : Eventfds) : Option EventfdCtx → Eventfds
  | none => s
  | some ctx => if ctx ∈ s.taken then { s with taken := s.taken.erase ctx } else { s with overput := true }

/-! ### Calls that no other one overlaps -/

def setEventfd (s : Eventfds) : EfdArg → Int × Eventfds
  | .unreadable => (-efault, s)
  | .clear =>
    let (old, s) := s.exchange none
    (0, s.put old)
  | .invalid err => (err, s)
  | .valid ctx =>
    let (old, s) := (s.fdget ctx).exchange (some ctx)
    (0, s.put old)

def release (s : Eventfds) : Eventfds :=
  let (old, s) := s.exchange none
  s.put old

end Eventfds

/-! ### Calls that overlap -/

/-- Where a call is: before the section under the lock, with what it will put into `ev_ctx`, or behind it, with what
    it took out. -/
inductive EvPc where
  | locking (new : Option EventfdCtx)
  | putting (old : Option EventfdCtx)
deriving DecidableEq, Repr

/-- The device and the calls in progress, by thread. -/
structure EvCalls where
  ev : Eventfds := {}
  calls : Dict Task EvPc := []

inductive EvEvent where
  /-- A thread enters `SET_EVENTFD`, and goes as far as the lock. -/
  | setEventfd (t : Task) (arg : EfdArg)
  /-- A thread enters `iocache_misc_release`. -/
  | release (t : Task)
  | exchange (t : Task)
  | put (t : Task)

namespace EvCalls

/-- A thread starts a call, unless it is in one. -/
def enter (s : EvCalls) (t : Task) (new : Option EventfdCtx) : EvCalls :=
  if s.calls.hasKey t then s else { ev := new.elim s.ev s.ev.fdget, calls := (t, .locking new) :: s.calls }

def step (s : EvCalls) : EvEvent → EvCalls
  | .setEventfd _ .unreadable => s
  | .setEventfd _ (.invalid _) => s
  | .setEventfd t .clear => s.enter t none
  | .setEventfd t (.valid ctx) => s.enter t (some ctx)
  | .release t => s.enter t none
  | .exchange t =>
    match s.calls.lookup t with
    | some (.locking new) =>
      { ev := (s.ev.exchange new).2
        calls := (t, .putting (s.ev.exchange new).1) :: s.calls.filter fun (u, _) => u != t }
    | _ => s
  | .put t =>
    match s.calls.lookup t with
    | some (.putting old) => { ev := s.ev.put old, calls := s.calls.filter fun (u, _) => u != t }
    | _ => s

end EvCalls
end FireMarshal.Iocache
