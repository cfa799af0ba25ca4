import Mathlib.Logic.Function.Iterate
import FireMarshal.Iocache.Wait
import FireMarshal.Iocache.Eventfd

/-! The device as a whole, with its event context and the tasks that may not migrate, and the library that processes
    use it through (`iocache_lib.c`, `iocache_lib.h`).

`registered` is not in the source: it is the event context that a process registered last and has neither cleared
nor lost by closing the device. -/

namespace FireMarshal.Iocache

structure Sys where
  dev : Dev
  ev : Eventfds
  /-- How often `migrate_disable` is in force for a task. -/
  migrate : Task → Nat
  registered : Task → Option EventfdCtx

inductive SysEvent where
  | ring (e : Event)
  | setEventfd (p : Task) (arg : EfdArg)

namespace Sys

def probe (rxBase txBase : Nat → BitVec 64) : Sys := ⟨Dev.probe rxBase txBase, {}, fun _ => 0, fun _ => none⟩

def closes (s : Sys) : Event → Nat
  | .close p => if s.dev.HasOpen p then 1 else 0
  | .exit p => s.dev.files.count p
  | _ => 0

def step (s : Sys) : SysEvent → Sys
  | .ring e =>
    { dev := s.dev.step e
      ev := Eventfds.release^[s.closes e] s.ev
      migrate := match e with
        | .reserveRing p _ _ true _ => if s.dev.CanIoctl p then Function.update s.migrate p (s.migrate p + 1) else s.migrate
        | _ => s.migrate
      registered := match e with
        | .close p | .exit p => if s.dev.HasOpen p then Function.update s.registered p none else s.registered
        | _ => s.registered }
  | .setEventfd p arg =>
    if s.dev.CanIoctl p then
      { s with
        ev := (s.ev.setEventfd arg).2
        registered := match arg with
          | .valid ctx => Function.update s.registered p (some ctx)
          | .clear => Function.update s.registered p none
          | _ => s.registered }
    else s

def regWrite (s : Sys) (a : Addr) (v : BitVec 64) : Sys := { s with dev := s.dev.iowrite a v }

end Sys

/-! ### The library -/

/-- `struct connection_info`, without the MAC addresses, which the library does not read. -/
structure ConnectionInfo where
  protocol : BitVec 8
  srcIp : BitVec 32
  dstIp : BitVec 32
  srcPort : BitVec 16
  dstPort : BitVec 16
deriving DecidableEq, Repr

structure IocacheInfo where
  row : CInt
  cpu : Nat
deriving DecidableEq, Repr

structure OpenEnv where
  fd : Bool := true
  cpu : Nat
  cpu_lt : cpu < numCpus
  regionInfo : Bool := true
  /-- The new event descriptor, as `SET_EVENTFD` finds it. -/
  efd : EfdArg
  copyIn : Bool := true
  copyOut : Bool := true
  kernelCpu : BitVec 32
  mmapRegs : Bool := true
  mmapTx : Bool := true
  mmapRx : Bool := true

/-- How `iocache_wait_on_rx` goes on if there is no packet. -/
inductive WaitOutcome where
  | failed
  /-- An interrupt or a signal wakes the process. -/
  | woken
  | timeout
deriving DecidableEq, Repr

namespace Sys

def setupConnection (s : Sys) (row : CInt) (entry : ConnectionInfo) : Sys :=
  let s := s.regWrite (reg row .protocol) (entry.protocol.setWidth 64)
  let s := s.regWrite (reg row .srcIp) (entry.srcIp.setWidth 64)
  let s := s.regWrite (reg row .srcPort) (entry.srcPort.setWidth 64)
  let s := s.regWrite (reg row .dstIp) (entry.dstIp.setWidth 64)
  let s := s.regWrite (reg row .dstPort) (entry.dstPort.setWidth 64)
  let s := s.regWrite (reg row .connId) (entry.srcPort.setWidth 64)
  s.regWrite (reg row .enabled) 1

def clearConnection (s : Sys) (row : CInt) : Sys :=
  let s := s.regWrite (reg row .protocol) 0
  let s := s.regWrite (reg row .srcIp) 0
  let s := s.regWrite (reg row .srcPort) 0
  let s := s.regWrite (reg row .dstIp) 0
  s.regWrite (reg row .dstPort) 0

/-- `iocache_wait_on_rx`, when no other process comes between. -/
def waitOnRx (s : Sys) (p : Task) (info : IocacheInfo) (outcome : WaitOutcome) : Sys :=
  if s.dev.isRxAvailable info.row then s
  else
    let s := s.regWrite (reg info.row .rxSuspended) 1
    let s := s.regWrite (regIntmaskRx info.cpu) 1
    let s := match outcome with
      | .failed => s
      | .woken => s.step (.ring (.waitReady p))
      | .timeout => (s.step (.ring (.waitReady p))).step (.ring (.timeout p))
    s.regWrite (reg info.row .rxSuspended) 0

def iocacheOpen (s : Sys) (p : Task) (info : IocacheInfo) (row : CInt) (env : OpenEnv) : Int × IocacheInfo × Sys :=
  if !env.fd then (-1, info, s)
  else
    let s := s.step (.ring (.openDev p))
    let info := { info with cpu := env.cpu }
    if !env.regionInfo then (-1, info, s.step (.ring (.close p)))
    else
      let ret := (s.ev.setEventfd env.efd).1
      let s := s.step (.setEventfd p env.efd)
      if ret < 0 then (-1, info, s.step (.ring (.close p)))
      else
        -- The result of `_iocache_reserve_ring` is ignored.
        let ret := (s.dev.reserveRing p row env.kernelCpu env.copyIn env.copyOut).1
        let s := s.step (.ring (.reserveRing p row env.kernelCpu env.copyIn env.copyOut))
        let info := if ret < 0 then info else { info with row }
        if !env.mmapRegs || !env.mmapTx || !env.mmapRx then (-1, info, s.step (.ring (.close p)))
        else (0, info, s.regWrite (regIntmaskRx info.cpu) 1)

def iocacheClose (s : Sys) (p : Task) (info : IocacheInfo) : Sys :=
  let s := s.step (.setEventfd p .clear)
  let s := s.regWrite (reg info.row .rxSuspended) 0
  let s := s.clearConnection info.row
  let s := s.step (.ring (.freeRing p))
  s.step (.ring (.close p))

end Sys

/-- What a process calls between `iocache_open` and `iocache_close`. -/
inductive LibCall where
  | setupConnection (entry : ConnectionInfo)
  | waitOnRx (outcome : WaitOutcome)

def Sys.call (p : Task) (info : IocacheInfo) (s : Sys) : LibCall → Sys
  | .setupConnection entry => s.setupConnection info.row entry
  | .waitOnRx outcome => s.waitOnRx p info outcome

end FireMarshal.Iocache
