import Mathlib.Logic.Function.Basic
import Mathlib.Tactic.Common

/-! The iocache driver (`iocache.h`, `iocache_misc.c`, `iocache.c`): the row table in device registers, the
    ioctls that reserve and free rows, and the interrupt handler that wakes the processes they name.

A register is a 64-bit cell at its address; a narrower write gives it the written value. `held` and `written`
are not in the source: the first records which live process reserved which row and did not free it, the second
every address that is written. Event contexts, timers and the scheduler calls touch no row and have modules of
their own. -/

namespace FireMarshal.Iocache

/-- A C `int`. -/
abbrev CInt := BitVec 32

/-- A pointer to a `task_struct`; zero is `NULL`. -/
abbrev Task := BitVec 64

abbrev Addr := BitVec 64

def cacheEntryCount : Nat := 64

def numCpus : Nat := 4

/-- The registers of a row that the driver and its library access. -/
inductive Field where
  | enabled
  | protocol
  | srcIp
  | srcPort
  | dstIp
  | dstPort
  | rxAvailable
  | rxSuspended
  | connId
  | procPtr
  | procCpu
  | rxRingAddr
  | rxRingSize
  | txRingAddr
  | txRingSize
deriving DecidableEq, Repr

def Field.off : Field → Nat
  | .enabled => 0x00
  | .protocol => 0x08
  | .srcIp => 0x10
  | .srcPort => 0x18
  | .dstIp => 0x20
  | .dstPort => 0x28
  | .rxAvailable => 0x30
  | .rxSuspended => 0x38
  | .connId => 0x58
  | .procPtr => 0x60
  | .procCpu => 0x68
  | .rxRingAddr => 0x70
  | .rxRingSize => 0x78
  | .txRingAddr => 0x80
  | .txRingSize => 0x88

/-- `IOCACHE_REG(row, off)`: arithmetic of `unsigned long`, to which the row is converted. -/
def reg (row : CInt) (f : Field) : Addr := 0x300#64 + row.signExtend 64 * 0x100#64 + BitVec.ofNat 64 f.off

/-- `IOCACHE_REG_INTMASK_RX` and `IOCACHE_REG_INTMASK_TXCOMP` -/
def regIntmaskRx (cpu : Nat) : Addr := BitVec.ofNat 64 (0x10 * cpu)

def regIntmaskTxcomp (cpu : Nat) : Addr := BitVec.ofNat 64 (0x10 * cpu + 0x08)

def regRxKickAllCpu : Addr := 0x100#64

def InRange (row : CInt) : Prop := 0 ≤ row.toInt ∧ row.toInt < cacheEntryCount

instance (row : CInt) : Decidable (InRange row) := inferInstanceAs (Decidable (_ ∧ _))

/-- The address lies in the row table. -/
def InTable (a : Addr) : Prop := 0x300 ≤ a.toNat ∧ a.toNat < 0x300 + cacheEntryCount * 0x100

structure Dev where
  regs : Addr → BitVec 64
  alive : List Task
  files : List Task
  iocacheId : Task → CInt
  held : List (Task × CInt)
  written : List Addr

/-- `-EFAULT` is what an ioctl returns if a copy from or to the process fails. -/
def efault : Int := 14

namespace Dev

def iowrite (s : Dev) (a : Addr) (v : BitVec 64) : Dev :=
  { s with regs := Function.update s.regs a v, written := a :: s.written }

def procPtr (s : Dev) (row : CInt) : Task := s.regs (reg row .procPtr)

/-! ### `iocache_misc_ioctl` -/

/-- `IOCACHE_IOCTL_RESERVE_RING`; the last two arguments say whether the copies from and to the process
    succeed. -/
def reserveRing (s : Dev) (p : Task) (row : CInt) (cpu : BitVec 32) (copyIn copyOut : Bool) : Int × Dev :=
  if !copyIn then (-efault, s)
  else
    let s := s.iowrite (reg row .enabled) 1
    let s := s.iowrite (reg row .procCpu) (cpu.setWidth 64)
    let s := s.iowrite (reg row .procPtr) p
    let s := { s with iocacheId := Function.update s.iocacheId p row, held := (p, row) :: s.held }
    if !copyOut then (-efault, s) else (0, s)

def freeRing (s : Dev) (p : Task) : Dev :=
  let row := s.iocacheId p
  let s := s.iowrite (reg row .enabled) 0
  let s := s.iowrite (reg row .procCpu) 0
  let s := s.iowrite (reg row .procPtr) 0
  { s with held := s.held.filter (· ≠ (p, row)) }

/-- `IOCACHE_IOCTL_WAIT_READY`, up to the call of `schedule`. -/
def waitReady (s : Dev) (p : Task) : Dev := s.iowrite (reg (s.iocacheId p) .rxSuspended) 1

def timeoutCb (s : Dev) (p : Task) : Dev :=
  if s.regs (reg (s.iocacheId p) .rxSuspended) = 0 then s
  else s.iowrite (reg (s.iocacheId p) .rxSuspended) 0

/-! ### Interrupts -/

/-- The loop of `iocache_isr_rx` over the rows: the pointers that it passes to `wake_up_process_iocache`. -/
def isrLoop (s : Dev) (mask : BitVec 64) : List Nat → Nat → List Task
  | [], _ => []
  | i :: rows, count =>
    if count = 0 then []
    else if mask.getLsbD i then
      let raw := s.procPtr (BitVec.ofNat 32 i)
      -- "Bad ISR behaviour": the row is skipped and not counted.
      if raw = 0 then isrLoop s mask rows count else raw :: isrLoop s mask rows (count - 1)
    else isrLoop s mask rows count

/-- `iocache_isr_rx` on a CPU, with the count and the mask that the device reports. -/
def isrRx (s : Dev) (cpu : BitVec 32) (count : BitVec 32) (mask : BitVec 64) : Dev × List Task :=
  (s.iowrite regRxKickAllCpu (cpu.setWidth 64), isrLoop s mask (List.range cacheEntryCount) count.toNat)

/-! ### `iocache_probe` -/

/-- A row of `populate_ring_info`. -/
def populateRow (rxBase txBase : Nat → BitVec 64) (s : Dev) (i : Nat) : Dev :=
  let row : CInt := BitVec.ofNat 32 i
  let s := s.iowrite (reg row .enabled) 0
  let s := s.iowrite (reg row .rxRingAddr) (rxBase i)
  let s := s.iowrite (reg row .rxRingSize) (32 * 1024)
  let s := s.iowrite (reg row .txRingAddr) (txBase i)
  s.iowrite (reg row .txRingSize) (32 * 1024)

/-- The masks that `iocache_probe` sets for a CPU. -/
def setIntmasks (s : Dev) (cpu : Nat) : Dev :=
  (s.iowrite (regIntmaskRx cpu) 1).iowrite (regIntmaskTxcomp cpu) 1

def reset : Dev :=
  { regs := fun _ => 0, alive := [], files := [], iocacheId := fun _ => 0, held := [], written := [] }

/-- The device after `iocache_probe`, for the DMA addresses of the rings. -/
def probe (rxBase txBase : Nat → BitVec 64) : Dev :=
  (List.range cacheEntryCount).foldl (populateRow rxBase txBase) ((List.range numCpus).foldl setIntmasks reset)

end Dev

/-! ### Runs -/

inductive Event where
  /-- A process starts, with what the kernel puts into its `iocache_id`. -/
  | spawn (p : Task) (id : CInt)
  | openDev (p : Task)
  | close (p : Task)
  /-- A process exits or is killed; its files are closed. -/
  | exit (p : Task)
  | reserveRing (p : Task) (row : CInt) (cpu : BitVec 32) (copyIn copyOut : Bool)
  | freeRing (p : Task)
  | waitReady (p : Task)
  | timeout (p : Task)
  | isrRx (cpu : BitVec 32) (count : BitVec 32) (mask : BitVec 64)

def Dev.HasOpen (s : Dev) (p : Task) : Prop := p ∈ s.files

instance (s : Dev) (p : Task) : Decidable (s.HasOpen p) := inferInstanceAs (Decidable (_ ∈ _))

/-- An ioctl needs a live process and an open file. -/
def Dev.CanIoctl (s : Dev) (p : Task) : Prop := p ∈ s.alive ∧ p ∈ s.files

instance (s : Dev) (p : Task) : Decidable (s.CanIoctl p) := inferInstanceAs (Decidable (_ ∧ _))

/-- One step; a step that its process cannot take changes nothing. -/
def Dev.step (s : Dev) : Event → Dev
  | .spawn p id =>
    if p = 0 ∨ p ∈ s.alive then s
    else { s with alive := p :: s.alive, iocacheId := Function.update s.iocacheId p id }
  | .openDev p => if p ∈ s.alive then { s with files := p :: s.files } else s
  | .close p => { s with files := s.files.erase p }
  | .exit p =>
    { s with
      alive := s.alive.filter (· ≠ p), files := s.files.filter (· ≠ p), held := s.held.filter (·.1 ≠ p) }
  | .reserveRing p row cpu copyIn copyOut =>
    if s.CanIoctl p then (s.reserveRing p row cpu copyIn copyOut).2 else s
  | .freeRing p => if s.CanIoctl p then s.freeRing p else s
  | .waitReady p => if s.CanIoctl p then s.waitReady p else s
  | .timeout p => if p ∈ s.alive then s.timeoutCb p else s
  | .isrRx cpu count mask => (s.isrRx cpu count mask).1

end FireMarshal.Iocache
