import FireMarshal.Lib.Routine
import FireMarshal.Iocache.Driver

/-! `iocache_probe` (`iocache.c`) and what it calls there and in `iocache_plic.c`, for every outcome of its steps.

The interrupts of the device are numbered as in its device tree: `2 * i` is the RX interrupt of CPU `i`, `2 * i + 1`
its TX completion interrupt. What the kernel releases by itself when a probe fails (memory of `devm_kzalloc`, register
mappings, interrupt handlers of `devm_request_irq`) is no part of the state. -/

namespace FireMarshal.Iocache
open Routine Errno

structure ProbeEnv where
  ofNode : Bool := true
  kzalloc : Bool := true
  addressToResource : Code := ⟨0, by decide⟩
  ioremapResource : Code := ⟨0, by decide⟩
  /-- `irq_of_parse_and_map`, which returns 0 if it fails. -/
  parseAndMap : Nat → Nat
  requestIrq : Nat → Code := fun _ => ⟨0, by decide⟩
  /-- One of the two compatible nodes of the PLIC is found. -/
  plicNode : Bool := true
  plicIomap : Bool := true
  /-- `get_hwirq` in `plic_set_prio`, which returns 0 if it fails. -/
  prioHwirq : Nat → Nat
  /-- The addresses that `dma_alloc_coherent` returns for the rows, if it does not fail. -/
  dmaTx : Nat → Option (BitVec 64)
  dmaRx : Nat → Option (BitVec 64)
  /-- `get_hwirq` in `plic_register_fast_path` -/
  fastHwirq : Nat → Nat
  registerSourceHandler : Nat → Code := fun _ => ⟨0, by decide⟩
  /-- What the variable `ret` of `plic_register_fast_path` holds before anything is assigned to it. -/
  uninit : Int := 0
  miscRegister : Code := ⟨0, by decide⟩

inductive DmaBuffer where
  | tx (row : Nat)
  | rx (row : Nat)
deriving DecidableEq, Repr

/-- What `iocache_probe` leaves behind, unless it takes it back. -/
structure Probed where
  dev : Dev := Dev.reset
  plicMapped : Bool := false
  /-- `register_iocache_forall` was called. -/
  forAll : Bool := false
  dma : List DmaBuffer := []
  /-- The hardware interrupts whose PLIC source handler points to the device. -/
  handlers : List Nat := []
  misc : Bool := false

def alignBytes (a : BitVec 64) : BitVec 64 := (a + 63) &&& ~~~63

namespace ProbeEnv

/-! ### `iocache.c` -/

def parseAddr (env : ProbeEnv) : Routine Probed Unit := do
  failIf (env.addressToResource.1 ≠ 0) env.addressToResource
  failIf (env.ioremapResource.1 ≠ 0) env.ioremapResource

/-- The part of the loop of `iocache_parse_irq` for one interrupt. -/
def parseOneIrq (env : ProbeEnv) (k : Nat) : Routine Probed Unit := do
  failIf (env.parseAndMap k = 0) (-einval)
  failIf ((env.requestIrq k).1 ≠ 0) (env.requestIrq k)

def parseIrq (env : ProbeEnv) : Routine Probed Unit :=
  (List.range numCpus).forM fun i => do
    env.parseOneIrq (2 * i)
    env.parseOneIrq (2 * i + 1)

/-- The part of the loop of `init_udp_rings` for one row. -/
def initUdpRing (env : ProbeEnv) (i : Nat) : Routine Probed Unit := do
  failIf (env.dmaTx i).isNone (-enomem)
  modify fun s => { s with dma := s.dma ++ [.tx i] }
  failIf (env.dmaRx i).isNone (-enomem)
  modify fun s => { s with dma := s.dma ++ [.rx i] }

def initUdpRings (env : ProbeEnv) : Routine Probed Unit := (List.range cacheEntryCount).forM env.initUdpRing

/-- `dma_region_addr_udp_rx_aligned` and `dma_region_addr_udp_tx_aligned` -/
def rxBase (env : ProbeEnv) (i : Nat) : BitVec 64 := alignBytes ((env.dmaRx i).getD 0)

def txBase (env : ProbeEnv) (i : Nat) : BitVec 64 := alignBytes ((env.dmaTx i).getD 0)

def populateRingInfo (env : ProbeEnv) (d : Dev) : Dev :=
  (List.range cacheEntryCount).foldl (Dev.populateRow env.rxBase env.txBase) d

/-! ### `iocache_plic.c` -/

def mapPlicBase (env : ProbeEnv) : Routine Probed Unit := do
  failIf (!env.plicNode) (-enodev)
  failIf (!env.plicIomap) (-enomem)
  modify fun s => { s with plicMapped := true }

/-- The part of the loop of `plic_set_prio` for one interrupt. `ret` is still 0 then, from `map_plic_base`. -/
def setPrio (env : ProbeEnv) (ret : Int) (k : Nat) : Routine Probed Unit := failIf (env.prioHwirq k = 0) ret

def plicSetPrio (env : ProbeEnv) : Routine Probed Unit := do
  let ret ← call env.mapPlicBase
  failIf (ret ≠ 0) ret
  (List.range numCpus).forM fun i => do
    env.setPrio ret (2 * i)
    env.setPrio ret (2 * i + 1)

/-- The part of the loop of `plic_register_fast_path` for one interrupt, with the value of `ret` before and after. -/
def registerIrq (env : ProbeEnv) (ret : Int) (k : Nat) : Routine Probed Int := do
  failIf (env.fastHwirq k = 0) ret
  let ret := (env.registerSourceHandler k).1
  failIf (ret ≠ 0) ret
  modify fun s => { s with handlers := s.handlers ++ [env.fastHwirq k] }
  return ret

def plicRegisterFastPath (env : ProbeEnv) : Routine Probed Unit := do
  let _ ← (List.range numCpus).foldlM (fun ret i => do
    let ret ← env.registerIrq ret (2 * i)
    env.registerIrq ret (2 * i + 1)) env.uninit

end ProbeEnv

def iocacheProbe (env : ProbeEnv) : Routine Probed Unit := do
  failIf (!env.ofNode) (-enodev)
  failIf (!env.kzalloc) (-enomem)
  let ret ← call env.parseAddr
  failIf (ret < 0) ret
  let ret ← call env.parseIrq
  failIf (ret < 0) ret
  let ret ← call env.plicSetPrio
  failIf (ret ≠ 0) ret
  modify fun s => { s with forAll := true }
  modify fun s => { s with dev := (List.range numCpus).foldl Dev.setIntmasks s.dev }
  let ret ← call env.initUdpRings
  failIf (ret ≠ 0) ret
  modify fun s => { s with dev := env.populateRingInfo s.dev }
  let ret ← call env.plicRegisterFastPath
  failIf (ret ≠ 0) ret
  -- The result of `misc_register` is not looked at.
  modify fun s => { s with misc := env.miscRegister.1 = 0 }

end FireMarshal.Iocache
