import Mathlib.Algebra.Ring.Nat

/-! The `mmap` handlers of the iocache and accnet drivers (`iocache_misc.c`, `accnet_misc.c`). Both cut the page
    offset of the request into the index of a region and an offset into it. -/

namespace FireMarshal.Mmap

/-- What the handlers read of a `struct vm_area_struct`. -/
structure Vma where
  vmStart : BitVec 64
  vmEnd : BitVec 64
  vmPgoff : BitVec 64
  shared : Bool
deriving DecidableEq, Repr

/-- A range of physical memory: the registers of a device, or the DMA buffer of a ring. -/
structure Region where
  phys : BitVec 64
  size : BitVec 64
deriving DecidableEq, Repr

namespace Vma

def index (v : Vma) : Int := ((v.vmPgoff >>> 28).setWidth 32).toInt

def reqLen (v : Vma) : BitVec 64 := v.vmEnd - v.vmStart

def pgoff (v : Vma) : BitVec 64 := v.vmPgoff &&& 0xfffffff#64

def reqStart (v : Vma) : BitVec 64 := v.pgoff <<< 12

/-- The checks before any region is looked at. -/
def valid (v : Vma) : Bool := !decide (v.vmEnd < v.vmStart) && v.shared

end Vma

/-- The mapping that a handler asks the kernel for. -/
inductive Mapping where
  | pfnRange (pfn size : BitVec 64)
  /-- `dma_mmap_coherent` of the buffer at `ringIdx`. -/
  | coherent (ringIdx : Int) (addr size : BitVec 64)
deriving DecidableEq, Repr

/-- The registers `r`; the result is `none` for `-EINVAL`. -/
def mapRegs (r : Region) (v : Vma) : Option Mapping :=
  if r.size < v.reqStart + v.reqLen then none else some (.pfnRange ((r.phys >>> 12) + v.pgoff) v.reqLen)

/-- The DMA buffer `buf ringIdx`, from its start. -/
def mapRing (buf : Int → Region) (ringIdx : Int) (v : Vma) : Option Mapping :=
  if (buf ringIdx).size < v.reqLen then none else some (.coherent ringIdx (buf ringIdx).phys v.reqLen)

/-! ### iocache -/

def entryCount : Int := 64

/-- The regions of `struct iocache_device`. The arrays have `entryCount` elements. -/
structure Iocache where
  control : Region
  udpTx : Int → Region
  udpRx : Int → Region

def iocacheMiscMmap (io : Iocache) (v : Vma) : Option Mapping :=
  if !v.valid then none
  else if v.index = 0 then mapRegs io.control v
  else if 1 + 2 * entryCount ≤ v.index ∨ v.index ≤ 0 then none
  else if v.index.tmod 2 = 0 then mapRing io.udpRx ((v.index - 2).tdiv 2) v
  else mapRing io.udpTx ((v.index - 1).tdiv 2) v

/-! ### accnet -/

/-- The regions of `struct accnet_device`. -/
structure Accnet where
  control : Region
  udpTx : Region
  udpRx : Region

def accnetMiscMmap (nic : Accnet) (v : Vma) : Option Mapping :=
  if !v.valid then none
  else if v.index = 0 then mapRegs nic.control v
  else if v.index = 1 then mapRegs nic.udpTx v
  else if v.index = 2 then mapRegs nic.udpRx v
  else none

end FireMarshal.Mmap
