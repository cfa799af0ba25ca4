import FireMarshal.Iocache.Library
import FireMarshal.Mmap.Mmap

/-! The buffers that `iocache_open` maps (`iocache_lib.c`, `common.h`). The library puts the row of a buffer into the
    upper bits of the offset of an `mmap` request, and `iocache_misc_mmap` takes it out again. -/

namespace FireMarshal.Iocache
open Mmap

def mapIndex (idx : BitVec 64) : BitVec 64 := idx <<< 40

/-- The argument `2*iocache->row + 1` of `MAP_INDEX`. The macro has no brackets around it: the cast to `uint64_t` is that
    of the factor 2, and the row is converted for the product. -/
def txIdx (row : CInt) : BitVec 64 := 2#64 * row.signExtend 64 + 1#64

def rxIdx (row : CInt) : BitVec 64 := 2#64 * row.signExtend 64 + 2#64

/-- The length of a request for a ring of 8 KiB and `ALIGN - 1` bytes, in whole pages. -/
def bufferLen : BitVec 64 := (8 * 1024 + (64 - 1) + 4095) &&& ~~~4095

/-- Where the kernel places a mapping in the address space of the process. -/
structure Place where
  start : BitVec 64
  fits : start.toNat + bufferLen.toNat < 2 ^ 64

/-- A request for a buffer, as the handler sees it. The offset is an `off_t`, so that its shift keeps the sign. -/
def Place.vma (a : Place) (idx : BitVec 64) : Vma where
  vmStart := a.start
  vmEnd := a.start + bufferLen
  vmPgoff := (mapIndex idx).sshiftRight 12
  shared := true

def mmapTx (io : Mmap.Iocache) (a : Place) (row : CInt) : Option Mapping := iocacheMiscMmap io (a.vma (txIdx row))

def mmapRx (io : Mmap.Iocache) (a : Place) (row : CInt) : Option Mapping := iocacheMiscMmap io (a.vma (rxIdx row))

/-- The two requests of `iocache_open`. The second is made if the first is accepted. -/
def openBuffers (io : Mmap.Iocache) (tx rx : Place) (row : CInt) : Option (Mapping × Mapping) := do
  let txMap ← mmapTx io tx row
  let rxMap ← mmapRx io rx row
  return (txMap, rxMap)

/-- The row that `iocache_open` works with: if `RESERVE_RING` fails, the one that was there before. -/
def OpenEnv.row (env : OpenEnv) (info : IocacheInfo) (row : CInt) : CInt :=
  if env.copyIn && env.copyOut then row else info.row

/-- The requests of `iocache_open` are answered by `iocache_misc_mmap`. -/
structure OpenEnv.Answered (env : OpenEnv) (io : Mmap.Iocache) (tx rx : Place) (row : CInt) : Prop where
  tx : env.mmapTx = (Iocache.mmapTx io tx row).isSome
  rx : env.mmapRx = (Iocache.mmapRx io rx row).isSome

end FireMarshal.Iocache
