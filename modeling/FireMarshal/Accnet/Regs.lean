import Mathlib.Data.List.FinRange
import FireMarshal.Lib.RegisterFile
import FireMarshal.Accnet.Library

/-! The registers of the UDP engines, at the offsets that `accnet.h` and `accnet_lib.h` both define, and the writes of
    `init_udp_engine` and `_init_regs`. Each engine has a region of its own. -/

namespace FireMarshal.Accnet

inductive UdpEngine where
  | rx
  | tx
  deriving DecidableEq, Repr

inductive RxRingReg where
  | head
  | tail
  | drop
  | lastTimestamp
  deriving DecidableEq, Repr

def RxRingReg.off : RxRingReg → Nat
  | .head => 0x00
  | .tail => 0x04
  | .drop => 0x08
  | .lastTimestamp => 0x10

def RxRingReg.width : RxRingReg → Nat
  | .head => 4
  | .tail => 4
  | .drop => 4
  | .lastTimestamp => 8

inductive TxRingReg where
  | head
  | tail
  | lastTimestamp
  deriving DecidableEq, Repr

def TxRingReg.off : TxRingReg → Nat
  | .head => 0x00
  | .tail => 0x04
  | .lastTimestamp => 0x08

def TxRingReg.width : TxRingReg → Nat
  | .head => 4
  | .tail => 4
  | .lastTimestamp => 8

/-- `ACCNET_UDP_RX_*`, without a ring. -/
inductive RxEngineReg where
  | irqPending
  | irqClear
  deriving DecidableEq, Repr

def RxEngineReg.off : RxEngineReg → Nat
  | .irqPending => 0x400
  | .irqClear => 0x404

/-- The headers do not give the width of the interrupt registers, which are four bytes apart. -/
def RxEngineReg.width : RxEngineReg → Nat
  | .irqPending => 4
  | .irqClear => 4

/-- `ACCNET_UDP_TX_*`, without a ring. -/
inductive TxEngineReg where
  | mtu
  | hdrMacDst
  | hdrMacSrc
  | hdrIpTos
  | hdrIpTtl
  | hdrIpId
  | hdrUdpCsum0Ok
  | irqPending
  | irqClear
  deriving DecidableEq, Repr

def TxEngineReg.off : TxEngineReg → Nat
  | .mtu => 0x400
  | .hdrMacDst => 0x408
  | .hdrMacSrc => 0x410
  | .hdrIpTos => 0x420
  | .hdrIpTtl => 0x424
  | .hdrIpId => 0x428
  | .hdrUdpCsum0Ok => 0x42c
  | .irqPending => 0x430
  | .irqClear => 0x434

/-- The flag `hdrUdpCsum0Ok` takes a byte. -/
def TxEngineReg.width : TxEngineReg → Nat
  | .mtu => 2
  | .hdrMacDst => 8
  | .hdrMacSrc => 8
  | .hdrIpTos => 1
  | .hdrIpTtl => 1
  | .hdrIpId => 2
  | .hdrUdpCsum0Ok => 1
  | .irqPending => 4
  | .irqClear => 4

/-- The registers of engines with `n` rings. -/
inductive UdpReg (n : Nat) where
  | rxRing (f : RxRingReg) (r : Fin n)
  | rx (g : RxEngineReg)
  | txRing (f : TxRingReg) (r : Fin n)
  | tx (g : TxEngineReg)
  deriving DecidableEq, Repr

namespace UdpReg

variable {n : Nat}

def engine : UdpReg n → UdpEngine
  | .rxRing _ _ => .rx
  | .rx _ => .rx
  | .txRing _ _ => .tx
  | .tx _ => .tx

def offset : UdpReg n → Nat
  | .rxRing f r => udpRxRingReg r f.off
  | .rx g => g.off
  | .txRing f r => udpTxRingReg r f.off
  | .tx g => g.off

def width : UdpReg n → Nat
  | .rxRing f _ => f.width
  | .rx g => g.width
  | .txRing f _ => f.width
  | .tx g => g.width

end UdpReg

/-- The two headers have the same offsets, but not the same number of rings. -/
inductive Header where
  | driver
  | library
  deriving DecidableEq, Repr

def Header.udpRingCount : Header → Nat
  | .driver => 64
  | .library => 1

/-- The driver adds the offset to the base (`REG`), and the library takes the element of an array of the width. -/
def Header.addr (via : Header) (off width : Nat) : Nat :=
  match via with
  | .driver => off
  | .library => width * (off / width)

/-- The regions of the engines. -/
abbrev UdpMem := UdpEngine → Nat → UInt8

/-- `ioread8` to `ioread64`, and `reg_read8` to `reg_read64`. -/
def readReg {n : Nat} (via : Header) (m : UdpMem) (reg : UdpReg n) : Nat :=
  RegisterFile.load (m reg.engine) (via.addr reg.offset reg.width) reg.width

structure RegWrite (n : Nat) where
  via : Header
  reg : UdpReg n
  val : Nat
  deriving DecidableEq, Repr

/-- `iowrite8` to `iowrite64`, and `reg_write8` to `reg_write64`. -/
def RegWrite.exec {n : Nat} (m : UdpMem) (w : RegWrite n) : UdpMem :=
  let mem := RegisterFile.store (m w.reg.engine) (w.via.addr w.reg.offset w.reg.width) w.reg.width w.val
  Function.update m w.reg.engine mem

def initUdpEngine : List (RegWrite 64) :=
  (List.finRange 64).flatMap (fun i =>
    [⟨.driver, .rxRing .head i, 0⟩, ⟨.driver, .rxRing .tail i, 0⟩,
      ⟨.driver, .txRing .head i, 0⟩, ⟨.driver, .txRing .tail i, 0⟩]) ++
  [⟨.driver, .tx .mtu, 1472⟩,
    ⟨.driver, .tx .hdrMacSrc, 0x00112233445566⟩,
    ⟨.driver, .tx .hdrMacDst, 0x00887766554433⟩,
    ⟨.driver, .tx .hdrIpTos, 0⟩,
    ⟨.driver, .tx .hdrIpTtl, 64⟩,
    ⟨.driver, .tx .hdrIpId, 0⟩]

/-- The writes of `_init_regs` to the engines. The row is one of the cache, which has as many as the driver has rings. -/
def initRegs (row : Fin 64) : List (RegWrite 64) :=
  [⟨.library, .tx .mtu, 1472⟩,
    ⟨.library, .tx .hdrMacSrc, 0x112233445566⟩,
    ⟨.library, .tx .hdrMacDst, 0x0c42a1a82de6⟩,
    ⟨.library, .tx .hdrIpTos, 0⟩,
    ⟨.library, .tx .hdrIpTtl, 64⟩,
    ⟨.library, .tx .hdrIpId, 0⟩,
    ⟨.library, .txRing .head row, 0⟩,
    ⟨.library, .txRing .tail row, 0⟩,
    ⟨.library, .rxRing .head row, 0⟩,
    ⟨.library, .rxRing .tail row, 0⟩]

/-- `_init_regs` ends the process if a tail does not read back as zero. -/
def initRegsExits (m : UdpMem) (row : Fin 64) : Bool :=
  let m := (initRegs row).foldl RegWrite.exec m
  readReg .library m (.txRing .tail row) != 0 || readReg .library m (.rxRing .tail row) != 0

end FireMarshal.Accnet
