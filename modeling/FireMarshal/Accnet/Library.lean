import Mathlib.Algebra.Ring.Nat
import FireMarshal.Lib.Ring

/-! The library that processes use the accnet device through (`accnet_lib.c`, `accnet_lib.h`, `common.h`): sending through
    the TX ring of a row, and the time that a packet was outside of the device.

The registers of an engine and the object `*accnet` itself are memory in words of 32 bits. -/

namespace FireMarshal.Accnet

abbrev Words := Nat → BitVec 32

def regRead32 (base : Words) (reg : Nat) : BitVec 32 := base (reg / 4)

def regWrite32 (base : Words) (reg : Nat) (val : BitVec 32) : Words := Function.update base (reg / 4) val

/-- The lower half of a 64-bit register comes first. -/
def regRead64 (base : Words) (reg : Nat) : BitVec 64 := base (2 * (reg / 8) + 1) ++ base (2 * (reg / 8))

def udpTxRingReg (r off : Nat) : Nat := r * 0x10 + off

def udpRxRingReg (r off : Nat) : Nat := r * 0x20 + off

def udpTxRingHead (r : Nat) : Nat := udpTxRingReg r 0x00

def udpTxRingTail (r : Nat) : Nat := udpTxRingReg r 0x04

def udpTxRingLastTimestamp (r : Nat) : Nat := udpTxRingReg r 0x08

def udpRxRingLastTimestamp (r : Nat) : Nat := udpRxRingReg r 0x10

/-- `struct accnet_info`, with what its pointers lead to. -/
structure AccnetInfo where
  /-- The object itself and the memory behind it: `fd` is its first word. -/
  object : Words
  udpTxRegs : Words
  udpRxRegs : Words
  row : Nat
  udpTxSize : BitVec 64
  /-- The memory from `iocache->udp_tx_buffer` on. -/
  udpTxBuffer : Nat → UInt8

/-- The registers are read from `accnet`, not from `accnet->udp_tx_regs`. -/
def accnetGetTxHead (a : AccnetInfo) : BitVec 32 := regRead32 a.object (udpTxRingHead a.row)

def accnetGetTxTail (a : AccnetInfo) : BitVec 32 := regRead32 a.object (udpTxRingTail a.row)

/-- The register is written behind `accnet->udp_rx_regs`. -/
def accnetSetTxTail (a : AccnetInfo) (val : BitVec 32) : AccnetInfo :=
  { a with udpRxRegs := regWrite32 a.udpRxRegs (udpTxRingTail a.row) val }

/-- `accnet_send`. It also computes `avail` from the head, and does not use it. -/
def accnetSend (a : AccnetInfo) (buffer : List UInt8) : BitVec 64 × AccnetInfo :=
  let len := BitVec.ofNat 64 buffer.length
  let txTail := accnetGetTxTail a
  let txSize : BitVec 32 := a.udpTxSize.setWidth 32
  let val : BitVec 32 := ((txTail.setWidth 64 + len) % txSize.setWidth 64).setWidth 32
  -- memcpy
  let a := { a with udpTxBuffer := Ring.copy a.udpTxBuffer txTail.toNat (buffer.getD · 0) 0 buffer.length }
  (len, accnetSetTxTail a val)

namespace AccnetInfo

def rxTimestamp (a : AccnetInfo) : BitVec 64 := regRead64 a.udpRxRegs (udpRxRingLastTimestamp a.row)

def txTimestamp (a : AccnetInfo) : BitVec 64 := regRead64 a.udpTxRegs (udpTxRingLastTimestamp a.row)

end AccnetInfo

/-- `accnet_get_outside_ticks`. The variables are declared without a type, so they are of type `int`. Where their
    difference does not fit an `int`, it wraps. -/
def accnetGetOutsideTicks (a : AccnetInfo) : BitVec 64 :=
  let rxTimestamp : BitVec 32 := a.rxTimestamp.setWidth 32
  let txTimestamp : BitVec 32 := a.txTimestamp.setWidth 32
  if rxTimestamp.toInt ≤ txTimestamp.toInt then 0#64 else (rxTimestamp - txTimestamp).signExtend 64

end FireMarshal.Accnet
