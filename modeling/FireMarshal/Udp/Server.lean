import Mathlib.Algebra.Ring.Nat
import FireMarshal.Lib.Ring

/-! The echo server `test_udp_server_block` (`udp_exp.c`) between the RX ring that the device fills and the TX ring that
    it empties.

The device runs concurrently: packets may arrive before every access of the server to the RX ring. A round of the loop
in which `iocache_wait_on_rx` fails does nothing and is left out. -/

namespace FireMarshal.Udp

/-- The sizes of the rings of a row. `uint32_t` holds every sum of positions. -/
structure Rings where
  rxSize : Nat
  txSize : Nat
  rx_pos : 0 < rxSize
  rx_le : rxSize ≤ txSize
  fits : rxSize + txSize ≤ 2 ^ 32

/-- What `iocache_open` sets, and `accnet_open` writes into the registers of the row. -/
def iocacheRings : Rings where
  rxSize := 8 * 1024
  txSize := 8 * 1024
  rx_pos := by decide
  rx_le := by decide
  fits := by decide

/-! ### The RX ring -/

/-- The RX ring: its buffer, and its head and tail registers. The buffer goes on behind the ring. -/
structure RxRing (n : Nat) where
  mem : Nat → UInt8
  head : Fin n
  tail : Fin n
  /-- The bytes of all packets that the device has placed in the ring. -/
  received : List UInt8 := []

namespace RxRing

variable {n : Nat}

def put (r : RxRing n) (b : UInt8) : RxRing n :=
  { r with
    mem := Function.update r.mem r.tail b
    tail := ⟨(r.tail + 1) % n, Nat.mod_lt _ r.tail.pos⟩
    received := r.received ++ [b] }

/-- A packet arrives. One byte of the ring stays free; a packet that does not fit is dropped. -/
def arrive (r : RxRing n) (packet : List UInt8) : RxRing n :=
  if Ring.count n r.tail r.head + packet.length < n then packet.foldl put r else r

def arriveAll (r : RxRing n) (packets : List (List UInt8)) : RxRing n := packets.foldl arrive r

def pending (r : RxRing n) : List UInt8 := Ring.queued n r.mem r.tail r.head

end RxRing

/-! ### The server -/

structure Arrivals where
  beforeRead : List (List UInt8) := []
  beforeCopy : List (List UInt8) := []
  /-- Before `RX_RING_HEAD` is written. -/
  beforeHead : List (List UInt8) := []
  /-- Before `TX_RING_TAIL` is written. -/
  beforeTail : List (List UInt8) := []

/-- The state at the start of a round, where the variable `rx_head` and the register agree. -/
structure Server (g : Rings) where
  rx : RxRing g.rxSize
  txMem : Nat → UInt8
  txTail : Fin g.txSize
  /-- The bytes that the TX ring has held from the old to the new tail, each time the tail was written. -/
  exposed : List UInt8 := []
  /-- The addresses in the TX buffer that have been written. -/
  written : List Nat := []

def Rings.batch (g : Rings) (rxHead rxTail : Nat) : Nat :=
  if rxTail > rxHead then rxTail - rxHead else g.rxSize - (rxHead - rxTail)

def Rings.newTxTail (g : Rings) (txTail : Fin g.txSize) (size : Nat) : Fin g.txSize :=
  ⟨(txTail + size) % 2 ^ 32 % g.txSize, Nat.mod_lt _ txTail.pos⟩

namespace Server

variable {g : Rings}

def serve (s : Server g) (a : Arrivals) : Server g :=
  let rx := s.rx.arriveAll a.beforeRead
  let rxTail := rx.tail
  if rxTail = rx.head then { s with rx }
  else
    let size := g.batch rx.head rxTail
    let rx := rx.arriveAll a.beforeCopy
    -- memcpy
    let txMem := Ring.copy s.txMem s.txTail rx.mem rx.head size
    let rx := rx.arriveAll a.beforeHead
    let rx := { rx with head := rxTail }
    let rx := rx.arriveAll a.beforeTail
    let newTxTail := g.newTxTail s.txTail size
    { rx, txMem, txTail := newTxTail
      exposed := s.exposed ++ Ring.queued g.txSize txMem newTxTail s.txTail
      written := s.written ++ List.range' s.txTail size }

end Server

/-- The server from its start, with the registers as it finds them. It returns at once if one of the rings is not
    empty. -/
def testUdpServerBlock {g : Rings} (txHead txTail : Fin g.txSize) (rx : RxRing g.rxSize) (txMem : Nat → UInt8)
    (as : List Arrivals) : Server g :=
  if txHead ≠ txTail then { rx, txMem, txTail }
  else if rx.head ≠ rx.tail then { rx, txMem, txTail }
  else as.foldl Server.serve { rx, txMem, txTail }

end FireMarshal.Udp
