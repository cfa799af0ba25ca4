import Mathlib.Algebra.Ring.Nat
import FireMarshal.Lib.Ring

/-! The experiments of `udp_exp.c` on the rings of a row: the two loopback tests and the latency clients.

The device runs concurrently. It sends from the TX ring, which moves `TX_RING_HEAD` towards the tail, and delivers into
the RX ring, which moves `RX_RING_TAIL` and leaves one byte before the head free. It may do so before every access of the
program to a register. `sent` and `delivered` are not in the source: they count the bytes. -/

namespace FireMarshal.Udp

/-- The ring registers of a row. The sizes are those that `accnet_open` writes, `udp_tx_size` and `udp_rx_size`. -/
structure Row where
  txHead : BitVec 32
  txTail : BitVec 32
  txSize : BitVec 32
  rxHead : BitVec 32
  rxTail : BitVec 32
  rxSize : BitVec 32
  sent : Nat := 0
  delivered : Nat := 0

inductive DevMove where
  | send (k : Nat)
  | deliver (k : Nat)
deriving DecidableEq, Repr

namespace Row

def txQueued (s : Row) : Nat := Ring.count s.txSize.toNat s.txTail.toNat s.txHead.toNat

def rxQueued (s : Row) : Nat := Ring.count s.rxSize.toNat s.rxTail.toNat s.rxHead.toNat

/-- A move that the device cannot make changes nothing. -/
def move (s : Row) : DevMove → Row
  | .send k =>
    if k ≤ s.txQueued then
      { s with txHead := BitVec.ofNat 32 ((s.txHead.toNat + k) % s.txSize.toNat), sent := s.sent + k }
    else s
  | .deliver k =>
    if s.rxQueued + k < s.rxSize.toNat then
      { s with rxTail := BitVec.ofNat 32 ((s.rxTail.toNat + k) % s.rxSize.toNat), delivered := s.delivered + k }
    else s

def moves (s : Row) (ms : List DevMove) : Row := ms.foldl move s

end Row

/-! ### `try_fill_tx` and `drain_rx` -/

/-- What the device does before the accesses of a call to the registers, in their order. -/
structure Moves where
  head : List DevMove := []
  tail : List DevMove := []
  size : List DevMove := []
  write : List DevMove := []

def ringFreeBytes (head tail size : BitVec 32) : BitVec 32 :=
  if tail ≥ head then size - (tail - head) - 1#32 else head - tail - 1#32

/-- The loop of `try_fill_tx`, with `tx_tail` and `sent`. `ring_memcpy_wrap` copies nothing: its body is commented out.
    A round that is still to be made counts against the fuel. -/
def fillLoop (txSize chunkBytes quota : BitVec 32) : Nat → BitVec 32 → BitVec 32 → BitVec 32 × BitVec 32
  | 0, txTail, sent => (txTail, sent)
  | fuel + 1, txTail, sent =>
    if sent < quota then fillLoop txSize chunkBytes quota fuel ((txTail + chunkBytes) % txSize) (sent + chunkBytes)
    else (txTail, sent)

def fillQuota (txHead txTail txSize chunkBytes : BitVec 32) (needBytes : BitVec 64) : BitVec 32 :=
  let freeb := ringFreeBytes txHead txTail txSize
  let quarter := txSize / 2#32
  let quota := quarter
  let quota := if quota > freeb then freeb else quota
  let quota := if quota.setWidth 64 > needBytes then needBytes.setWidth 32 else quota
  quota - quota % chunkBytes

def tryFillTx (s : Row) (chunkBytes : BitVec 32) (needBytes : BitVec 64) (m : Moves) : BitVec 32 × Row :=
  let s := s.moves m.head
  let txHead := s.txHead
  let s := s.moves m.tail
  let txTail := s.txTail
  let s := s.moves m.size
  let txSize := s.txSize
  let quota := fillQuota txHead txTail txSize chunkBytes needBytes
  if quota = 0#32 then (0#32, s)
  else
    let (txTail, sent) := fillLoop txSize chunkBytes quota quota.toNat txTail 0#32
    let s := s.moves m.write
    (sent, { s with txTail })

def drainAvail (rxHead rxTail rxSize : BitVec 32) : BitVec 32 :=
  if rxTail ≥ rxHead then rxTail - rxHead else rxSize - (rxHead - rxTail)

def drainRx (s : Row) (m : Moves) : BitVec 32 × Row :=
  let s := s.moves m.head
  let rxHead := s.rxHead
  let s := s.moves m.tail
  let rxTail := s.rxTail
  let s := s.moves m.size
  let avail := drainAvail rxHead rxTail s.rxSize
  if avail ≠ 0 then
    let s := s.moves m.write
    (avail, { s with rxHead := rxTail })
  else (avail, s)

/-! ### `test_loopback_throughput` -/

/-- A call of one of the two functions, or a move of the device outside of them. A chunk of zero bytes is no input. -/
inductive Call where
  | fill (chunkBytes : BitVec 32) (pos : 0 < chunkBytes) (needBytes : BitVec 64) (m : Moves)
  | drain (m : Moves)
  | device (d : DevMove)

/-- The registers and the sums of what the calls have returned, `total_tx` and `total_rx`. -/
structure Traffic where
  row : Row
  totalTx : Nat := 0
  totalRx : Nat := 0

def Traffic.step (t : Traffic) : Call → Traffic
  | .fill chunkBytes _ needBytes m =>
    let (justTx, row) := tryFillTx t.row chunkBytes needBytes m
    { t with row, totalTx := t.totalTx + justTx.toNat }
  | .drain m =>
    let (justRx, row) := drainRx t.row m
    { t with row, totalRx := t.totalRx + justRx.toNat }
  | .device d => { t with row := t.row.move d }

structure RoundMoves where
  fill : Moves := {}
  drain : Moves := {}
  wait : List DevMove := []

/-- A round of the loop of `test_loopback_throughput`, as its calls. -/
def Traffic.round (payloadSize : BitVec 32) (pos : 0 < payloadSize) (targetBytes : Nat) (t : Traffic)
    (m : RoundMoves) : List Call :=
  (if t.totalTx < targetBytes then
    [.fill payloadSize pos (BitVec.ofNat 64 (targetBytes - t.totalTx)) m.fill] else []) ++
  .drain m.drain :: m.wait.map .device

/-- The loop, which a signal ends after the given rounds at the latest. -/
def testLoopbackThroughput (payloadSize : BitVec 32) (pos : 0 < payloadSize) (targetBytes : Nat) (t : Traffic) :
    List RoundMoves → Traffic
  | [] => t
  | m :: ms =>
    if t.totalRx < targetBytes then
      testLoopbackThroughput payloadSize pos targetBytes
        ((t.round payloadSize pos targetBytes m).foldl Traffic.step t) ms
    else t

/-! ### `test_loopback_throughput_local` -/

/-- The registers and the variables of the loop. -/
structure Local where
  row : Row
  txTail : BitVec 32
  rxHead : BitVec 32
  totalRx : BitVec 64 := 0

/-- What the device does in a round. Before the round goes on to `iocache_wait_on_rx`, it sends all of the TX ring. -/
structure LocalMoves where
  spin : List DevMove := []
  /-- During `iocache_wait_on_rx` and until `RX_RING_TAIL` is read; a wait may time out with nothing received. -/
  wait : List DevMove := []
  /-- Before `RX_RING_HEAD` is written. -/
  write : List DevMove := []

/-- `size`, which is stored in an `int`. -/
def localSize (rxHead rxTail rxSize : BitVec 32) : BitVec 32 :=
  if rxTail > rxHead then rxTail - rxHead else rxSize - (rxHead - rxTail)

def Local.start (row : Row) : Local := { row, txTail := row.txTail, rxHead := row.rxHead }

def Local.waited (payloadSize : BitVec 32) (s : Local) (m : LocalMoves) : Row :=
  let newTxTail := (s.txTail + payloadSize) % s.row.txSize
  let row := { s.row with txTail := newTxTail }
  let row := row.moves m.spin
  let row := row.move (.send row.txQueued)
  row.moves m.wait

/-- A round of the loop; after the last one nothing happens. -/
def Local.round (payloadSize : BitVec 32) (targetBytes : BitVec 64) (s : Local) (m : LocalMoves) : Local :=
  if s.totalRx < targetBytes then
    let row := s.waited payloadSize m
    let rxTail := row.rxTail
    let size := localSize s.rxHead rxTail row.rxSize
    let row := row.moves m.write
    { row := { row with rxHead := rxTail }
      txTail := row.txTail
      rxHead := rxTail
      totalRx := s.totalRx + size.signExtend 64 }
  else s

end FireMarshal.Udp
