import FireMarshal.Accnet.Library
import FireMarshal.Udp.Exp

/-! The latency clients of `udp_exp.c`: one packet is written into the TX ring and sent, and the time until it comes back
    is measured; `main` repeats this and sums up the times. -/

namespace FireMarshal.Udp

structure Client where
  row : Row
  txBuffer : Nat → UInt8
  written : List Nat := []
  /-- For every packet, what the TX ring has held from the old to the new tail when the tail was written. -/
  frames : List (List UInt8) := []

def frame (n : Nat) (mem : Nat → UInt8) (tail k : Nat) : List UInt8 :=
  (List.range k).map fun i => mem ((tail + i) % n)

/-- The packet is copied to the TX tail, which is then advanced. -/
def Client.transmit (s : Client) (payload : Nat → UInt8) (payloadSize : BitVec 32) : Client :=
  let txTail := s.row.txTail
  -- memcpy
  let txBuffer := Ring.copy s.txBuffer txTail.toNat payload 0 payloadSize.toNat
  let newTxTail := (txTail + payloadSize) % s.row.txSize
  { row := { s.row with txTail := newTxTail }
    txBuffer
    written := s.written ++ List.range' txTail.toNat payloadSize.toNat
    frames := s.frames ++ [frame s.row.txSize.toNat txBuffer txTail.toNat payloadSize.toNat] }

/-- What the device does during a call, and what it answers. -/
structure BlockEnv where
  start : List DevMove := []
  /-- `ACCNET_CTRL_TIMESTAMP`, read twice. -/
  before : BitVec 64
  after : BitVec 64
  /-- During `iocache_wait_on_rx` and until `RX_RING_TAIL` is read. -/
  wait : List DevMove := []
  /-- What `iocache_wait_on_rx` returns: 0, or -1 for a timeout. -/
  ret : Int := 0
  write : List DevMove := []

/-- `test_udp_latency_block`. The `size` of what was received is not used. -/
def testUdpLatencyBlock (s : Client) (payload : Nat → UInt8) (payloadSize : BitVec 32) (env : BlockEnv) :
    BitVec 64 × Client :=
  let s := { s with row := s.row.moves env.start }
  let s := s.transmit payload payloadSize
  let row := s.row.moves env.wait
  let rxTail := row.rxTail
  let row := { row.moves env.write with rxHead := rxTail }
  (if env.ret = -1 then 0 else env.after - env.before, { s with row })

/-- What the device does during a call, and what it answers. -/
structure PollEnv where
  start : List DevMove := []
  before : BitVec 64
  after : BitVec 64
  /-- Before each read of `RX_RING_TAIL`; a signal comes after the last one. -/
  polls : List (List DevMove) := []
  write : List DevMove := []

/-- The polling loop: the registers after it, and the tail that was read last. -/
def pollRx (row : Row) (target : BitVec 32) : List (List DevMove) → Row × BitVec 32
  | [] => (row, row.rxTail)
  | ms :: polls =>
    let row := row.moves ms
    if row.rxTail ≠ target then pollRx row target polls else (row, row.rxTail)

def testUdpLatencyPoll (s : Client) (payload : Nat → UInt8) (payloadSize : BitVec 32) (env : PollEnv) :
    BitVec 64 × Client :=
  let s := { s with row := s.row.moves env.start }
  let rxHead := s.row.rxHead
  let s := s.transmit payload payloadSize
  let (row, rxTail) := pollRx s.row ((rxHead + payloadSize) % s.row.rxSize) env.polls
  let row := { row.moves env.write with rxHead := rxTail }
  (env.after - env.before, { s with row })

inductive Iteration where
  | block (env : BlockEnv)
  | poll (env : PollEnv)

def Client.iterate (payload : Nat → UInt8) (payloadSize : BitVec 32) (s : Client) : Iteration → Client
  | .block env => (testUdpLatencyBlock s payload payloadSize env).2
  | .poll env => (testUdpLatencyPoll s payload payloadSize env).2

/-- `payload` in `main` -/
def mainPayload (i : Nat) : UInt8 := UInt8.ofNat (i &&& 0xff)

/-! ### The loop of `main` -/

structure Sample where
  /-- The result of `test_udp_latency_block` or `test_udp_latency_poll`. -/
  diff : BitVec 64
  /-- The library, with the registers after it. -/
  accnet : Accnet.AccnetInfo

structure Results where
  receivedOk : Nat := 0
  receivedTotal : Nat := 0
  sumTicks : BitVec 64 := 0
  minTicks : BitVec 64 := 0
  maxTicks : BitVec 64 := 0
  sumNetworkLatencyTick : BitVec 64 := 0
  rtts : Nat → BitVec 64 := fun _ => 0
  networkLatency : Nat → BitVec 64 := fun _ => 0

/-- An iteration of the loop. `min_ticks` and `max_ticks` are converted to `uint64_t` when they are compared. -/
def Results.add (skipFirst : Bool) (s : Results) (i : Nat) (x : Sample) : Results :=
  if x.diff = 0 then s
  else
    let s := { s with receivedTotal := s.receivedTotal + 1 }
    if i = 0 ∧ skipFirst then s
    else
      let netdelayTick := Accnet.accnetGetOutsideTicks x.accnet
      let s :=
        if i = 0 ∨ s.minTicks = 0 then { s with minTicks := x.diff, maxTicks := x.diff }
        else
          { s with
            minTicks := if x.diff < s.minTicks then x.diff else s.minTicks
            maxTicks := if x.diff > s.maxTicks then x.diff else s.maxTicks }
      { s with
        sumTicks := s.sumTicks + x.diff
        rtts := Function.update s.rtts i x.diff
        sumNetworkLatencyTick := s.sumNetworkLatencyTick + netdelayTick
        networkLatency := Function.update s.networkLatency i netdelayTick
        receivedOk := s.receivedOk + 1 }

def clientLoop (skipFirst : Bool) (s : Results) (i : Nat) : List Sample → Results
  | [] => s
  | x :: xs => clientLoop skipFirst (s.add skipFirst i x) (i + 1) xs

end FireMarshal.Udp
