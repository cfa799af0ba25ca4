import FireMarshal.Lib.Verbs
import FireMarshal.Rdma.Rxq

/-! The RDMA echo servers (`boards/default/app/rdma/server.c` and `server_ts.c`) from the connection on.

The adapter works while the server does. Nothing that the server does in an iteration of its loop depends on what the
adapter does meanwhile, so an iteration is one step. `received` and `echoes` are not in the source: the messages that
arrived and the payloads that were sent. -/

namespace FireMarshal
namespace Rdma

open Verbs

structure Config where
  msgSize : Nat
  /-- How many receives are posted in advance. -/
  prepost : Nat
  caps : Caps
deriving DecidableEq, Repr

def server (msgSize : Nat) : Config := ⟨msgSize, 64, ⟨128, 128, 256⟩⟩

def serverTs (msgSize : Nat) : Config := ⟨msgSize, 256, ⟨256, 256, 512⟩⟩

inductive Status where
  | polling
  | left
  | died
  | noMemory
deriving DecidableEq, Repr

structure Server where
  qp : Qp := {}
  rxbuf : List UInt8
  status : Status := .polling
  received : List (List UInt8) := []
  echoes : List (List UInt8) := []
deriving DecidableEq, Repr

inductive Work where
  | arrive (msg : List UInt8)
  | transmit
  | acknowledge
  | fail
deriving DecidableEq, Repr

def store (buf msg : List UInt8) : List UInt8 := msg ++ buf.drop msg.length

namespace Server

def fail (c : Config) (s : Server) : Server := { s with qp := (s.qp.fail c.caps).getD s.qp }

/-- All receives and all sends use `rxbuf`. A message that does not fit is an error. -/
def work (c : Config) (s : Server) : Work → Server
  | .arrive msg =>
    if msg.length > c.msgSize then s.fail c
    else
      match s.qp.receive c.caps with
      | none => s
      | some qp => { s with qp := qp, rxbuf := store s.rxbuf msg, received := s.received ++ [msg] }
  | .transmit =>
    match s.qp.transmit with
    | none => s
    | some qp => { s with qp := qp, echoes := s.echoes ++ [s.rxbuf] }
  | .acknowledge => { s with qp := (s.qp.acknowledge c.caps).getD s.qp }
  | .fail => s.fail c

def post (s : Server) : Option Qp → Server
  | none => { s with status := .died }
  | some qp => { s with qp := qp }

def poll (c : Config) (s : Server) : Server :=
  match s.qp.poll with
  | none => s
  | some (.error, qp) => { s with qp := qp, status := .left }
  | some (.recv, qp) => s.post (qp.postSend c.caps)
  | some (.send, qp) => s.post (qp.postRecv c.caps)

inductive Event where
  | work (w : Work)
  | poll
deriving DecidableEq, Repr

def step (c : Config) (s : Server) (e : Event) : Server :=
  if s.status ≠ .polling then s
  else
    match e with
    | .work w => s.work c w
    | .poll => s.poll c

def prepost (c : Config) : Nat → Server → Server
  | 0, s => s
  | k + 1, s =>
    match s.qp.postRecv c.caps with
    | none => { s with status := .died }
    | some qp => prepost c k { s with qp := qp }

def start (c : Config) : Server := prepost c c.prepost { rxbuf := List.replicate c.msgSize 0 }

end Server

/-! ### Timestamps -/

structure Row where
  idx : BitVec 64
  size : BitVec 32
  rxNs : BitVec 64
  txNs : BitVec 64
deriving DecidableEq, Repr

/-- `while (ncap < need) ncap *= 2`, for at most `fuel` rounds. -/
def doubleUntil (need : Nat) : Nat → Nat → Nat
  | 0, ncap => ncap
  | fuel + 1, ncap => if ncap < need then doubleUntil need fuel (ncap * 2) else ncap

/-- `rows_reserve`, which returns the new capacity. A row has 32 bytes. -/
def rowsReserve (limit cap need : Nat) : Option Nat :=
  if need ≤ cap then some cap
  else
    let ncap := doubleUntil need need (if cap ≠ 0 then cap * 2 else 16384)
    if limit < ncap * 32 then none else some ncap

/-- The server with timestamps. `rxTimes` and `txTimes` are not in the source: when completions of receives and of sends
    were polled. -/
structure ServerTs where
  server : Server
  rxq : Rxq := {}
  rows : List Row := []
  rowsCap : Nat := 0
  pktIdx : BitVec 64 := 0#64
  rxTimes : List (BitVec 64) := []
  txTimes : List (BitVec 64) := []

namespace ServerTs

def exit (s : ServerTs) : ServerTs := { s with server := { s.server with status := .noMemory } }

/-- An iteration of the loop, when the clock says `now`, `malloc` serves up to `limit` bytes and `realloc` up to
    `rowsLimit`. -/
def poll (c : Config) (s : ServerTs) (now : BitVec 64) (limit rowsLimit : Nat) : ServerTs :=
  match s.server.qp.poll with
  | some (.recv, _) =>
    match s.rxq.push limit now with
    | none => s.exit
    | some rxq => { s with server := s.server.poll c, rxq := rxq, rxTimes := s.rxTimes ++ [now] }
  | some (.send, _) =>
    match s.rxq.pop limit, rowsReserve rowsLimit s.rowsCap (s.rows.length + 1) with
    | some (rx, rxq), some cap =>
      { s with
        server := s.server.poll c
        rxq := rxq
        rows := s.rows ++ [⟨s.pktIdx, BitVec.ofNat 32 c.msgSize, rx.getD now, now⟩]
        rowsCap := cap
        pktIdx := s.pktIdx + 1#64
        txTimes := s.txTimes ++ [now] }
    | _, _ => s.exit
  | _ => { s with server := s.server.poll c }

inductive Event where
  | work (w : Work)
  | poll (now : BitVec 64) (limit rowsLimit : Nat)
  | signal
deriving DecidableEq, Repr

def step (c : Config) (s : ServerTs) (e : Event) : ServerTs :=
  if s.server.status ≠ .polling then s
  else
    match e with
    | .work w => { s with server := s.server.work c w }
    | .poll now limit rowsLimit => s.poll c now limit rowsLimit
    | .signal => { s with server := { s.server with status := .left } }

def start (c : Config) : ServerTs := { server := Server.start c }

end ServerTs

end Rdma
end FireMarshal
