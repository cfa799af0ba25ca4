import FireMarshal.Rdma.Server

/-! The RDMA clients (`boards/default/app/rdma/client.c` and `client_ts.c`) and an echo server, from the connection to
the end of the client.

The two programs and what their adapters do are separate steps. Messages arrive in order, and a send is acknowledged
once its message has arrived. The connection does not break, and both sides use the same size of messages. `overtaken`
is not in the source. -/

namespace FireMarshal
namespace Rdma

open Verbs

/-! ### The clients -/

structure ClientConfig where
  msgSize : Nat
  iters : Nat
  /-- `client_ts.c`, which takes the time at both completions and asks that the first one is of the send. -/
  ts : Bool
deriving DecidableEq, Repr

def clientCaps : Caps := ⟨128, 128, 256⟩

def warmup : Nat := 100

def ClientConfig.rounds (c : ClientConfig) : Nat := warmup + c.iters

def ClientConfig.payload (c : ClientConfig) : List UInt8 := List.replicate c.msgSize 0xab

inductive ClientPc where
  | post
  /-- In the first loop of a round over `ibv_poll_cq`. -/
  | waitSend
  | waitRecv
  | repost
  | done
  | died
  | noMemory
deriving DecidableEq, Repr

structure Client where
  qp : Qp
  buf : List UInt8
  pc : ClientPc := .post
  /-- The rounds of the warmup come first. -/
  round : Nat := 0
  /-- `t0` of `client.c`, `tx_hw_ns` of `client_ts.c`. -/
  t0 : BitVec 64 := 0#64
  sumNs : BitVec 64 := 0#64
  minNs : BitVec 64 := BitVec.allOnes 64
  maxNs : BitVec 64 := 0#64
  rows : List Row := []
  rowsCap : Nat := 0
deriving DecidableEq, Repr

namespace Client

/-- The difference as `client_ts.c` has it. -/
def rttTs (rx tx : BitVec 64) : BitVec 64 :=
  if tx ≤ rx then rx - tx else BitVec.allOnes 64 - (tx - rx) + 1#64

def addRtt (s : Client) (rtt : BitVec 64) : Client :=
  { s with
    sumNs := s.sumNs + rtt
    minNs := if rtt < s.minNs then rtt else s.minNs
    maxNs := if s.maxNs < rtt then rtt else s.maxNs }

/-- What a timed round records when its echo is there. `realloc` serves up to `limit` bytes. -/
def record (c : ClientConfig) (s : Client) (now : BitVec 64) (limit : Nat) : Client :=
  if s.round < warmup then { s with pc := .repost }
  else if c.ts then
    match rowsReserve limit s.rowsCap (s.rows.length + 1) with
    | none => { s.addRtt (rttTs now s.t0) with pc := .noMemory }
    | some cap =>
      { s.addRtt (rttTs now s.t0) with
        pc := .repost
        rows := s.rows ++ [⟨BitVec.ofNat 64 (s.round - warmup), BitVec.ofNat 32 c.msgSize, now, s.t0⟩]
        rowsCap := cap }
  else { s.addRtt (now - s.t0) with pc := .repost }

/-- A step of the program, when the clock says `now`. -/
def step (c : ClientConfig) (s : Client) (now : BitVec 64) (limit : Nat) : Client :=
  match s.pc with
  | .post =>
    match s.qp.postSend clientCaps with
    | none => { s with pc := .died }
    | some qp => { s with qp := qp, pc := .waitSend, t0 := if c.ts then s.t0 else now }
  | .waitSend =>
    match s.qp.poll with
    | none => s
    | some (wc, qp) =>
      if wc = .error ∨ (c.ts ∧ wc ≠ .send) then { s with qp := qp, pc := .died }
      else { s with qp := qp, pc := .waitRecv, t0 := if c.ts then now else s.t0 }
  | .waitRecv =>
    match s.qp.poll with
    | none => s
    | some (wc, qp) => if wc ≠ .recv then { s with qp := qp, pc := .died } else { s with qp := qp }.record c now limit
  | .repost =>
    match s.qp.postRecv clientCaps with
    | none => { s with pc := .died }
    | some qp => { s with qp := qp, round := s.round + 1, pc := if s.round + 1 < c.rounds then .post else .done }
  | .done | .died | .noMemory => s

def ended (s : Client) : Bool :=
  match s.pc with
  | .done | .died | .noMemory => true
  | _ => false

/-- One receive is posted before the connection is made. -/
def start (c : ClientConfig) : Client :=
  match ({} : Qp).postRecv clientCaps with
  | none => { qp := {}, buf := c.payload, pc := .died }
  | some qp => { qp := qp, buf := c.payload }

end Client

/-! ### Client and server -/

structure Ping where
  client : Client
  server : Server
  /-- Messages on their way to the server. -/
  toServer : List (List UInt8) := []
  /-- Messages that have arrived at the server and are not acknowledged. -/
  taken : Nat := 0
  toClient : List (List UInt8) := []
  takenBack : Nat := 0
  /-- An echo has arrived before its request was acknowledged. -/
  overtaken : Bool := false
deriving DecidableEq, Repr

inductive PingAct where
  | client (now : BitVec 64) (limit : Nat)
  | clientTransmit
  | clientAck
  | clientArrive
  | server
  | serverTransmit
  | serverAck
  | serverArrive
deriving DecidableEq, Repr

namespace Ping

def act (c : ClientConfig) (sc : Config) (s : Ping) : PingAct → Ping
  | .client now limit => { s with client := s.client.step c now limit }
  | .clientTransmit =>
    match s.client.qp.transmit with
    | none => s
    | some qp => { s with client := { s.client with qp := qp }, toServer := s.toServer ++ [s.client.buf] }
  | .clientAck =>
    if s.taken = 0 then s
    else
      match s.client.qp.acknowledge clientCaps with
      | none => s
      | some qp => { s with client := { s.client with qp := qp }, taken := s.taken - 1 }
  | .clientArrive =>
    match s.toClient, s.client.qp.receive clientCaps with
    | msg :: rest, some qp =>
      { s with
        client := { s.client with qp := qp, buf := store s.client.buf msg }
        toClient := rest
        takenBack := s.takenBack + 1
        overtaken := s.overtaken || s.client.qp.unsent + s.client.qp.sent != 0 }
    | _, _ => s
  | .server => { s with server := s.server.step sc .poll }
  | .serverTransmit =>
    match s.server.qp.transmit with
    | none => s
    | some _ => { s with server := s.server.step sc (.work .transmit), toClient := s.toClient ++ [s.server.rxbuf] }
  | .serverAck =>
    if s.takenBack = 0 then s
    else { s with server := s.server.step sc (.work .acknowledge), takenBack := s.takenBack - 1 }
  | .serverArrive =>
    -- Without a receive, the message is sent again later.
    match s.toServer, s.server.qp.receive sc.caps with
    | msg :: rest, some _ =>
      { s with server := s.server.step sc (.work (.arrive msg)), toServer := rest, taken := s.taken + 1 }
    | _, _ => s

/-- What follows the end of the client is left out. -/
def step (c : ClientConfig) (sc : Config) (s : Ping) (a : PingAct) : Ping := if s.client.ended then s else s.act c sc a

def start (c : ClientConfig) (sc : Config) : Ping := { client := Client.start c, server := Server.start sc }

end Ping

end Rdma
end FireMarshal
