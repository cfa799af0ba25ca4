import FireMarshal.Lib.Echo
import FireMarshal.Net.FileTransfer

/-! A thread of the UDP client (`boards/default/app/udp_mt_client.c`): it sends requests to an echo server one by one and
    records for each how long the reply took.

The calls before the loop succeed. The clock is `CLOCK_MONOTONIC`, which does not go back. `request` and `received` are
not in the source: a datagram knows which request it is or answers, and the thread remembers what it received. -/

namespace FireMarshal
namespace MtClient

structure Datagram where
  request : Nat
  bytes : List UInt8
deriving DecidableEq, Repr

structure Timespec where
  sec : Int
  nsec : Int
deriving DecidableEq, Repr

def Timespec.ofNs (ns : Nat) : Timespec := ⟨ns / 1000000000, ns % 1000000000⟩

def tsdiffNs (a b : Timespec) : Int := (b.sec - a.sec) * 1000000000 + (b.nsec - a.nsec)

/-- What the thread reads of `struct thread_ctx`. -/
structure Ctx where
  count : Nat
  size : Nat
deriving DecidableEq, Repr

structure Thread where
  i : Nat := 0
  /-- Set while the thread waits in `recv`. -/
  t0 : Option Timespec := none
  buf : List UInt8
  rtt : List Int := []
  ok : Nat := 0
  timeouts : Nat := 0
  clock : Nat := 0
  net : Echo.Net Datagram := {}
  /-- What `recv` returned, in the iterations of `rtt`. -/
  received : List (Option Datagram) := []
deriving DecidableEq, Repr

inductive Event where
  | net (e : Echo.Event)
  | tick (ns : Nat)
  /-- An iteration up to `send`; the arguments say whether `clock_gettime` and `send` succeed. -/
  | send (clockOk sendOk : Bool)
  /-- `recv` takes a datagram, then the clock is read. -/
  | recv (clockOk : Bool)
  /-- `recv` fails with `EAGAIN`, which it does only if there is no datagram. -/
  | timeout (clockOk : Bool)
  | recvError
deriving DecidableEq, Repr

namespace Thread

/-- `rtt_us[i] = rtt`, and on to the next iteration. -/
def record (s : Thread) (rtt : Int) (d : Option Datagram) : Thread :=
  { s with i := s.i + 1, t0 := none, rtt := s.rtt ++ [rtt], received := s.received ++ [d] }

def request (c : Ctx) (s : Thread) : List UInt8 :=
  if c.size ≥ 4 then FileTransfer.htonl s.i ++ s.buf.drop 4 else s.buf

def step (c : Ctx) (s : Thread) : Event → Thread
  | .net e => { s with net := s.net.step e }
  | .tick ns => { s with clock := s.clock + ns }
  | .send clockOk sendOk =>
    if s.t0.isSome ∨ s.i ≥ c.count then s
    else
      let s := { s with buf := s.request c }
      if !clockOk || !sendOk then s.record (-1) none
      else { s with t0 := some (.ofNs s.clock), net := s.net.send ⟨s.i, s.buf⟩ }
  | .recv clockOk =>
    match s.t0, s.net.queue with
    | some t0, d :: _ =>
      let s := { s with net := s.net.receive, buf := d.bytes ++ s.buf.drop d.bytes.length }
      if !clockOk then s.record (-1) (some d)
      else { s.record (tsdiffNs t0 (.ofNs s.clock)) (some d) with ok := s.ok + 1 }
    | _, _ => s
  | .timeout clockOk =>
    if s.t0.isNone ∨ s.net.queue ≠ [] then s
    else if !clockOk then s.record (-1) none
    else { s.record (-1) none with timeouts := s.timeouts + 1 }
  | .recvError => if s.t0.isNone then s else s.record (-1) none

end Thread

def start (c : Ctx) : Thread := { buf := (List.range c.size).map fun i => UInt8.ofNat (i &&& 0xff) }

end MtClient
end FireMarshal
