import FireMarshal.Accnet.Driver

/-! Interrupts and polling of the accnet driver (`accnet.c`): the handlers `accnet_tx_isr` and `accnet_rx_isr`,
    `accnet_schedule` and `accnet_poll`, with `accnet_start_xmit`, `accnet_open` and `accnet_stop` around them.

The two handlers, the poll, a transmission, the process that opens and stops the device and the two engines take
steps of their own, in any order. A completion sets the pending bit of its engine, and the interrupt is raised
while the bit is set and enabled in `ACCNET_INTR_MASK`; both interrupt lines are shared, so a handler may also be
called for nothing. No step is preceded by engine steps of a script: the engines have their own actions. -/

namespace FireMarshal.Accnet

/-! ### NAPI -/

/-- The state bits of `struct napi_struct`, and whether a CPU has it on its poll list. -/
structure Napi where
  sched : Bool
  missed : Bool
  disable : Bool
  listed : Bool
deriving DecidableEq, Repr

namespace Napi

def schedulePrep (n : Napi) : Bool × Napi :=
  if n.disable then (false, n) else (!n.sched, { n with sched := true, missed := n.missed || n.sched })

/-- `napi_schedule_prep`, and `__napi_schedule` if it succeeds. -/
def schedule (n : Napi) : Napi :=
  if n.schedulePrep.1 then { n.schedulePrep.2 with listed := true } else n.schedulePrep.2

/-- `napi_complete_done`: a schedule that was missed puts the poll back on the list. -/
def completeDone (n : Napi) : Napi := { n with sched := n.missed, missed := false, listed := n.missed }

end Napi

/-! ### State -/

inductive Side where
  | tx
  | rx
deriving DecidableEq, Repr

/-- The next statement of an interrupt handler. -/
inductive IsrPc where
  | idle
  /-- It holds the lock of its side and has cleared the bit of `ACCNET_INTR_MASK`. -/
  | masked
  /-- It has written `INTR_CLEAR` and released the lock. -/
  | cleared
deriving DecidableEq, Repr

/-- The interrupt of an engine. -/
structure Line where
  pend : Bool
  mask : Bool
  isr : IsrPc
deriving DecidableEq, Repr

/-- The next statement of `accnet_poll`; `n` is `work_done` once `complete_recv` has set it. -/
inductive PollPc where
  | idle
  | start
  /-- The loop of `complete_send`, with `n` completions left. -/
  | sendLoop (n : Nat)
  /-- The last test of `complete_send`. -/
  | wakeQueue
  | recvStart
  | recvLoop (n left : Nat)
  | allocStart (n : Nat)
  | allocLoop (n left : Nat)
  | finish (n : Nat)
deriving DecidableEq, Repr

/-- The next statement of `accnet_start_xmit`, which holds `tx_lock`. -/
inductive XmitPc where
  | idle
  /-- `post_send` still has to write the descriptors `rest`. -/
  | posting (skb : Skb) (rest : List Desc)
  /-- The test against `CONFIG_ACCNET_TX_THRESHOLD`. -/
  | threshold
  | space
deriving DecidableEq, Repr

/-- The next statement of the process that opens and stops the device. -/
inductive ProcPc where
  | closed
  | allocStart
  | allocLoop (left : Nat)
  | startQueue
  | setMaskRx
  | setMaskTx
  | opened
  /-- `napi_disable` waits for the poll. -/
  | disabling
  | clearMask
  | stopQueue
deriving DecidableEq, Repr

structure PollSys where
  tx : Tx
  rx : Rx
  line : Side → Line
  napi : Napi
  poll : PollPc
  /-- The polls that have called `napi_complete_done` and have yet to set `ACCNET_INTR_MASK`. -/
  tails : Nat
  xmit : XmitPc
  proc : ProcPc
  /-- NAPI has turned down a schedule or a poll because it is being disabled, and none has started since. -/
  lost : Bool

def txThreshold : Nat := 16

def PollPc.locked : PollPc → Bool
  | .sendLoop _ | .wakeQueue => true
  | _ => false

namespace PollSys

/-- `tx_lock` is held by the poll, by a transmission or by the handler. -/
def txLocked (s : PollSys) : Bool :=
  s.poll.locked || decide (s.xmit ≠ .idle) || decide ((s.line .tx).isr = .masked)

def setLine (s : PollSys) (side : Side) (l : Line) : PollSys := { s with line := Function.update s.line side l }

/-- `set_intmask` and `clear_intmask` for one side. -/
def setMask (s : PollSys) (side : Side) (b : Bool) : PollSys := s.setLine side { s.line side with mask := b }

/-- `accnet_schedule`. A schedule is lost if NAPI is being disabled, or is disabled and holds `SCHED` itself. -/
def schedule (s : PollSys) : PollSys :=
  { s with
    napi := s.napi.schedule
    lost := s.lost || s.napi.disable || (s.napi.sched && !s.napi.listed && decide (s.poll = .idle)) }

/-! ### Steps -/

/-- The next statement of `accnet_tx_isr` or `accnet_rx_isr`. -/
def isrStep (s : PollSys) (side : Side) : PollSys :=
  match (s.line side).isr with
  | .idle =>
    -- The handler spins on its lock; nobody else holds `rx_lock` across statements.
    if side = .tx ∧ s.txLocked then s else s.setLine side { s.line side with mask := false, isr := .masked }
  | .masked => s.setLine side { s.line side with pend := false, isr := .cleared }
  | .cleared => (s.setLine side { s.line side with isr := .idle }).schedule

/-- One round of the loop of `complete_send` with `n` completions left; `none` if it ends. -/
def sendRound (cap n : Nat) (t : Tx) : Option (Nat × Tx) :=
  let nsegs := (t.sendCq.entries t.sendCq.tail).nrFrags + 1
  if n = 0 ∨ nsegs > n then none
  else
    let t := t.readComps cap nsegs
    some (n - nsegs, { t with sendCq := t.sendCq.pop.2, consumed := t.consumed ++ t.sendCq.pop.1.toList })

/-- The next statement of `accnet_poll`, or of the softirq that calls it. -/
def pollStep (k : Kernel) (cap budget : Nat) (s : PollSys) : PollSys :=
  match s.poll with
  | .idle =>
    if s.napi.listed then { s with napi := { s.napi with listed := false }, poll := .start, lost := false } else s
  | .start => if s.txLocked then s else { s with poll := .sendLoop s.tx.sendCompAvail }
  | .sendLoop n =>
    match sendRound cap n s.tx with
    | none => { s with poll := .wakeQueue }
    | some (n, tx) => { s with tx := tx, poll := .sendLoop n }
  | .wakeQueue =>
    { s with tx := { s.tx with stopped := s.tx.stopped && !s.tx.sendSpace k.maxSkbFrags }, poll := .recvStart }
  | .recvStart =>
    let n := min budget s.rx.recvCompAvail.toNat
    { s with poll := .recvLoop n n }
  | .recvLoop n 0 => { s with poll := .allocStart n }
  | .recvLoop n (i + 1) => { s with rx := s.rx.completeRecvLoop cap 1, poll := .recvLoop n i }
  | .allocStart n => { s with poll := .allocLoop n s.rx.recvReqAvail.toNat }
  | .allocLoop n 0 => { s with poll := .finish n }
  | .allocLoop n (i + 1) => { s with rx := s.rx.allocRecvLoop k cap 1, poll := .allocLoop n i }
  | .finish n =>
    if n < budget then { s with napi := s.napi.completeDone, tails := s.tails + 1, poll := .idle }
    -- A poll that used its budget is repeated, unless `napi_disable` waits for it.
    else if s.napi.disable then { s with napi := s.napi.completeDone, poll := .idle, lost := true }
    else { s with napi := { s.napi with listed := true }, poll := .idle }

/-- The stack hands over `skb`: `accnet_start_xmit` takes `tx_lock` and tests for space. The stack does so only
    while the device is open and its queue runs. -/
def startXmit (k : Kernel) (s : PollSys) (skb : Skb) : PollSys :=
  if s.txLocked ∨ s.proc ≠ .opened ∨ s.tx.stopped then s
  else if !s.tx.sendSpace (skb.nrFrags + 1) then
    { s with tx := { s.tx with stopped := true, freed := s.tx.freed ++ [skb], txDropped := s.tx.txDropped + 1 } }
  else { s with xmit := .posting skb (sendDescs k skb) }

/-- The next statement of `accnet_start_xmit`. -/
def xmitStep (k : Kernel) (cap : Nat) (s : PollSys) : PollSys :=
  match s.xmit with
  | .idle => s
  | .posting skb (d :: rest) => { s with tx := s.tx.writeReq cap d, xmit := .posting skb rest }
  | .posting skb [] =>
    { s with
      tx := { s.tx with
        sendCq := s.tx.sendCq.push skb
        txPackets := s.tx.txPackets + 1
        txBytes := s.tx.txBytes + skb.len }
      xmit := .threshold }
  | .threshold =>
    let s' := { s with xmit := .space }
    if s.tx.sendCompAvail > txThreshold then s'.schedule else s'
  | .space =>
    if s.tx.sendSpace k.maxSkbFrags then { s with xmit := .idle }
    else { s with tx := { s.tx with stopped := true }, xmit := .idle }.schedule

/-- The next statement of `accnet_open`, which a closed device starts with, or of `accnet_stop`. -/
def procStep (k : Kernel) (cap : Nat) (s : PollSys) : PollSys :=
  match s.proc with
  | .closed => { s with napi := { s.napi with sched := false }, proc := .allocStart }
  | .allocStart => { s with proc := .allocLoop s.rx.recvReqAvail.toNat }
  | .allocLoop 0 => { s with proc := .startQueue }
  | .allocLoop (i + 1) => { s with rx := s.rx.allocRecvLoop k cap 1, proc := .allocLoop i }
  | .startQueue => { s with tx := { s.tx with stopped := false }, proc := .setMaskRx }
  | .setMaskRx => if (s.line .rx).isr = .masked then s else { s.setMask .rx true with proc := .setMaskTx }
  | .setMaskTx => if s.txLocked then s else { s.setMask .tx true with proc := .opened }
  -- The stack stops a device only after its last transmission has returned.
  | .opened =>
    if s.xmit = .idle then { s with napi := { s.napi with disable := true }, proc := .disabling } else s
  | .disabling =>
    if s.napi.sched then s
    else { s with napi := { s.napi with sched := true, disable := false }, proc := .clearMask }
  | .clearMask => { (s.setMask .tx false).setMask .rx false with proc := .stopQueue }
  | .stopQueue => { s with tx := { s.tx with stopped := true }, proc := .closed }

/-- A poll that has called `napi_complete_done` enables both interrupts. -/
def setIntmask (s : PollSys) : PollSys :=
  if s.tails = 0 then s else { (s.setMask .tx true).setMask .rx true with tails := s.tails - 1 }

/-- The interrupt of an engine becomes pending if it has logged a completion. -/
def signal (s : PollSys) (side : Side) (logged : Bool) : PollSys :=
  s.setLine side { s.line side with pend := (s.line side).pend || logged }

def txEngine (cap : Nat) (s : PollSys) (st : TxStep) : PollSys :=
  let e := s.tx.eng.step depth cap st
  { s with tx := { s.tx with eng := e } }.signal .tx (decide (s.tx.eng.comps.length < e.comps.length))

def rxEngine (cap : Nat) (s : PollSys) (st : RxStep) : PollSys :=
  let e := s.rx.eng.step depth cap st
  { s with rx := { s.rx with eng := e } }.signal .rx (decide (s.rx.eng.comps.length < e.comps.length))

end PollSys

inductive PollAct where
  | isr (side : Side)
  | poll
  | setIntmask
  | startXmit (skb : Skb)
  | xmit
  | proc
  | txEngine (st : TxStep)
  | rxEngine (st : RxStep)
deriving DecidableEq, Repr

namespace PollSys

def step (k : Kernel) (cap budget : Nat) (s : PollSys) : PollAct → PollSys
  | .isr side => s.isrStep side
  | .poll => s.pollStep k cap budget
  | .setIntmask => s.setIntmask
  | .startXmit skb => s.startXmit k skb
  | .xmit => s.xmitStep k cap
  | .proc => s.procStep k cap
  | .txEngine st => s.txEngine cap st
  | .rxEngine st => s.rxEngine cap st

/-- The device after `accnet_probe`: `netif_napi_add` leaves NAPI disabled. -/
def init : PollSys where
  tx := Nic.init.tx
  rx := Nic.init.rx
  line _ := ⟨false, false, .idle⟩
  napi := ⟨true, false, false, false⟩
  poll := .idle
  tails := 0
  xmit := .idle
  proc := .closed
  lost := false

/-- Nothing is about to run: no handler, poll, transmission or call of the process is under way, no poll is on a
    list and no interrupt is raised. -/
structure Quiescent (s : PollSys) : Prop where
  isr : ∀ side, (s.line side).isr = .idle
  line : ∀ side, ¬((s.line side).pend = true ∧ (s.line side).mask = true)
  listed : s.napi.listed = false
  poll : s.poll = .idle
  tails : s.tails = 0
  xmit : s.xmit = .idle
  opened : s.proc = .opened

/-- The oldest buffer of `send_cq` whose segments have all been completed, so that `complete_send` would release
    it. -/
def releasable (t : Tx) : Option Skb :=
  t.sendCq.contents.head?.filter fun skb => skb.nsegments ≤ t.eng.comps.length

end PollSys
end FireMarshal.Accnet
