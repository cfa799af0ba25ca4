import FireMarshal.Iocache.Driver

/-! Waiting for packets: `iocache_wait_on_rx` of the library (`iocache_lib.c`), the ioctl `WAIT_READY` and the
    callback of its timer (`iocache_misc.c`), for the process that owns a row.

The process, the callback, the interrupt handler and the device take steps of their own, in any order. A wake-up
makes the process runnable, and `schedule` sleeps only if the state of the process is still `TASK_INTERRUPTIBLE`.
Where a signal kills the process, the run ends. -/

namespace FireMarshal.Iocache

/-- The only owner of a row, with `iocache->row` and `iocache->cpu` of the library. -/
structure Owner where
  p : Task
  row : CInt
  cpu : Nat
  inRange : InRange row
  cpu_lt : cpu < numCpus

/-- The statement of the call that the process executes next. -/
inductive WaitPc where
  /-- Not in the call; the last one returned `ret`. -/
  | outside (ret : Option Int)
  | firstCheck
  | setRxSuspended
  | enableInterrupts
  | ioctl
  /-- `set_current_state(TASK_INTERRUPTIBLE)` -/
  | setCurrentState
  | writeSuspended
  | hrtimerStart
  | schedule
  | hrtimerCancel
  /-- `iocache_clear_rx_suspended` after an `ioctl` that failed. -/
  | clearFailed
  | clearRxSuspended
  | lastCheck
deriving DecidableEq, Repr

inductive TaskState where
  | running
  /-- `TASK_INTERRUPTIBLE`, but still on its CPU. -/
  | interruptible
  | asleep
deriving DecidableEq, Repr

/-- `to_hrtimer`, with the statement of its callback `iocache_timeout_cb` that is next. -/
inductive TimerState where
  | idle
  | armed
  | reading
  | writing
  | waking
deriving DecidableEq, Repr

structure WaitState where
  dev : Dev
  pc : WaitPc
  task : TaskState
  timer : TimerState

def Dev.isRxAvailable (s : Dev) (row : CInt) : Bool := (s.regs (reg row .rxAvailable)).setWidth 8 ≠ 0

namespace WaitState

def wakeUp (s : WaitState) : WaitState := { s with task := .running }

/-- The next statement of the process. Of the two it may have, `first` chooses the failure of the `ioctl`, and a
    `schedule` that returns at once because a signal is pending. -/
def process (o : Owner) (s : WaitState) (first : Bool) : WaitState :=
  match s.pc with
  | .outside _ => { s with pc := .firstCheck }
  | .firstCheck =>
    if s.dev.isRxAvailable o.row then { s with pc := .outside (some 0) } else { s with pc := .setRxSuspended }
  | .setRxSuspended => { s with dev := s.dev.iowrite (reg o.row .rxSuspended) 1, pc := .enableInterrupts }
  | .enableInterrupts => { s with dev := s.dev.iowrite (regIntmaskRx o.cpu) 1, pc := .ioctl }
  | .ioctl => { s with pc := if first then .clearFailed else .setCurrentState }
  | .setCurrentState => { s with task := .interruptible, pc := .writeSuspended }
  | .writeSuspended => { s with dev := s.dev.waitReady o.p, pc := .hrtimerStart }
  | .hrtimerStart => { s with timer := .armed, pc := .schedule }
  | .schedule =>
    { s with task := if s.task = .interruptible ∧ first = false then .asleep else .running, pc := .hrtimerCancel }
  | .hrtimerCancel =>
    -- A callback that is running is waited for.
    if s.timer = .idle ∨ s.timer = .armed then { s with timer := .idle, pc := .clearRxSuspended } else s
  | .clearFailed => { s with dev := s.dev.iowrite (reg o.row .rxSuspended) 0, pc := .outside (some (-1)) }
  | .clearRxSuspended => { s with dev := s.dev.iowrite (reg o.row .rxSuspended) 0, pc := .lastCheck }
  | .lastCheck => { s with pc := .outside (some (if s.dev.isRxAvailable o.row then 0 else -1)) }

/-- The timer expires, or its callback executes its next statement. -/
def timerStep (o : Owner) (s : WaitState) : WaitState :=
  match s.timer with
  | .idle => s
  | .armed => { s with timer := .reading }
  | .reading =>
    { s with timer := if s.dev.regs (reg (s.dev.iocacheId o.p) .rxSuspended) = 0 then .waking else .writing }
  | .writing => { s with dev := s.dev.iowrite (reg (s.dev.iocacheId o.p) .rxSuspended) 0, timer := .waking }
  | .waking => { s.wakeUp with timer := .idle }

end WaitState

inductive WaitEvent where
  /-- The process executes a statement, unless it sleeps. -/
  | process (first : Bool)
  | timer
  | isrRx (cpu : BitVec 32) (count : BitVec 32) (mask : BitVec 64)
  | signal
  /-- The device sets or clears `RX_AVAILABLE`, as packets arrive and are consumed. -/
  | rxAvailable (v : BitVec 64)
  /-- The device clears `RX_SUSPENDED`. -/
  | resume
  /-- Another process writes a register that is not one of the row. -/
  | other (a : Addr) (v : BitVec 64)

namespace WaitState

def step (o : Owner) (s : WaitState) : WaitEvent → WaitState
  | .process first => if s.task = .asleep then s else s.process o first
  | .timer => s.timerStep o
  | .isrRx cpu count mask =>
    let woken := (s.dev.isrRx cpu count mask).2
    let s := { s with dev := (s.dev.isrRx cpu count mask).1 }
    if woken.contains o.p then s.wakeUp else s
  | .signal => s.wakeUp
  | .rxAvailable v => { s with dev := { s.dev with regs := Function.update s.dev.regs (reg o.row .rxAvailable) v } }
  | .resume => { s with dev := { s.dev with regs := Function.update s.dev.regs (reg o.row .rxSuspended) 0 } }
  | .other a v => if (a - reg o.row .enabled).toNat < 0x100 then s else { s with dev := s.dev.iowrite a v }

/-- The owner has reserved the row, and is not in a call. -/
structure Ready (o : Owner) (s : WaitState) : Prop where
  id : s.dev.iocacheId o.p = o.row
  named : s.dev.procPtr o.row = o.p
  outside : s.pc = .outside none
  running : s.task = .running
  idle : s.timer = .idle
  resumed : s.dev.regs (reg o.row .rxSuspended) = 0

end WaitState
end FireMarshal.Iocache
