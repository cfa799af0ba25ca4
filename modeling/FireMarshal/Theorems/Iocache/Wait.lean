import FireMarshal.Iocache.Wait
import FireMarshal.Theorems.Iocache.Rows

/-! Calls of `iocache_wait_on_rx` among packets, interrupts, signals and timeouts. Only the process sets
    `RX_SUSPENDED`, and clears it before it returns; the timer is armed from `hrtimer_start` to `hrtimer_cancel`,
    and a process that still is `TASK_INTERRUPTIBLE` in between has not been woken by it. -/

namespace FireMarshal.Iocache

def WaitPc.resumed : WaitPc → Bool
  | .outside _ | .firstCheck | .setRxSuspended | .lastCheck => true
  | _ => false

namespace WaitState

variable {o : Owner} {s t : WaitState}

def rxSuspended (o : Owner) (s : WaitState) : BitVec 64 := s.dev.regs (reg o.row .rxSuspended)

structure Inv (o : Owner) (s : WaitState) : Prop where
  id : s.dev.iocacheId o.p = o.row
  resumed : s.pc.resumed = true → s.rxSuspended o = 0
  idle : s.pc ≠ .schedule → s.pc ≠ .hrtimerCancel → s.timer = .idle
  /-- A timer that is about to be slept on has not woken the process. -/
  pending : s.pc = .schedule → s.task = .interruptible → s.timer ≠ .idle
  asleep : s.task = .asleep → s.pc = .hrtimerCancel ∧ s.timer ≠ .idle

/-! ### Steps of the others -/

/-- A step of the others leaves the process where it is and may wake it; it may clear `RX_SUSPENDED`. -/
structure Outer (o : Owner) (s t : WaitState) : Prop where
  pc : t.pc = s.pc
  timer : t.timer = s.timer
  id : t.dev.iocacheId o.p = s.dev.iocacheId o.p
  rxSuspended : t.rxSuspended o = s.rxSuspended o ∨ t.rxSuspended o = 0
  task : t.task = s.task ∨ t.task = .running

theorem Inv.outer (h : Inv o s) (hs : Outer o s t) : Inv o t := by
  refine ⟨hs.id.trans h.id, fun hpc => ?_, fun hpc hpc' => ?_, fun hpc htask => ?_, fun htask => ?_⟩
  · rcases hs.rxSuspended with hkept | hclear
    · rw [hkept]
      exact h.resumed (hs.pc ▸ hpc)
    · exact hclear
  · rw [hs.timer]
    exact h.idle (hs.pc ▸ hpc) (hs.pc ▸ hpc')
  · rcases hs.task with hkept | hrun
    · rw [hs.timer]
      exact h.pending (hs.pc ▸ hpc) (hkept ▸ htask)
    · rw [hrun] at htask
      cases htask
  · rcases hs.task with hkept | hrun
    · rw [hs.pc, hs.timer]
      exact h.asleep (hkept ▸ htask)
    · rw [hrun] at htask
      cases htask

theorem outer_isrRx {cpu count : BitVec 32} {mask : BitVec 64} : Outer o s (s.step o (.isrRx cpu count mask)) := by
  have hkept : (s.dev.isrRx cpu count mask).1.regs (reg o.row .rxSuspended) = s.rxSuspended o :=
    Dev.regs_iowrite_of_lt (by decide) o.inRange
  simp only [step]
  split
  · exact ⟨rfl, rfl, rfl, .inl hkept, .inr rfl⟩
  · exact ⟨rfl, rfl, rfl, .inl hkept, .inl rfl⟩

theorem outer_rxAvailable {v : BitVec 64} : Outer o s (s.step o (.rxAvailable v)) := by
  refine ⟨rfl, rfl, rfl, .inl ?_, .inl rfl⟩
  refine Function.update_of_ne (fun heq => ?_) _ _
  cases (reg_eq_iff.mp heq).2

theorem outer_resume : Outer o s (s.step o .resume) :=
  ⟨rfl, rfl, rfl, .inr (Function.update_self ..), .inl rfl⟩

theorem outer_other {a : Addr} {v : BitVec 64} : Outer o s (s.step o (.other a v)) := by
  simp only [step]
  split
  · exact ⟨rfl, rfl, rfl, .inl rfl, .inl rfl⟩
  · next ha =>
    refine ⟨rfl, rfl, rfl, .inl (Function.update_of_ne ?_ _ _), .inl rfl⟩
    rintro rfl
    refine ha ?_
    have hoff : reg o.row .rxSuspended - reg o.row .enabled = 0x38#64 := by
      simp only [reg, Field.off]
      bv_omega
    rw [hoff]
    decide

/-! ### Steps of the timer -/

theorem Inv.busy {timer : TimerState} {dev : Dev} (h : Inv o s) (ht : s.timer ≠ .idle) (ht' : timer ≠ .idle)
    (hid : dev.iocacheId o.p = s.dev.iocacheId o.p)
    (hregs : dev.regs (reg o.row .rxSuspended) = s.rxSuspended o ∨ dev.regs (reg o.row .rxSuspended) = 0) :
    Inv o { s with dev, timer } := by
  refine ⟨hid.trans h.id, fun hpc => ?_, fun hpc hpc' => absurd (h.idle hpc hpc') ht, fun _ _ => ht',
    fun htask => ⟨(h.asleep htask).1, ht'⟩⟩
  rcases hregs with hkept | hclear
  · exact hkept.trans (h.resumed hpc)
  · exact hclear

theorem Inv.timerStep (h : Inv o s) : Inv o (s.timerStep o) := by
  unfold WaitState.timerStep
  cases ht : s.timer with
  | idle => exact h
  | armed => exact h.busy (by simp [ht]) (by simp) rfl (.inl rfl)
  | reading =>
    refine h.busy (by simp [ht]) ?_ rfl (.inl rfl)
    split <;> simp
  | writing =>
    refine h.busy (by simp [ht]) (by simp) rfl (.inr ?_)
    rw [h.id, Dev.regs_iowrite_reg, if_pos ⟨rfl, rfl⟩]
  | waking => exact ⟨h.id, h.resumed, fun _ _ => rfl, fun _ => by simp [wakeUp], by simp [wakeUp]⟩

/-- The statements of the callback together are `iocache_timeout_cb`. -/
theorem timeoutCb_steps (h : s.timer = .reading) : ((s.timerStep o).timerStep o).timerStep o =
    { s with dev := s.dev.timeoutCb o.p, task := .running, timer := .idle } := by
  by_cases h0 : s.dev.regs (reg (s.dev.iocacheId o.p) .rxSuspended) = 0
  · simp only [WaitState.timerStep, h, if_pos h0, Dev.timeoutCb, wakeUp]
  · simp only [WaitState.timerStep, h, if_neg h0, Dev.timeoutCb, wakeUp]

/-! ### Steps of the process -/

theorem inv_of_idle (hid : s.dev.iocacheId o.p = o.row) (hresumed : s.pc.resumed = true → s.rxSuspended o = 0)
    (hpc : s.pc ≠ .schedule) (hidle : s.timer = .idle) (hawake : s.task ≠ .asleep) : Inv o s :=
  ⟨hid, hresumed, fun _ _ => hidle, fun hs => absurd hs hpc, fun htask => absurd htask hawake⟩

theorem Inv.process {first : Bool} (h : Inv o s) (hawake : s.task ≠ .asleep) : Inv o (s.process o first) := by
  have hresumed := h.resumed
  have hidle := h.idle
  cases hs : s.pc with
  | outside _ | firstCheck | lastCheck =>
    rw [hs] at hresumed hidle
    have hflag := hresumed rfl
    have htimer := hidle (by simp) (by simp)
    simp only [WaitState.process, hs]
    try split
    all_goals exact inv_of_idle h.id (fun _ => hflag) (by simp) htimer hawake
  | setRxSuspended | enableInterrupts | writeSuspended =>
    rw [hs] at hidle
    simp only [WaitState.process, hs]
    exact inv_of_idle h.id (by simp [WaitPc.resumed]) (by simp) (hidle (by simp) (by simp)) hawake
  | ioctl =>
    rw [hs] at hidle
    simp only [WaitState.process, hs]
    refine inv_of_idle h.id ?_ ?_ (hidle (by simp) (by simp)) hawake <;> cases first <;> simp [WaitPc.resumed]
  | setCurrentState =>
    rw [hs] at hidle
    simp only [WaitState.process, hs]
    exact inv_of_idle h.id (by simp [WaitPc.resumed]) (by simp) (hidle (by simp) (by simp)) (by simp)
  | clearFailed | clearRxSuspended =>
    rw [hs] at hidle
    simp only [WaitState.process, hs]
    refine inv_of_idle h.id (fun _ => ?_) (by simp) (hidle (by simp) (by simp)) hawake
    exact Dev.regs_iowrite_reg.trans (if_pos ⟨rfl, rfl⟩)
  | hrtimerStart =>
    simp only [WaitState.process, hs]
    exact ⟨h.id, by simp [WaitPc.resumed], by simp, by simp, fun htask => absurd htask hawake⟩
  | schedule =>
    simp only [WaitState.process, hs]
    refine ⟨h.id, by simp [WaitPc.resumed], by simp, by simp, fun htask => ⟨rfl, ?_⟩⟩
    -- The process sleeps only if it is still interruptible, so the timer has not woken it.
    by_cases hsleep : s.task = .interruptible ∧ first = false
    · exact h.pending hs hsleep.1
    · simp [hsleep] at htask
  | hrtimerCancel =>
    simp only [WaitState.process, hs]
    split
    · exact inv_of_idle h.id (by simp [WaitPc.resumed]) (by simp) rfl hawake
    · exact h

/-! ### Runs -/

theorem Inv.step {ev : WaitEvent} (h : Inv o s) : Inv o (s.step o ev) := by
  cases ev with
  | process first =>
    by_cases hasleep : s.task = .asleep
    · simpa only [WaitState.step, if_pos hasleep] using h
    · simpa only [WaitState.step, if_neg hasleep] using h.process hasleep
  | timer => exact h.timerStep
  | isrRx cpu count mask => exact h.outer outer_isrRx
  | signal => exact h.outer ⟨rfl, rfl, rfl, .inl rfl, .inr rfl⟩
  | rxAvailable v => exact h.outer outer_rxAvailable
  | resume => exact h.outer outer_resume
  | other a v => exact h.outer outer_other

theorem Ready.inv (h : Ready o s) : Inv o s := by
  refine inv_of_idle h.id (fun _ => h.resumed) ?_ h.idle ?_
  · simp [h.outside]
  · simp [h.running]

/-- `RX_SUSPENDED` is clear outside of the call, and a process that sleeps has a timer that is armed or whose
    callback is on its way to wake it. -/
structure Safe (o : Owner) (s : WaitState) : Prop where
  resumed : ∀ ret, s.pc = .outside ret → s.rxSuspended o = 0
  wakes : s.task = .asleep → s.timer ≠ .idle

theorem Inv.safe (h : Inv o s) : Safe o s := by
  refine ⟨fun ret hpc => h.resumed ?_, fun htask => (h.asleep htask).2⟩
  rw [hpc]
  rfl

/-- A step that returns 0 from the call reads `RX_AVAILABLE` as set. -/
def ReadsAvailable (o : Owner) (s : WaitState) (ev : WaitEvent) : Prop :=
  (∀ ret, s.pc ≠ .outside ret) → (s.step o ev).pc = .outside (some 0) →
    (∃ first, ev = .process first) ∧ (s.pc = .firstCheck ∨ s.pc = .lastCheck) ∧ s.dev.isRxAvailable o.row = true

theorem pc_of_ne_process {ev : WaitEvent} (h : ∀ first, ev ≠ .process first) : (s.step o ev).pc = s.pc := by
  cases ev with
  | process first => exact absurd rfl (h first)
  | timer =>
    simp only [WaitState.step, WaitState.timerStep]
    split <;> rfl
  | isrRx cpu count mask => exact outer_isrRx.pc
  | signal | rxAvailable _ | resume => rfl
  | other a v => exact outer_other.pc

theorem returns_of_process {first : Bool} (hinside : ∀ ret, s.pc ≠ .outside ret)
    (h : (s.process o first).pc = .outside (some 0)) :
    (s.pc = .firstCheck ∨ s.pc = .lastCheck) ∧ s.dev.isRxAvailable o.row = true := by
  cases hs : s.pc with
  | outside ret => exact absurd hs (hinside ret)
  | firstCheck =>
    refine ⟨.inl rfl, ?_⟩
    by_contra hno
    simp [WaitState.process, hs, hno] at h
  | lastCheck =>
    refine ⟨.inr rfl, ?_⟩
    by_contra hno
    simp [WaitState.process, hs, hno] at h
  | ioctl => cases first <;> simp [WaitState.process, hs] at h
  | hrtimerCancel =>
    simp only [WaitState.process, hs] at h
    split at h
    · cases h
    · exact absurd h (hinside _)
  | _ => simp [WaitState.process, hs] at h

theorem readsAvailable (o : Owner) (s : WaitState) (ev : WaitEvent) : ReadsAvailable o s ev := by
  intro hinside hret
  by_cases hev : ∃ first, ev = .process first
  · obtain ⟨first, rfl⟩ := hev
    by_cases hasleep : s.task = .asleep
    · rw [WaitState.step, if_pos hasleep] at hret
      exact absurd hret (hinside _)
    · rw [WaitState.step, if_neg hasleep] at hret
      exact ⟨⟨first, rfl⟩, returns_of_process hinside hret⟩
  · rw [pc_of_ne_process fun first heq => hev ⟨first, heq⟩] at hret
    exact absurd hret (hinside _)

/-- In every run of the owner's calls with the others, from a state in which it has reserved the row. -/
theorem waitOnRx_safe (h : Ready o s) (evs : List WaitEvent) :
    Run.Always (WaitState.step o) s evs (Safe o) ∧ Run.Guarded (WaitState.step o) s evs (ReadsAvailable o) := by
  constructor
  · exact (Run.always_of_step h.inv fun _ _ hinv => hinv.step).mono fun _ hinv => hinv.safe
  · exact fun pre ev _ => readsAvailable o _ ev

def sampleOwner : Owner := ⟨1, 2, 0, by decide, by decide⟩

def sampleReady : WaitState :=
  ⟨((Dev.probe (fun _ => 0) fun _ => 0).reserveRing 1 2 0 true true).2, .outside none, .running, .idle⟩

def sampleWait : List WaitEvent :=
  List.replicate 9 (.process false) ++ List.replicate 4 .timer ++ [.rxAvailable 1] ++ List.replicate 3 (.process false)

theorem waitOnRx_safe_timeout : Ready sampleOwner sampleReady ∧
    Run.Always (WaitState.step sampleOwner) sampleReady sampleWait (Safe sampleOwner) ∧
    ((sampleWait.take 9).foldl (WaitState.step sampleOwner) sampleReady).task = .asleep ∧
    (sampleWait.foldl (WaitState.step sampleOwner) sampleReady).pc = .outside (some 0) := by
  have h : Ready sampleOwner sampleReady :=
    ⟨rfl, by decide +kernel, rfl, rfl, rfl, by decide +kernel⟩
  exact ⟨h, (waitOnRx_safe h sampleWait).1, by decide +kernel, by decide +kernel⟩

end WaitState
end FireMarshal.Iocache
