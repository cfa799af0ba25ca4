import FireMarshal.Accnet.Napi

/-! What NAPI, the interrupt mask and `tx_lock` have to do with the statements that the handlers, the poll, a
    transmission and the process are at. `SCHED` is set while a poll is listed or runs, and while NAPI is disabled;
    a bit of the mask that a handler has cleared is set again at the end of the poll it schedules. -/

namespace FireMarshal.Accnet

/-! ### The control state -/

def ProcPc.off : ProcPc → Bool
  | .closed | .clearMask | .stopQueue => true
  | _ => false

def ProcPc.enabled : ProcPc → Side → Bool
  | .opened, _ => true
  | .setMaskTx, .rx => true
  | _, _ => false

namespace PollSys

variable {k : Kernel} {cap budget : Nat} {s : PollSys} {side : Side}

structure Ctl (s : PollSys) : Prop where
  disable : s.napi.disable = true ↔ s.proc = .disabling
  sched : s.napi.sched = true ↔ s.napi.listed = true ∨ s.poll ≠ .idle ∨ s.proc.off = true
  listed : s.napi.listed = true → s.poll = .idle
  off : s.proc.off = true → s.napi.listed = false ∧ s.poll = .idle
  xmit : s.xmit ≠ .idle → s.proc = .opened
  handler : (s.line .tx).isr = .masked → s.poll.locked = false ∧ s.xmit = .idle
  poll : s.poll.locked = true → s.xmit = .idle

/-- A bit that is off in `ACCNET_INTR_MASK` of an open device will be set again by a poll. -/
def Unmasks (s : PollSys) : Prop :=
  ∀ side, s.proc.enabled side = true → (s.line side).mask = true ∨ (s.line side).isr ≠ .idle ∨
    s.napi.listed = true ∨ s.poll ≠ .idle ∨ 0 < s.tails

theorem ctl_init : init.Ctl := by
  constructor <;> simp [init, ProcPc.off, PollPc.locked]

@[simp] theorem line_setLine_self (l : Line) : (s.setLine side l).line side = l := Function.update_self ..

theorem line_setLine_of_ne {side' : Side} (h : side' ≠ side) (l : Line) :
    (s.setLine side l).line side' = s.line side' :=
  Function.update_of_ne h ..

@[simp] theorem proc_setMask {b : Bool} : (s.setMask side b).proc = s.proc := rfl

@[simp] theorem pend_setMask {side' : Side} {b : Bool} :
    ((s.setMask side b).line side').pend = (s.line side').pend := by
  rcases Decidable.em (side' = side) with rfl | hne
  · rw [setMask, line_setLine_self]
  · rw [setMask, line_setLine_of_ne hne]

theorem not_txLocked_iff :
    s.txLocked = false ↔ s.poll.locked = false ∧ s.xmit = .idle ∧ (s.line .tx).isr ≠ .masked := by
  simp [txLocked, and_assoc]

theorem Ctl.schedule (h : Ctl s) : Ctl s.schedule := by
  obtain ⟨hd, hs, hl, ho, hx, hh, hp⟩ := h
  constructor <;> simp only [PollSys.schedule, Napi.schedule, Napi.schedulePrep] <;> grind

theorem Ctl.polls_schedule (h : Ctl s) (henabled : s.proc.enabled side = true) :
    s.schedule.napi.listed = true ∨ s.schedule.poll ≠ .idle := by
  obtain ⟨hd, hs, hl, ho, hx, hh, hp⟩ := h
  simp only [PollSys.schedule, Napi.schedule, Napi.schedulePrep]
  have hon : s.proc.off = false ∧ s.proc ≠ .disabling := by
    revert henabled
    cases s.proc <;> cases side <;> simp [ProcPc.enabled, ProcPc.off]
  grind

theorem Ctl.setLine (h : Ctl s) (l : Line)
    (hl : side = .tx → l.isr = .masked → s.poll.locked = false ∧ s.xmit = .idle) : Ctl (s.setLine side l) := by
  refine ⟨h.disable, h.sched, h.listed, h.off, h.xmit, fun hisr => ?_, h.poll⟩
  cases side with
  | tx => exact hl rfl (by simpa using hisr)
  | rx => exact h.handler (by rwa [line_setLine_of_ne (by decide)] at hisr)

theorem Ctl.setMask (h : Ctl s) (side : Side) (b : Bool) : Ctl (s.setMask side b) :=
  h.setLine _ fun htx => by subst htx; exact h.handler

theorem Ctl.isrStep (h : Ctl s) : Ctl (s.isrStep side) := by
  unfold PollSys.isrStep
  split
  · split
    · exact h
    · next hlock =>
      refine h.setLine _ fun htx _ => ?_
      have := not_txLocked_iff.mp (Bool.eq_false_iff.mpr fun hl => hlock ⟨htx, hl⟩)
      exact ⟨this.1, this.2.1⟩
  · exact h.setLine _ fun _ hm => by simp at hm
  · exact (h.setLine _ fun _ hm => by simp at hm).schedule

theorem Ctl.next {pc : PollPc} {tx : Tx} {rx : Rx} (h : Ctl s) (hpoll : s.poll ≠ .idle) (hpc : pc ≠ .idle)
    (hlock : pc.locked = true → s.poll.locked = true ∨ s.txLocked = false) : Ctl { s with tx, rx, poll := pc } := by
  have hheld : pc.locked = true → s.xmit = .idle ∧ (s.line .tx).isr ≠ .masked := by
    intro hl
    rcases hlock hl with hmine | hfree
    · refine ⟨h.poll hmine, fun hm => ?_⟩
      rw [(h.handler hm).1] at hmine
      cases hmine
    · exact (not_txLocked_iff.mp hfree).2
  refine ⟨h.disable, ?_, fun hl => absurd (h.listed hl) hpoll, fun ho => absurd (h.off ho).2 hpoll, h.xmit, ?_, ?_⟩
  · exact ⟨fun _ => .inr (.inl hpc), fun _ => h.sched.mpr (.inr (.inl hpoll))⟩
  · intro hm
    refine ⟨?_, (h.handler hm).2⟩
    by_contra hl
    exact (hheld (Bool.not_eq_false _ ▸ hl)).2 hm
  · exact fun hl => (hheld hl).1

theorem Ctl.ends {napi : Napi} {tails : Nat} {lost : Bool} (h : Ctl s) (hpoll : s.poll ≠ .idle)
    (hdisable : napi.disable = s.napi.disable) (hnapi : napi.sched = napi.listed) :
    Ctl { s with napi, tails, lost, poll := .idle } := by
  have hon : s.proc.off ≠ true := fun ho => hpoll (h.off ho).2
  refine ⟨hdisable ▸ h.disable, ?_, fun _ => rfl, fun ho => absurd ho hon, h.xmit, fun hm => ⟨rfl, (h.handler hm).2⟩,
    by simp [PollPc.locked]⟩
  simp [hnapi, hon]

theorem Ctl.pollStep (h : Ctl s) : Ctl (s.pollStep k cap budget) := by
  unfold PollSys.pollStep
  cases hp : s.poll with
  | idle =>
    dsimp only
    split
    · next hl =>
      have hon : s.proc.off ≠ true := fun ho => by simp [(h.off ho).1] at hl
      refine ⟨h.disable, ?_, by simp, fun ho => absurd ho hon, h.xmit, fun hm => ⟨rfl, (h.handler hm).2⟩,
        by simp [PollPc.locked]⟩
      simp [h.sched.mpr (.inl hl)]
    · exact h
  | start =>
    dsimp only
    split
    · exact h
    · next hl => exact h.next (by simp [hp]) (by simp) fun _ => .inr (Bool.eq_false_iff.mpr hl)
  | sendLoop n =>
    dsimp only
    split
    · exact h.next (by simp [hp]) (by simp) fun _ => .inl (by rw [hp]; rfl)
    · exact h.next (by simp [hp]) (by simp) fun _ => .inl (by rw [hp]; rfl)
  | wakeQueue => exact h.next (by simp [hp]) (by simp) (by simp [PollPc.locked])
  | recvStart => exact h.next (by simp [hp]) (by simp) (by simp [PollPc.locked])
  | recvLoop n i => cases i <;> exact h.next (by simp [hp]) (by simp) (by simp [PollPc.locked])
  | allocStart n => exact h.next (by simp [hp]) (by simp) (by simp [PollPc.locked])
  | allocLoop n i => cases i <;> exact h.next (by simp [hp]) (by simp) (by simp [PollPc.locked])
  | finish n =>
    have hpoll : s.poll ≠ .idle := by simp [hp]
    dsimp only
    split
    · exact h.ends hpoll rfl rfl
    · split
      · exact h.ends hpoll rfl rfl
      · exact h.ends hpoll rfl (h.sched.mpr (.inr (.inl hpoll)))

theorem Ctl.setIntmask (h : Ctl s) : Ctl s.setIntmask := by
  unfold PollSys.setIntmask
  split
  · exact h
  · have hmask := (h.setMask .tx true).setMask .rx true
    exact ⟨hmask.disable, hmask.sched, hmask.listed, hmask.off, hmask.xmit, hmask.handler, hmask.poll⟩

theorem Ctl.xmits {pc : XmitPc} (h : Ctl s) (tx : Tx)
    (hpc : pc = .idle ∨ s.xmit ≠ .idle ∨ s.txLocked = false ∧ s.proc = .opened) : Ctl { s with tx, xmit := pc } := by
  have hheld : pc ≠ .idle → s.proc = .opened ∧ s.poll.locked = false ∧ (s.line .tx).isr ≠ .masked := by
    intro hne
    rcases hpc with hidle | hmine | ⟨hfree, hopen⟩
    · exact absurd hidle hne
    · exact ⟨h.xmit hmine, Bool.eq_false_iff.mpr fun hl => hmine (h.poll hl), fun hm => hmine (h.handler hm).2⟩
    · exact ⟨hopen, (not_txLocked_iff.mp hfree).1, (not_txLocked_iff.mp hfree).2.2⟩
  refine ⟨h.disable, h.sched, h.listed, h.off, fun hx => (hheld hx).1, fun hm => ⟨(h.handler hm).1, ?_⟩, fun hl => ?_⟩
  · by_contra hx
    exact (hheld hx).2.2 hm
  · by_contra hx
    rw [(hheld hx).2.1] at hl
    cases hl

theorem Ctl.startXmit (h : Ctl s) (skb : Skb) : Ctl (s.startXmit k skb) := by
  unfold PollSys.startXmit
  split
  · exact h
  · next hguard =>
    simp only [not_or, Decidable.not_not, Bool.not_eq_true] at hguard
    split
    · exact ⟨h.disable, h.sched, h.listed, h.off, h.xmit, h.handler, h.poll⟩
    · exact h.xmits _ (.inr (.inr ⟨hguard.1, hguard.2.1⟩))

theorem Ctl.xmitStep (h : Ctl s) : Ctl (s.xmitStep k cap) := by
  unfold PollSys.xmitStep
  cases hx : s.xmit with
  | idle => exact h
  | posting skb rest => cases rest <;> exact h.xmits _ (.inr (.inl (by simp [hx])))
  | threshold =>
    have hnext : Ctl { s with xmit := .space } := h.xmits s.tx (.inr (.inl (by simp [hx])))
    dsimp only
    split
    · exact hnext.schedule
    · exact hnext
  | space =>
    dsimp only
    split
    · exact h.xmits s.tx (.inl rfl)
    · exact (h.xmits _ (.inl rfl)).schedule

theorem Ctl.proceed {pc : ProcPc} {tx : Tx} {rx : Rx} (h : Ctl s) (hxmit : s.xmit = .idle) (hoff : pc.off = s.proc.off)
    (hold : s.proc ≠ .disabling) (hnew : pc ≠ .disabling) : Ctl { s with tx, rx, proc := pc } :=
  ⟨by simp [h.disable, hold, hnew], by simp [h.sched, hoff], h.listed, hoff ▸ h.off, fun hx => absurd hxmit hx,
    h.handler, h.poll⟩

theorem Ctl.procStep (h : Ctl s) : Ctl (s.procStep k cap) := by
  have hxmit : s.proc ≠ .opened → s.xmit = .idle := fun hp => by
    by_contra hx
    exact hp (h.xmit hx)
  unfold PollSys.procStep
  cases hp : s.proc with
  | closed =>
    obtain ⟨hl, hpoll⟩ := h.off (by simp [hp, ProcPc.off])
    refine ⟨by simp [h.disable, hp], by simp [hl, hpoll, ProcPc.off], h.listed, by simp [ProcPc.off], ?_, h.handler,
      h.poll⟩
    simp [hxmit (by simp [hp])]
  | allocStart => exact h.proceed (hxmit (by simp [hp])) (by rw [hp]; rfl) (by simp [hp]) (by simp)
  | allocLoop i => cases i <;> exact h.proceed (hxmit (by simp [hp])) (by rw [hp]; rfl) (by simp [hp]) (by simp)
  | startQueue => exact h.proceed (hxmit (by simp [hp])) (by rw [hp]; rfl) (by simp [hp]) (by simp)
  | setMaskRx =>
    dsimp only
    split
    · exact h
    · exact (h.setMask .rx true).proceed (hxmit (by simp [hp])) (by rw [proc_setMask, hp]; rfl) (by simp [hp]) (by simp)
  | setMaskTx =>
    dsimp only
    split
    · exact h
    · exact (h.setMask .tx true).proceed (hxmit (by simp [hp])) (by rw [proc_setMask, hp]; rfl) (by simp [hp]) (by simp)
  | opened =>
    dsimp only
    split
    · next hx =>
      have hsched := h.sched
      rw [hp] at hsched
      exact ⟨by simp, hsched, h.listed, by simp [ProcPc.off], fun hx' => absurd hx hx', h.handler, h.poll⟩
    · exact h
  | disabling =>
    dsimp only
    split
    · exact h
    · next hs =>
      have hfree := mt h.sched.mpr hs
      simp only [not_or, Bool.not_eq_true, Decidable.not_not] at hfree
      refine ⟨by simp, by simp [ProcPc.off], h.listed, fun _ => ⟨hfree.1, hfree.2.1⟩, ?_, h.handler, h.poll⟩
      simp [hxmit (by simp [hp])]
  | clearMask =>
    exact ((h.setMask .tx false).setMask .rx false).proceed (hxmit (by simp [hp]))
      (by rw [proc_setMask, proc_setMask, hp]; rfl)
      (by simp [hp]) (by simp)
  | stopQueue => exact h.proceed (hxmit (by simp [hp])) (by rw [hp]; rfl) (by simp [hp]) (by simp)

theorem Ctl.signal (h : Ctl s) (logged : Bool) : Ctl (s.signal side logged) :=
  h.setLine _ fun htx => by subst htx; exact h.handler

theorem Ctl.step (h : Ctl s) (a : PollAct) : Ctl (s.step k cap budget a) := by
  cases a with
  | isr side => exact h.isrStep
  | poll => exact h.pollStep
  | setIntmask => exact h.setIntmask
  | startXmit skb => exact h.startXmit skb
  | xmit => exact h.xmitStep
  | proc => exact h.procStep
  | txEngine st =>
    have hdata : Ctl { s with tx := { s.tx with eng := s.tx.eng.step depth cap st } } :=
      ⟨h.disable, h.sched, h.listed, h.off, h.xmit, h.handler, h.poll⟩
    exact hdata.signal _
  | rxEngine st =>
    have hdata : Ctl { s with rx := { s.rx with eng := s.rx.eng.step depth cap st } } :=
      ⟨h.disable, h.sched, h.listed, h.off, h.xmit, h.handler, h.poll⟩
    exact hdata.signal _

/-! ### The interrupt mask -/

theorem enabled_iff {pc : ProcPc} : pc.enabled side = true ↔ pc = .opened ∨ pc = .setMaskTx ∧ side = .rx := by
  cases pc <;> cases side <;> simp [ProcPc.enabled]

theorem unmasks_init : init.Unmasks := fun side h => by simp [init, ProcPc.enabled] at h

theorem Unmasks.setLine (h : Unmasks s) (l : Line)
    (hl : (s.line side).mask = true ∨ (s.line side).isr ≠ .idle → l.mask = true ∨ l.isr ≠ .idle) :
    Unmasks (s.setLine side l) := by
  intro side' henabled
  rcases Decidable.em (side' = side) with rfl | hne
  · rw [line_setLine_self]
    rcases h side' henabled with hm | hi | hpoll
    · exact (hl (.inl hm)).imp_right .inl
    · exact (hl (.inr hi)).imp_right .inl
    · exact .inr (.inr hpoll)
  · rw [line_setLine_of_ne hne]
    exact h side' henabled

theorem unmasks_schedule (h : Ctl s) : s.schedule.Unmasks := fun _ henabled =>
  (h.polls_schedule henabled).elim (fun hl => .inr (.inr (.inl hl))) fun hp => .inr (.inr (.inr (.inl hp)))

theorem unmasks_of_poll (h : s.poll ≠ .idle) : Unmasks s := fun _ _ => .inr (.inr (.inr (.inl h)))

theorem Unmasks.pollStep (h : Unmasks s) (hctl : Ctl s) : Unmasks (s.pollStep k cap budget) := by
  unfold PollSys.pollStep
  cases hp : s.poll with
  | idle =>
    dsimp only
    split
    · exact unmasks_of_poll (by simp)
    · exact h
  | start =>
    dsimp only
    split
    · exact h
    · exact unmasks_of_poll (by simp)
  | sendLoop n =>
    dsimp only
    split <;> exact unmasks_of_poll (by simp)
  | recvLoop n i => cases i <;> exact unmasks_of_poll (by simp)
  | allocLoop n i => cases i <;> exact unmasks_of_poll (by simp)
  | finish n =>
    dsimp only
    split
    · exact fun _ _ => .inr (.inr (.inr (.inr (Nat.succ_pos _))))
    · split
      · next hd =>
        intro side henabled
        rw [hctl.disable] at hd
        simp [hd, enabled_iff] at henabled
      · exact fun _ _ => .inr (.inr (.inl rfl))
  | _ => exact unmasks_of_poll (by simp)

theorem Unmasks.congr {t : PollSys} (h : Unmasks s) (hproc : t.proc = s.proc) (hline : t.line = s.line)
    (hnapi : t.napi = s.napi) (hpoll : t.poll = s.poll) (htails : t.tails = s.tails) : Unmasks t := by
  unfold Unmasks
  rw [hproc, hline, hnapi, hpoll, htails]
  exact h

theorem Unmasks.procStep (h : Unmasks s) : Unmasks (s.procStep k cap) := by
  -- Only the two steps that set the mask enable anything.
  have closes : ∀ {t : PollSys}, t.proc ≠ .opened → t.proc ≠ .setMaskTx → t.Unmasks := fun h1 h2 side henabled => by
    rcases enabled_iff.mp henabled with hp | ⟨hp, -⟩
    · exact absurd hp h1
    · exact absurd hp h2
  unfold PollSys.procStep
  cases hp : s.proc with
  | allocLoop i => cases i <;> exact closes (by simp) (by simp)
  | setMaskRx =>
    dsimp only
    split
    · exact h
    · intro side henabled
      obtain rfl : side = .rx := by simpa [enabled_iff] using henabled
      exact .inl (by simp [setMask])
  | setMaskTx =>
    dsimp only
    split
    · exact h
    · intro side _
      cases side with
      | tx => exact .inl (by simp [setMask])
      | rx =>
        have := h .rx (by rw [hp]; rfl)
        rwa [← line_setLine_of_ne (s := s) (show Side.rx ≠ .tx by decide) { s.line .tx with mask := true }] at this
  | opened =>
    dsimp only
    split
    · exact closes (by simp) (by simp)
    · exact h
  | disabling =>
    dsimp only
    split
    · exact h
    · exact closes (by simp) (by simp)
  | _ => exact closes (by simp) (by simp)

theorem Unmasks.step (h : Unmasks s) (hctl : Ctl s) (a : PollAct) : Unmasks (s.step k cap budget a) := by
  cases a with
  | isr side =>
    simp only [PollSys.step, isrStep]
    split
    · split
      · exact h
      · exact h.setLine _ fun _ => .inr (by simp)
    · exact h.setLine _ fun _ => .inr (by simp)
    · exact unmasks_schedule (hctl.setLine _ fun _ hm => by simp at hm)
  | poll => exact h.pollStep hctl
  | setIntmask =>
    simp only [PollSys.step, PollSys.setIntmask]
    split
    · exact h
    · intro side _
      refine .inl ?_
      cases side with
      | tx => simp [setMask, line_setLine_of_ne (show Side.tx ≠ .rx by decide)]
      | rx => simp [setMask]
  | startXmit skb =>
    simp only [PollSys.step, PollSys.startXmit]
    split
    · exact h
    · split <;> exact h.congr rfl rfl rfl rfl rfl
  | xmit =>
    simp only [PollSys.step, PollSys.xmitStep]
    cases hx : s.xmit with
    | idle => exact h
    | posting skb rest => cases rest <;> exact h.congr rfl rfl rfl rfl rfl
    | threshold =>
      dsimp only
      split
      · exact unmasks_schedule (hctl.xmits s.tx (.inr (.inl (by simp [hx]))))
      · exact h.congr rfl rfl rfl rfl rfl
    | space =>
      dsimp only
      split
      · exact h.congr rfl rfl rfl rfl rfl
      · exact unmasks_schedule (hctl.xmits _ (.inl rfl))
  | proc => exact h.procStep
  | txEngine st => exact Unmasks.setLine (h.congr rfl rfl rfl rfl rfl) _ id
  | rxEngine st => exact Unmasks.setLine (h.congr rfl rfl rfl rfl rfl) _ id

end PollSys

end FireMarshal.Accnet
