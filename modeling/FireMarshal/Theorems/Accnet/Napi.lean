import FireMarshal.Lib.Run
import FireMarshal.Theorems.Accnet.NapiData

/-! No completion goes unnoticed. A completion sets the pending bit of its engine; the handler clears the bit only
    before it schedules the poll, and a schedule that finds the poll running makes it run once more (`missed`). So
    whenever completions wait that the running poll has not counted, a handler, a listed poll or a raised interrupt
    is there to notice them (`Noticed`), as long as NAPI turns nothing down because it is being disabled. -/

namespace FireMarshal.Accnet

namespace PollSys

variable {k : Kernel} {cap budget : Nat} {s : PollSys} {side : Side}

/-! ### What notices a completion -/

/-- A poll will read the completions of this side after now: the interrupt is pending or its handler is about to
    schedule, a poll is listed, or the running one will be repeated. -/
def Noticed (s : PollSys) (side : Side) : Prop :=
  (s.line side).pend = true ∨ (s.line side).isr = .cleared ∨ s.napi.listed = true ∨
    (s.napi.missed = true ∧ s.poll ≠ .idle)

def Alert (s : PollSys) (side : Side) : Prop := s.lost = true ∨ s.Noticed side

theorem Alert.mono {t : PollSys} (h : Alert s side) (hlost : s.lost = true → t.lost = true)
    (hline : (s.line side).pend = true ∨ (s.line side).isr = .cleared →
      (t.line side).pend = true ∨ (t.line side).isr = .cleared)
    (hlisted : s.napi.listed = true → t.napi.listed = true)
    (hmissed : s.napi.missed = true → s.poll ≠ .idle → t.napi.listed = true ∨ t.napi.missed = true ∧ t.poll ≠ .idle) :
    Alert t side := by
  rcases h with hl | hp | hc | hl | ⟨hm, hp⟩
  · exact .inl (hlost hl)
  · exact .inr ((hline (.inl hp)).imp_right .inl)
  · exact .inr ((hline (.inr hc)).imp_right .inl)
  · exact .inr (.inr (.inr (.inl (hlisted hl))))
  · exact .inr (.inr (.inr (hmissed hm hp)))

theorem Alert.congr {t : PollSys} (h : Alert s side) (hlost : t.lost = s.lost) (hline : t.line = s.line)
    (hlisted : t.napi.listed = s.napi.listed) (hmissed : t.napi.missed = s.napi.missed)
    (hpoll : s.poll ≠ .idle → t.poll ≠ .idle) : Alert t side :=
  h.mono (hlost ▸ id) (hline ▸ id) (hlisted ▸ id) fun hm hp => .inr ⟨hmissed ▸ hm, hpoll hp⟩

theorem alert_schedule : s.schedule.Alert side := by
  unfold Alert Noticed
  simp only [PollSys.schedule, Napi.schedule, Napi.schedulePrep]
  grind

theorem Alert.setLine {side' : Side} {l : Line} (h : Alert s side)
    (hl : side' = side → (s.line side).pend = true ∨ (s.line side).isr = .cleared → l.pend = true ∨ l.isr = .cleared) :
    Alert (s.setLine side' l) side := by
  refine h.mono id (fun hline => ?_) id fun hm hp => .inr ⟨hm, hp⟩
  rcases Decidable.em (side' = side) with rfl | hne
  · rw [line_setLine_self]
    exact hl rfl hline
  · rw [line_setLine_of_ne (Ne.symm hne)]
    exact hline

theorem Alert.setMask {side' : Side} {b : Bool} (h : Alert s side) : Alert (s.setMask side' b) side :=
  h.setLine fun heq => by subst heq; exact id

theorem Alert.signal {side' : Side} {logged : Bool} (h : Alert s side) : Alert (s.signal side' logged) side :=
  h.setLine fun heq => by
    subst heq
    exact Or.imp_left fun hpend => by rw [hpend, Bool.true_or]

theorem Alert.isrStep {side' : Side} (h : Alert s side) : Alert (s.isrStep side') side := by
  unfold PollSys.isrStep
  split
  · next hisr =>
    split
    · exact h
    · exact h.setLine fun heq hl => .inl (by subst heq; simpa [hisr] using hl)
  · exact h.setLine fun _ _ => .inr rfl
  · exact alert_schedule

theorem Alert.pollStep (k : Kernel) (cap budget : Nat) (h : Alert s side) (hctl : Ctl s) :
    Alert (s.pollStep k cap budget) side ∨ (s.pollStep k cap budget).poll = .start := by
  unfold PollSys.pollStep
  cases hp : s.poll with
  | idle =>
    dsimp only
    split
    · exact .inr rfl
    · exact .inl h
  | start =>
    dsimp only
    split
    · exact .inl h
    · exact .inl (h.congr rfl rfl rfl rfl (by simp))
  | sendLoop n =>
    dsimp only
    split <;> exact .inl (h.congr rfl rfl rfl rfl (by simp))
  | recvLoop n i => cases i <;> exact .inl (h.congr rfl rfl rfl rfl (by simp))
  | allocLoop n i => cases i <;> exact .inl (h.congr rfl rfl rfl rfl (by simp))
  | finish n =>
    have hlisted : s.napi.listed ≠ true := fun hl => by simp [hctl.listed hl] at hp
    dsimp only
    split
    · exact .inl (h.mono id id (fun hl => absurd hl hlisted) fun hm _ => .inl hm)
    · split
      · exact .inl (.inl rfl)
      · exact .inl (.inr (.inr (.inr (.inl rfl))))
  | _ => exact .inl (h.congr rfl rfl rfl rfl (by simp))

theorem Alert.procStep (h : Alert s side) : Alert (s.procStep k cap) side := by
  unfold PollSys.procStep
  cases s.proc with
  | allocLoop i => cases i <;> exact h.congr rfl rfl rfl rfl id
  | setMaskRx =>
    dsimp only
    split
    · exact h
    · exact h.setMask.congr rfl rfl rfl rfl id
  | setMaskTx =>
    dsimp only
    split
    · exact h
    · exact h.setMask.congr rfl rfl rfl rfl id
  | clearMask => exact h.setMask.setMask.congr rfl rfl rfl rfl id
  | _ => dsimp only; (try split) <;> exact h

theorem Alert.step (k : Kernel) (cap budget : Nat) (h : Alert s side) (hctl : Ctl s) (a : PollAct) :
    Alert (s.step k cap budget a) side ∨ (s.step k cap budget a).poll = .start := by
  cases a with
  | isr side' => exact .inl h.isrStep
  | poll => exact h.pollStep k cap budget hctl
  | setIntmask =>
    simp only [PollSys.step, PollSys.setIntmask]
    split
    · exact .inl h
    · exact .inl (h.setMask.setMask.congr rfl rfl rfl rfl id)
  | startXmit skb =>
    simp only [PollSys.step, PollSys.startXmit]
    split <;> (try split) <;> exact .inl (h.congr rfl rfl rfl rfl id)
  | xmit =>
    simp only [PollSys.step, PollSys.xmitStep]
    split <;> (try split) <;> first | exact .inl alert_schedule | exact .inl (h.congr rfl rfl rfl rfl id)
  | proc => exact .inl h.procStep
  | txEngine st => exact .inl (Alert.signal (h.congr rfl rfl rfl rfl id))
  | rxEngine st => exact .inl (Alert.signal (h.congr rfl rfl rfl rfl id))

end PollSys

/-! ### What the poll has counted -/

def PollPc.rxLeft (budget : Nat) : PollPc → Option Nat
  | .idle => some 0
  | .start | .sendLoop _ | .wakeQueue | .recvStart => none
  | .recvLoop n i => if n < budget then some i else none
  | .allocStart n | .allocLoop n _ | .finish n => if n < budget then some 0 else none

namespace PollSys

variable {k : Kernel} {cap budget : Nat} {s : PollSys} {side : Side}

def RxSeen (budget : Nat) (s : PollSys) : Prop :=
  s.Alert .rx ∨ ∀ c ∈ s.poll.rxLeft budget, s.rx.eng.comps.length ≤ c

theorem rxSeen_init : init.RxSeen budget :=
  .inr (by simp [init, Nic.init, Engine.init, PollPc.rxLeft])

theorem poll_step (k : Kernel) (cap budget : Nat) {a : PollAct} (ha : a ≠ .poll) :
    (s.step k cap budget a).poll = s.poll := by
  cases a with
  | poll => exact absurd rfl ha
  | isr side =>
    simp only [PollSys.step, PollSys.isrStep]
    split <;> (try split) <;> rfl
  | setIntmask =>
    simp only [PollSys.step, PollSys.setIntmask]
    split <;> rfl
  | startXmit skb =>
    simp only [PollSys.step, PollSys.startXmit]
    split <;> (try split) <;> rfl
  | xmit =>
    simp only [PollSys.step, PollSys.xmitStep]
    split <;> (try split) <;> rfl
  | proc =>
    simp only [PollSys.step, PollSys.procStep]
    split <;> (try split) <;> rfl
  | txEngine st => rfl
  | rxEngine st => rfl

theorem pend_signal {logged : Bool} (h : logged = true) : (s.signal side logged).Alert side := by
  refine .inr (.inl ?_)
  rw [PollSys.signal, line_setLine_self, h, Bool.or_true]

theorem RxSeen.pollStep (h : RxSeen budget s) (hctl : Ctl s) (hrx : RxOk cap s) :
    RxSeen budget (s.pollStep k cap budget) := by
  rcases h with halert | hseen
  · rcases halert.pollStep k cap budget hctl with halert | hstart
    · exact .inl halert
    · exact .inr (by simp [hstart, PollPc.rxLeft])
  unfold PollSys.pollStep
  cases hp : s.poll with
  | idle =>
    dsimp only
    split
    · exact .inr (by simp [PollPc.rxLeft])
    · exact .inr hseen
  | start =>
    dsimp only
    split
    · exact .inr hseen
    · exact .inr (by simp [PollPc.rxLeft])
  | sendLoop n =>
    dsimp only
    split <;> exact .inr (by simp [PollPc.rxLeft])
  | wakeQueue => exact .inr (by simp [PollPc.rxLeft])
  | recvStart =>
    have havail : s.rx.recvCompAvail.toNat = s.rx.eng.comps.length := by
      have := hrx.bounded.comps
      simp only [depth, Rx.recvCompAvail] at this ⊢
      omega
    refine .inr fun c hc => ?_
    simp only [PollPc.rxLeft, havail, Option.mem_ite_none_right, Option.mem_some_iff] at hc
    obtain ⟨hbudget, rfl⟩ := hc
    show s.rx.eng.comps.length ≤ _
    omega
  | recvLoop n i =>
    rw [hp] at hseen
    cases i with
    | zero => exact .inr hseen
    | succ i =>
      refine .inr fun c hc => ?_
      simp only [PollPc.rxLeft, Option.mem_ite_none_right, Option.mem_some_iff] at hc hseen
      obtain ⟨hbudget, rfl⟩ := hc
      have hle := hseen (i + 1) ⟨hbudget, rfl⟩
      show (s.rx.completeRecvLoop cap 1).eng.comps.length ≤ i
      rw [(completeRecvLoop_one cap hrx.script).1, Engine.read, List.length_tail]
      omega
  | allocStart n =>
    rw [hp] at hseen
    exact .inr hseen
  | allocLoop n i =>
    rw [hp] at hseen
    cases i with
    | zero => exact .inr hseen
    | succ i =>
      refine .inr fun c hc => ?_
      show (s.rx.allocRecvLoop k cap 1).eng.comps.length ≤ c
      rw [(allocRecvLoop_one k cap hrx.script).1]
      exact hseen c hc
  | finish n =>
    rw [hp] at hseen
    dsimp only
    split
    · next hlt =>
      rw [PollPc.rxLeft, if_pos hlt] at hseen
      exact .inr hseen
    · split
      · exact .inl (.inl rfl)
      · exact .inl (.inr (.inr (.inr (.inl rfl))))

theorem RxSeen.step (h : RxSeen budget s) (hctl : Ctl s) (hrx : RxOk cap s) (a : PollAct) :
    RxSeen budget (s.step k cap budget a) := by
  rcases Decidable.em (a = .poll) with rfl | ha
  · exact h.pollStep hctl hrx
  have hpoll := poll_step (s := s) k cap budget ha
  rcases h with halert | hseen
  · rcases halert.step k cap budget hctl a with halert | hstart
    · exact .inl halert
    · exact .inr (by simp [hstart, PollPc.rxLeft])
  unfold RxSeen
  rw [hpoll]
  rcases rx_step k cap budget s a with hkept | halloc | ⟨-, -, -, rfl, -⟩ | ⟨st, rfl⟩
  · exact .inr (hkept ▸ hseen)
  · rw [halloc, (allocRecvLoop_one k cap hrx.script).1]
    exact .inr hseen
  · exact absurd rfl ha
  · -- The engine logs a completion, or leaves them as they are.
    by_cases hlog : s.rx.eng.comps.length < (s.rx.eng.step depth cap st).comps.length
    · exact .inl (pend_signal (decide_eq_true hlog))
    · exact .inr fun c hc => Nat.le_trans (Nat.le_of_not_lt hlog) (hseen c hc)

theorem releasable_eq_none_iff {t : Tx} : releasable t = none ↔
    ∀ skb q, t.sendCq.contents = skb :: q → t.eng.comps.length < skb.nsegments := by
  unfold releasable
  cases t.sendCq.contents with
  | nil => simp
  | cons skb q => simp [Option.filter]

def TxSeen (s : PollSys) : Prop :=
  s.Alert .tx ∨ s.poll = .start ∨ (∃ n, s.poll = .sendLoop n ∧ s.tx.eng.comps.length ≤ n) ∨ releasable s.tx = none

theorem txSeen_init : init.TxSeen :=
  .inr (.inr (.inr (releasable_eq_none_iff.mpr fun skb q hq => by simp [init, Nic.init] at hq)))

theorem txData_step (k : Kernel) (cap budget : Nat) {a : PollAct} (hpoll : a ≠ .poll) (hxmit : a ≠ .xmit)
    (heng : ∀ st, a ≠ .txEngine st) :
    (s.step k cap budget a).tx.eng = s.tx.eng ∧ (s.step k cap budget a).tx.sendCq = s.tx.sendCq := by
  cases a with
  | poll => exact absurd rfl hpoll
  | xmit => exact absurd rfl hxmit
  | txEngine st => exact absurd rfl (heng st)
  | isr side =>
    simp only [PollSys.step, PollSys.isrStep]
    split <;> (try split) <;> exact ⟨rfl, rfl⟩
  | setIntmask =>
    simp only [PollSys.step, PollSys.setIntmask]
    split <;> exact ⟨rfl, rfl⟩
  | startXmit skb =>
    simp only [PollSys.step, PollSys.startXmit]
    split <;> (try split) <;> exact ⟨rfl, rfl⟩
  | proc =>
    simp only [PollSys.step, PollSys.procStep]
    split <;> (try split) <;> exact ⟨rfl, rfl⟩
  | rxEngine st => exact ⟨rfl, rfl⟩

/-- While a transmission writes descriptors, a completion of one of them keeps the interrupt pending: the handler
    waits for the lock. -/
def PostingSeen (k : Kernel) (s : PollSys) : Prop :=
  (s.line .tx).pend = true ∨ s.xmit.skbs = [] ∨ s.tx.eng.comps.length ≤ (descs k s.tx.sendCq.contents).length

theorem releasable_congr {t u : Tx} (heng : u.eng.comps = t.eng.comps) (hcq : u.sendCq = t.sendCq) :
    releasable u = releasable t := by
  unfold releasable
  rw [heng, hcq]

theorem TxSeen.pollStep (h : TxSeen s) (hctl : Ctl s) (htx : TxOk k cap s) : TxSeen (s.pollStep k cap budget) := by
  rcases h with halert | hseen
  · rcases halert.pollStep k cap budget hctl with halert | hstart
    · exact .inl halert
    · exact .inr (.inl hstart)
  -- Only `complete_send` has to do with TX; past it, nothing can be released any more.
  have done : s.poll ≠ .start → (∀ n, s.poll ≠ .sendLoop n) → releasable s.tx = none := fun hstart hloop => by
    rcases hseen with hp | ⟨n, hp, -⟩ | hnone
    · exact absurd hp hstart
    · exact absurd hp (hloop n)
    · exact hnone
  unfold PollSys.pollStep
  cases hp : s.poll with
  | idle =>
    dsimp only
    split
    · exact .inr (.inl rfl)
    · exact .inr hseen
  | start =>
    dsimp only
    split
    · exact .inr hseen
    · exact .inr (.inr (.inl ⟨_, rfl, Nat.le_of_eq (Tx.sendCompAvail_eq htx.bounded.comps).symm⟩))
  | sendLoop n =>
    have hidle := hctl.poll (by rw [hp]; rfl)
    have hn := htx.counted n hp
    dsimp only
    split
    · next hround =>
      refine .inr (.inr (.inr ?_))
      rcases hseen with hstart | ⟨n', hp', hle⟩ | hnone
      · simp [hp] at hstart
      · obtain rfl : n' = n := by simpa [hp] using hp'.symm
        refine releasable_eq_none_iff.mpr fun skb q hq => ?_
        rw [sendRound_of_front hq] at hround
        split at hround
        · cases hround
        · show s.tx.eng.comps.length < _
          omega
      · exact hnone
    · next n' tx hround =>
      obtain ⟨skb, q, hq, hfit, rfl, heng, hcq, -⟩ := htx.sendRound_some hidle hn hround
      refine .inr (.inr (.inl ⟨_, rfl, ?_⟩))
      rcases hseen with hstart | ⟨n', hp', hle⟩ | hnone
      · simp [hp] at hstart
      · obtain rfl : n' = n := by simpa [hp] using hp'.symm
        simp only [heng, List.length_drop]
        omega
      · have := releasable_eq_none_iff.mp hnone skb q hq
        omega
  | wakeQueue => exact .inr (.inr (.inr (done (by simp [hp]) (by simp [hp]))))
  | recvStart => exact .inr (.inr (.inr (done (by simp [hp]) (by simp [hp]))))
  | recvLoop n i => cases i <;> exact .inr (.inr (.inr (done (by simp [hp]) (by simp [hp]))))
  | allocStart n => exact .inr (.inr (.inr (done (by simp [hp]) (by simp [hp]))))
  | allocLoop n i => cases i <;> exact .inr (.inr (.inr (done (by simp [hp]) (by simp [hp]))))
  | finish n =>
    have hnone := done (by simp [hp]) (by simp [hp])
    dsimp only
    split
    · exact .inr (.inr (.inr hnone))
    · split <;> exact .inr (.inr (.inr hnone))

theorem PostingSeen.congr {t : PollSys} (h : PostingSeen k s) (hpend : (t.line .tx).pend = (s.line .tx).pend)
    (hskbs : t.xmit.skbs = s.xmit.skbs) (hcomps : t.tx.eng.comps = s.tx.eng.comps) (hcq : t.tx.sendCq = s.tx.sendCq) :
    PostingSeen k t := by
  unfold PostingSeen
  rw [hpend, hskbs, hcomps, hcq]
  exact h

theorem postingSeen_of_idle (h : s.xmit = .idle) : PostingSeen k s := .inr (.inl (by rw [h]; rfl))

theorem PostingSeen.setLine {l : Line} (h : PostingSeen k s)
    (hl : side = .tx → (s.line .tx).pend = true → l.pend = true) :
    PostingSeen k (s.setLine side l) := by
  refine h.imp_left fun hpend => ?_
  cases side with
  | tx => exact (line_setLine_self (s := s) l).symm ▸ hl rfl hpend
  | rx => exact (line_setLine_of_ne (s := s) (show Side.tx ≠ .rx by decide) l).symm ▸ hpend

theorem comps_writeReq {t : Tx} (h : t.script = []) (d : Desc) : (t.writeReq cap d).eng.comps = t.eng.comps := by
  simp only [Tx.writeReq, Tx.tick, h, List.headD_nil, List.foldl_nil, Engine.request]
  split <;> rfl

theorem PostingSeen.xmitStep (h : PostingSeen k s) (htx : TxOk k cap s) : PostingSeen k (s.xmitStep k cap) := by
  unfold PollSys.xmitStep
  cases hx : s.xmit with
  | idle => exact h
  | posting skb rest =>
    cases rest with
    | nil => exact .inr (.inl rfl)
    | cons d rest =>
      exact h.congr rfl (by rw [hx]; rfl) (comps_writeReq htx.script d) rfl
  | threshold =>
    dsimp only
    split <;> exact .inr (.inl rfl)
  | space =>
    dsimp only
    split <;> exact .inr (.inl rfl)

theorem PostingSeen.startXmit (h : PostingSeen k s) (htx : TxOk k cap s) (skb : Skb) :
    PostingSeen k (s.startXmit k skb) := by
  unfold PollSys.startXmit
  split
  · exact h
  · next hguard =>
    simp only [not_or, Decidable.not_not, Bool.not_eq_true] at hguard
    split
    · exact h.congr rfl rfl rfl rfl
    · refine .inr (.inr ?_)
      show s.tx.eng.comps.length ≤ (descs k s.tx.sendCq.contents).length
      rw [← htx.outstanding_of_idle (not_txLocked_iff.mp hguard.1).2.1, Engine.length_outstanding]
      omega

theorem pollStep_frame (k : Kernel) (cap budget : Nat) (s : PollSys) :
    (s.pollStep k cap budget).line = s.line ∧ (s.pollStep k cap budget).xmit = s.xmit ∧
    (s.pollStep k cap budget).proc = s.proc ∧ (s.poll.locked = false → (s.pollStep k cap budget).tx = s.tx) := by
  unfold PollSys.pollStep
  cases s.poll with
  | sendLoop n =>
    dsimp only
    split <;> exact ⟨rfl, rfl, rfl, fun h => by cases h⟩
  | wakeQueue => exact ⟨rfl, rfl, rfl, fun h => by cases h⟩
  | recvLoop n i => cases i <;> exact ⟨rfl, rfl, rfl, fun _ => rfl⟩
  | allocLoop n i => cases i <;> exact ⟨rfl, rfl, rfl, fun _ => rfl⟩
  | finish n =>
    dsimp only
    split
    · exact ⟨rfl, rfl, rfl, fun _ => rfl⟩
    · split <;> exact ⟨rfl, rfl, rfl, fun _ => rfl⟩
  | _ => dsimp only; (try split) <;> exact ⟨rfl, rfl, rfl, fun _ => rfl⟩

theorem proc_step {a : PollAct} (ha : a ≠ .proc) : (s.step k cap budget a).proc = s.proc := by
  cases a with
  | isr side =>
    simp only [PollSys.step, isrStep]
    split <;> (try split) <;> rfl
  | poll => exact (pollStep_frame k cap budget s).2.2.1
  | setIntmask =>
    simp only [PollSys.step, PollSys.setIntmask]
    split <;> rfl
  | startXmit skb =>
    simp only [PollSys.step, PollSys.startXmit]
    split <;> (try split) <;> rfl
  | xmit =>
    simp only [PollSys.step, PollSys.xmitStep]
    split <;> (try split) <;> rfl
  | proc => exact absurd rfl ha
  | txEngine st => rfl
  | rxEngine st => rfl

theorem procStep_frame (k : Kernel) (cap : Nat) (s : PollSys) :
    (∀ side, ((s.procStep k cap).line side).pend = (s.line side).pend) ∧
    (s.procStep k cap).xmit = s.xmit := by
  unfold PollSys.procStep
  cases s.proc with
  | allocLoop i => cases i <;> exact ⟨fun _ => rfl, rfl⟩
  | clearMask => exact ⟨fun _ => by simp, rfl⟩
  | setMaskRx =>
    dsimp only
    split
    · exact ⟨fun _ => rfl, rfl⟩
    · exact ⟨fun _ => pend_setMask, rfl⟩
  | setMaskTx =>
    dsimp only
    split
    · exact ⟨fun _ => rfl, rfl⟩
    · exact ⟨fun _ => pend_setMask, rfl⟩
  | _ => dsimp only; (try split) <;> exact ⟨fun _ => rfl, rfl⟩

theorem comps_txEngine {e : TxEngine} {st : TxStep} (h : ¬e.comps.length < (e.step depth cap st).comps.length) :
    (e.step depth cap st).comps = e.comps :=
  (List.IsPrefix.eq_of_length_le (Engine.Progress.step depth cap e st).comps (Nat.le_of_not_lt h)).symm

theorem PostingSeen.step (h : PostingSeen k s) (hctl : Ctl s) (htx : TxOk k cap s) (a : PollAct) :
    PostingSeen k (s.step k cap budget a) := by
  cases a with
  | isr side =>
    simp only [PollSys.step, PollSys.isrStep]
    split
    · split
      · exact h
      · exact h.setLine fun hside hpend => hside ▸ hpend
    · next hisr =>
      cases side with
      | tx => exact postingSeen_of_idle (hctl.handler hisr).2
      | rx => exact h.setLine fun hside => by cases hside
    · exact PostingSeen.congr (h.setLine fun hside hpend => hside ▸ hpend) rfl rfl rfl rfl
  | poll =>
    obtain ⟨hline, hxmit, -, htx⟩ := pollStep_frame k cap budget s
    cases hlocked : s.poll.locked with
    | true => exact postingSeen_of_idle (hxmit.trans (hctl.poll hlocked))
    | false =>
      have htx := htx hlocked
      exact h.congr (congrArg (fun l => (l Side.tx).pend) hline) (congrArg _ hxmit) (congrArg (·.eng.comps) htx)
        (congrArg _ htx)
  | setIntmask =>
    simp only [PollSys.step, PollSys.setIntmask]
    split
    · exact h
    · exact h.congr (by simp) rfl rfl rfl
  | startXmit skb => exact h.startXmit htx skb
  | xmit => exact h.xmitStep htx
  | proc =>
    obtain ⟨hpend, hxmit⟩ := procStep_frame k cap s
    obtain ⟨heng, hcq⟩ := txData_step (s := s) (a := .proc) k cap budget (by simp) (by simp) (by simp)
    exact h.congr (hpend .tx) (congrArg _ hxmit) (congrArg _ heng) hcq
  | txEngine st =>
    by_cases hlog : s.tx.eng.comps.length < (s.tx.eng.step depth cap st).comps.length
    · refine .inl ?_
      rw [PollSys.step, PollSys.txEngine, PollSys.signal, line_setLine_self, decide_eq_true hlog, Bool.or_true]
    · refine PostingSeen.setLine (h.congr rfl rfl (comps_txEngine hlog) rfl) fun _ hpend => ?_
      rw [hpend, Bool.true_or]
  | rxEngine st => exact PostingSeen.setLine (h.congr rfl rfl rfl rfl) fun hside => by cases hside

theorem xmitStep_of_idle (h : s.xmit = .idle) : s.xmitStep k cap = s := by
  rw [PollSys.xmitStep, h]

theorem releasable_push {skb : Skb} (htx : TxOk k cap s) (hcap : cap ≤ 127) (hpost : PostingSeen k s)
    (hx : s.xmit = .posting skb []) (hpend : (s.line .tx).pend = false) (hnone : releasable s.tx = none) :
    releasable { s.tx with sendCq := s.tx.sendCq.push skb } = none := by
  refine releasable_eq_none_iff.mpr fun first q hq => ?_
  rw [show ({ s.tx with sendCq := s.tx.sendCq.push skb } : Tx).sendCq.contents = s.tx.sendCq.contents ++ [skb] from
    SkBuffCq.contents_push skb (htx.ring_free hcap hx)] at hq
  show s.tx.eng.comps.length < _
  cases hcs : s.tx.sendCq.contents with
  | nil =>
    rcases hpost with hp | hskbs | hle
    · simp [hpend] at hp
    · simp [hx, XmitPc.skbs] at hskbs
    · rw [hcs, descs_nil, List.length_nil] at hle
      have : 0 < first.nsegments := Nat.succ_pos _
      omega
  | cons skb' q' =>
    rw [hcs, List.cons_append] at hq
    obtain ⟨rfl, -⟩ := List.cons.inj hq
    exact releasable_eq_none_iff.mp hnone _ _ hcs

theorem TxSeen.xmitStep (h : TxSeen s) (hctl : Ctl s) (htx : TxOk k cap s) (hcap : cap ≤ 127)
    (hpost : PostingSeen k s) :
    TxSeen (s.xmitStep k cap) := by
  have hpoll : (s.xmitStep k cap).poll = s.poll := poll_step (a := .xmit) k cap 0 (by simp)
  have kept : ∀ {t : PollSys}, releasable t.tx = none → t.TxSeen := fun hnone => .inr (.inr (.inr hnone))
  rcases h with halert | hstart | ⟨n, hp, hle⟩ | hnone
  · rcases halert.step k cap 0 hctl .xmit with halert | hstart
    · exact .inl halert
    · exact .inr (.inl hstart)
  · exact .inr (.inl (hpoll.trans hstart))
  · rw [xmitStep_of_idle (hctl.poll (by rw [hp]; rfl))]
    exact .inr (.inr (.inl ⟨n, hp, hle⟩))
  · unfold PollSys.xmitStep
    cases hx : s.xmit with
    | idle => exact kept hnone
    | posting skb rest =>
      cases rest with
      | cons d rest => exact kept ((releasable_congr (comps_writeReq htx.script d) rfl).trans hnone)
      | nil =>
        cases hpend : (s.line .tx).pend with
        | true => exact .inl (.inr (.inl hpend))
        | false => exact kept ((releasable_congr rfl rfl).trans (releasable_push htx hcap hpost hx hpend hnone))
    | threshold =>
      dsimp only
      split
      · exact .inl alert_schedule
      · exact kept hnone
    | space =>
      dsimp only
      split
      · exact kept hnone
      · exact .inl alert_schedule

theorem TxSeen.step (h : TxSeen s) (hctl : Ctl s) (htx : TxOk k cap s) (hcap : cap ≤ 127) (hpost : PostingSeen k s)
    (a : PollAct) : TxSeen (s.step k cap budget a) := by
  rcases Decidable.em (a = .poll) with rfl | ha
  · exact h.pollStep hctl htx
  rcases Decidable.em (a = .xmit) with rfl | hxmit
  · exact h.xmitStep hctl htx hcap hpost
  have hpoll := poll_step (s := s) k cap budget ha
  rcases h with halert | hseen
  · rcases halert.step k cap budget hctl a with halert | hstart
    · exact .inl halert
    · exact .inr (.inl hstart)
  have kept : ∀ {t : PollSys}, t.poll = s.poll → t.tx.eng.comps = s.tx.eng.comps → t.tx.sendCq = s.tx.sendCq →
      t.TxSeen :=
    fun hp hcomps hcq => .inr (by rw [hp, hcomps, releasable_congr hcomps hcq]; exact hseen)
  rcases Classical.em (∃ st, a = .txEngine st) with ⟨st, rfl⟩ | heng
  · by_cases hlog : s.tx.eng.comps.length < (s.tx.eng.step depth cap st).comps.length
    · exact .inl (pend_signal (decide_eq_true hlog))
    · exact kept hpoll (comps_txEngine hlog) rfl
  · obtain ⟨heng, hcq⟩ := txData_step (s := s) k cap budget ha hxmit fun st h => heng ⟨st, h⟩
    exact kept hpoll (congrArg _ heng) hcq

end PollSys

/-! ### The transmit queue -/

def PollPc.sending : PollPc → Bool
  | .start | .sendLoop _ | .wakeQueue => true
  | _ => false

def ProcPc.queueOn : ProcPc → Bool
  | .setMaskRx | .setMaskTx | .opened => true
  | _ => false

namespace PollSys

variable {k : Kernel} {cap budget : Nat} {s : PollSys} {side : Side}

/-- A stopped transmit queue will be tested again by a poll, or the engine still has descriptors to complete. -/
def StopSeen (s : PollSys) : Prop :=
  s.tx.stopped = true → s.proc.queueOn = true →
    s.Alert .tx ∨ s.poll.sending = true ∨ 0 < s.tx.eng.queued.length + s.tx.eng.inflight.length

theorem stopSeen_init : init.StopSeen := fun h => by simp [init, Nic.init] at h

theorem TxOk.busy_of_not_space (h : TxOk k cap s) {n : Nat} (hn : n ≤ 64) (hspace : s.tx.sendSpace n ≠ true) :
    0 < s.tx.eng.queued.length + s.tx.eng.inflight.length := by
  rw [Ne, Tx.sendSpace_iff h.bounded.queued] at hspace
  omega

theorem StopSeen.pollStep (h : StopSeen s) (hctl : Ctl s) (htx : TxOk k cap s) (hfrags : k.maxSkbFrags < 64) :
    StopSeen (s.pollStep k cap budget) := by
  obtain ⟨-, -, hproc, hkept⟩ := pollStep_frame k cap budget s
  -- Past its test of the queue, the poll leaves TX alone.
  have past : s.poll.sending = false → StopSeen (s.pollStep k cap budget) := fun hsending hstop hqueue => by
    have hlocked : s.poll.locked = false := by
      revert hsending
      cases s.poll <;> simp [PollPc.sending, PollPc.locked]
    rw [hproc] at hqueue
    rw [hkept hlocked] at hstop ⊢
    rcases h hstop hqueue with halert | hsend | hbusy
    · rcases halert.pollStep k cap budget hctl with halert | hstart
      · exact .inl halert
      · exact .inr (.inl (by rw [hstart]; rfl))
    · simp [hsending] at hsend
    · exact .inr (.inr hbusy)
  cases hp : s.poll with
  | start =>
    simp only [PollSys.pollStep, hp]
    split
    · exact h
    · exact fun _ _ => .inr (.inl rfl)
  | sendLoop n =>
    simp only [PollSys.pollStep, hp]
    split <;> exact fun _ _ => .inr (.inl rfl)
  | wakeQueue =>
    simp only [PollSys.pollStep, hp]
    intro hstop _
    simp only [Bool.and_eq_true, Bool.not_eq_true'] at hstop
    exact .inr (.inr (htx.busy_of_not_space (Nat.le_of_lt hfrags) (by simp [hstop.2])))
  | _ => exact past (by rw [hp]; rfl)

theorem StopSeen.startXmit (h : StopSeen s) (htx : TxOk k cap s) {skb : Skb} (hskb : skb.nrFrags < 64) :
    StopSeen (s.startXmit k skb) := by
  unfold PollSys.startXmit
  split
  · exact h
  · split
    · next hspace => exact fun _ _ => .inr (.inr (htx.busy_of_not_space hskb (by simpa using hspace)))
    · exact h

theorem StopSeen.mono {t : PollSys} (h : StopSeen s) (hstop : t.tx.stopped = true → s.tx.stopped = true)
    (hqueue : t.proc.queueOn = true → s.proc.queueOn = true) (halert : s.Alert .tx → t.Alert .tx)
    (hpoll : t.poll = s.poll)
    (hbusy : 0 < s.tx.eng.queued.length + s.tx.eng.inflight.length →
      0 < t.tx.eng.queued.length + t.tx.eng.inflight.length) : StopSeen t := by
  intro hs hq
  rcases h (hstop hs) (hqueue hq) with ha | hp | hb
  · exact .inl (halert ha)
  · exact .inr (.inl (hpoll ▸ hp))
  · exact .inr (.inr (hbusy hb))

theorem StopSeen.xmitStep (h : StopSeen s) (htx : TxOk k cap s) : StopSeen (s.xmitStep k cap) := by
  unfold PollSys.xmitStep
  cases hx : s.xmit with
  | idle => exact h
  | posting skb rest =>
    cases rest with
    | nil => exact h.mono id id (Alert.congr · rfl rfl rfl rfl id) rfl id
    | cons d rest =>
      refine h.mono id id (Alert.congr · rfl rfl rfl rfl id) rfl fun hbusy => ?_
      simp only [Tx.writeReq, Tx.tick, htx.script, List.headD_nil, List.foldl_nil, Engine.request]
      split
      · simp only [List.length_append, List.length_singleton]
        omega
      · exact hbusy
  | threshold =>
    dsimp only
    split
    · exact fun _ _ => .inl alert_schedule
    · exact h.mono id id (Alert.congr · rfl rfl rfl rfl id) rfl id
  | space =>
    dsimp only
    split
    · exact h.mono id id (Alert.congr · rfl rfl rfl rfl id) rfl id
    · exact fun _ _ => .inl alert_schedule

theorem StopSeen.procStep (h : StopSeen s) : StopSeen (s.procStep k cap) := by
  -- Most statements run while the queue is off; `netif_start_queue` starts it.
  have off : ∀ {t : PollSys}, t.proc.queueOn = false → t.StopSeen := fun ht _ hq => by simp [ht] at hq
  unfold PollSys.procStep
  cases hp : s.proc with
  | allocLoop i => cases i <;> exact off rfl
  | startQueue => exact fun hstop => by cases hstop
  | setMaskRx =>
    dsimp only
    split
    · exact h
    · exact h.mono id (fun _ => by rw [hp]; rfl) (fun ha => ha.setMask.congr rfl rfl rfl rfl id) rfl id
  | setMaskTx =>
    dsimp only
    split
    · exact h
    · exact h.mono id (fun _ => by rw [hp]; rfl) (fun ha => ha.setMask.congr rfl rfl rfl rfl id) rfl id
  | opened =>
    dsimp only
    split
    · exact off rfl
    · exact h
  | disabling =>
    dsimp only
    split
    · exact h
    · exact off rfl
  | _ => exact off rfl

theorem StopSeen.txEngine (h : StopSeen s) (st : TxStep) : StopSeen (s.txEngine cap st) := by
  by_cases hlog : s.tx.eng.comps.length < (s.tx.eng.step depth cap st).comps.length
  · exact fun _ _ => .inl (pend_signal (decide_eq_true hlog))
  · refine h.mono id id (fun ha => Alert.signal (ha.congr rfl rfl rfl rfl id)) rfl fun hbusy => ?_
    have hout := congrArg List.length (Engine.Progress.step depth cap s.tx.eng st).outstanding
    rw [Engine.length_outstanding, Engine.length_outstanding, comps_txEngine hlog] at hout
    show 0 < (s.tx.eng.step depth cap st).queued.length + (s.tx.eng.step depth cap st).inflight.length
    omega

theorem StopSeen.step (h : StopSeen s) (hctl : Ctl s) (htx : TxOk k cap s) (hfrags : k.maxSkbFrags < 64) {a : PollAct}
    (hskb : ∀ skb, a = .startXmit skb → skb.nrFrags ≤ k.maxSkbFrags) : StopSeen (s.step k cap budget a) := by
  cases a with
  | isr side =>
    have halert : s.Alert .tx → (s.isrStep side).Alert .tx := Alert.isrStep
    revert halert
    simp only [PollSys.step, PollSys.isrStep]
    split
    · split <;> exact fun halert => h.mono id id halert rfl id
    · exact fun halert => h.mono id id halert rfl id
    · exact fun halert => h.mono id id halert rfl id
  | poll => exact h.pollStep hctl htx hfrags
  | setIntmask =>
    simp only [PollSys.step, PollSys.setIntmask]
    split
    · exact h
    · exact h.mono id id (fun ha => ha.setMask.setMask.congr rfl rfl rfl rfl id) rfl id
  | startXmit skb => exact h.startXmit htx (Nat.lt_of_le_of_lt (hskb skb rfl) hfrags)
  | xmit => exact h.xmitStep htx
  | proc => exact h.procStep
  | txEngine st => exact h.txEngine st
  | rxEngine st => exact h.mono id id (fun ha => Alert.signal (ha.congr rfl rfl rfl rfl id)) rfl id

/-! ### Runs -/

structure Inv (k : Kernel) (cap budget : Nat) (s : PollSys) : Prop where
  ctl : Ctl s
  unmasks : Unmasks s
  txOk : TxOk k cap s
  rxOk : RxOk cap s
  rxSeen : RxSeen budget s
  txSeen : TxSeen s
  posting : PostingSeen k s
  stopSeen : StopSeen s

theorem inv_init : init.Inv k cap budget :=
  ⟨ctl_init, unmasks_init, txOk_init, ⟨rfl, Engine.bounded_init⟩, rxSeen_init, txSeen_init,
    postingSeen_of_idle rfl, stopSeen_init⟩

/-- The stack hands over buffers with at most `MAX_SKB_FRAGS` fragments. -/
def Fits (k : Kernel) (a : PollAct) : Prop := ∀ skb, a = .startXmit skb → skb.nrFrags ≤ k.maxSkbFrags

theorem Inv.step (hcap : cap ≤ 127) (hfrags : k.maxSkbFrags < 64) (h : Inv k cap budget s) {a : PollAct}
    (ha : Fits k a) :
    Inv k cap budget (s.step k cap budget a) where
  ctl := h.ctl.step a
  unmasks := h.unmasks.step h.ctl a
  txOk := h.txOk.step h.ctl hcap a
  rxOk := h.rxOk.step a
  rxSeen := h.rxSeen.step h.ctl h.rxOk a
  txSeen := h.txSeen.step h.ctl h.txOk hcap h.posting a
  posting := h.posting.step h.ctl h.txOk a
  stopSeen := h.stopSeen.step h.ctl h.txOk hfrags ha

theorem inv_always {acts : List PollAct} (hcap : cap ≤ 127) (hfrags : k.maxSkbFrags < 64)
    (hacts : ∀ skb, .startXmit skb ∈ acts → skb.nrFrags ≤ k.maxSkbFrags) :
    Run.Always (PollSys.step k cap budget) init acts (Inv k cap budget) := by
  refine Run.always_of_guarded (c := fun _ a => Fits k a) inv_init (fun s a h ha => h.step hcap hfrags ha)
    fun pre a hpre skb ha => hacts skb ?_
  subst ha
  exact hpre.subset (by simp)

/-- No received frame waits, no buffer that could be released is kept, and if the TX engine has completed
    everything, no buffer is kept at all and the transmit queue runs. -/
structure Served (s : PollSys) : Prop where
  rx : s.rx.eng.comps = []
  tx : releasable s.tx = none
  drained : s.tx.eng.queued = [] → s.tx.eng.inflight = [] → s.tx.sendCq.contents = [] ∧ s.tx.stopped = false

theorem Quiescent.not_alert (hq : s.Quiescent) (h : Unmasks s) (hlost : s.lost = false) : ¬s.Alert side := by
  have hmask : (s.line side).mask = true := by
    rcases h side (by rw [hq.opened]; rfl) with hm | hi | hl | hp | ht
    · exact hm
    · exact absurd (hq.isr side) hi
    · simp [hq.listed] at hl
    · exact absurd hq.poll hp
    · simp [hq.tails] at ht
  rintro (hl | hp | hc | hl | ⟨-, hp⟩)
  · simp [hlost] at hl
  · exact hq.line side ⟨hp, hmask⟩
  · simp [hq.isr side] at hc
  · simp [hq.listed] at hl
  · exact hp hq.poll

theorem Inv.served (h : Inv k cap budget s) (hq : s.Quiescent) (hlost : s.lost = false) : s.Served := by
  have halert : ∀ side, ¬s.Alert side := fun side => hq.not_alert h.unmasks hlost
  have hnone : releasable s.tx = none := by
    rcases h.txSeen with ha | hp | ⟨n, hp, -⟩ | hnone
    · exact absurd ha (halert .tx)
    · simp [hq.poll] at hp
    · simp [hq.poll] at hp
    · exact hnone
  refine ⟨?_, hnone, fun hqueued hinflight => ⟨?_, ?_⟩⟩
  · have hle := (h.rxSeen.resolve_left (halert .rx)) 0 (by rw [hq.poll]; rfl)
    exact List.eq_nil_of_length_eq_zero (Nat.le_zero.mp hle)
  · -- All descriptors are completed, so the oldest buffer could be released.
    have hout := congrArg List.length (h.txOk.outstanding_of_idle hq.xmit)
    rw [Engine.length_outstanding, hqueued, hinflight] at hout
    cases hcs : s.tx.sendCq.contents with
    | nil => rfl
    | cons skb q =>
      have := releasable_eq_none_iff.mp hnone skb q hcs
      rw [hcs, descs_cons, List.length_append, length_sendDescs] at hout
      simp only [List.length_nil] at hout
      omega
  · by_contra hstop
    rcases h.stopSeen (by simpa using hstop) (by rw [hq.opened]; rfl) with ha | hp | hbusy
    · exact halert .tx ha
    · simp [hq.poll, PollPc.sending] at hp
    · simp [hqueued, hinflight] at hbusy

end PollSys

def openReceive : List PollAct := List.replicate 70 .proc ++ [.rxEngine .take, .rxEngine (.complete 60)]

def serveFrame : List PollAct := List.replicate 3 (.isr .rx) ++ List.replicate 11 .poll ++ [.setIntmask]

end FireMarshal.Accnet
