import FireMarshal.Theorems.Accnet.Napi

/-! The driver comes to rest. While the device stays open, the engines are quiet and the stack hands over nothing
    new, every step of a handler, the poll or a transmission uses up some of the work that is left (`work`), and as
    long as something is under way one of them can take a step. So the driver stops, and then it has served
    everything. -/

namespace FireMarshal.Accnet

/-- More than the steps of one poll: each engine has at most 64 completions, and at most 64 buffers are posted. -/
def pollCost : Nat := 202

def PollPc.cost (budget : Nat) : PollPc → Nat
  | .idle => 0
  | .start => 201
  | .sendLoop n => n + 136
  | .wakeQueue => 135
  | .recvStart => 134
  | .recvLoop n i => i + 69 + if n < budget then 0 else pollCost
  | .allocStart n => 68 + if n < budget then 0 else pollCost
  | .allocLoop n i => i + 3 + if n < budget then 0 else pollCost
  | .finish n => 2 + if n < budget then 0 else pollCost

def PollPc.taken : PollPc → Nat
  | .recvLoop _ i => i
  | _ => 0

def Line.cost (l : Line) : Nat :=
  match l.isr with
  | .idle => if l.pend then 3 + pollCost else 0
  | .masked => 2 + pollCost
  | .cleared => 1 + pollCost + if l.pend then 3 + pollCost else 0

def XmitPc.cost : XmitPc → Nat
  | .idle => 0
  | .posting _ rest => rest.length + (3 + 2 * pollCost)
  | .threshold => 2 + 2 * pollCost
  | .space => 1 + pollCost

def Napi.cost (n : Napi) : Nat := (if n.listed then pollCost else 0) + if n.missed then pollCost else 0

theorem Napi.cost_schedule (n : Napi) : n.schedule.cost ≤ n.cost + pollCost := by
  rcases n with ⟨sched, missed, disable, listed⟩
  cases sched <;> cases missed <;> cases disable <;> cases listed <;> decide

theorem Napi.cost_completeDone (n : Napi) : n.completeDone.cost ≤ n.cost := by
  rcases n with ⟨sched, missed, disable, listed⟩
  cases sched <;> cases missed <;> cases disable <;> cases listed <;> decide

namespace PollSys

variable {k : Kernel} {cap budget : Nat} {s : PollSys} {side : Side}

/-- The work that is left. A completion of RX that no poll has counted may take a poll of its own. -/
def work (budget : Nat) (s : PollSys) : Nat :=
  s.poll.cost budget + pollCost * (s.rx.eng.comps.length - s.poll.taken) + s.napi.cost + (s.line .tx).cost +
    (s.line .rx).cost + s.xmit.cost + s.tails

/-- The driver can take this step on its own: a handler starts only if its interrupt is raised, and nobody spins on
    `tx_lock`. -/
def Due (s : PollSys) : PollAct → Prop
  | .isr side =>
    (s.line side).isr ≠ .idle ∨
      (s.line side).pend = true ∧ (s.line side).mask = true ∧ (side = .tx → s.txLocked = false)
  | .poll => s.napi.listed = true ∨ s.poll ≠ .idle ∧ (s.poll = .start → s.txLocked = false)
  | .setIntmask => 0 < s.tails
  | .xmit => s.xmit ≠ .idle
  | _ => False

instance (s : PollSys) : (a : PollAct) → Decidable (s.Due a)
  | .isr side => inferInstanceAs (Decidable ((s.line side).isr ≠ .idle ∨
      (s.line side).pend = true ∧ (s.line side).mask = true ∧ (side = .tx → s.txLocked = false)))
  | .poll => inferInstanceAs (Decidable (s.napi.listed = true ∨
      s.poll ≠ .idle ∧ (s.poll = .start → s.txLocked = false)))
  | .setIntmask => inferInstanceAs (Decidable (0 < s.tails))
  | .xmit => inferInstanceAs (Decidable (s.xmit ≠ .idle))
  | .startXmit _ | .proc | .txEngine _ | .rxEngine _ => inferInstanceAs (Decidable False)

theorem quiescent_of_not_due (hopen : s.proc = .opened) (hrest : ∀ a, ¬s.Due a) : s.Quiescent := by
  have hisr : ∀ side, (s.line side).isr = .idle := fun side => by
    by_contra hne
    exact hrest (.isr side) (.inl hne)
  have hxmit : s.xmit = .idle := by
    by_contra hne
    exact hrest .xmit hne
  have hpoll : s.poll = .idle := by
    by_contra hne
    refine hrest .poll (.inr ⟨hne, fun hstart => ?_⟩)
    exact not_txLocked_iff.mpr ⟨by rw [hstart]; rfl, hxmit, by simp [hisr]⟩
  have hfree : s.txLocked = false := not_txLocked_iff.mpr ⟨by rw [hpoll]; rfl, hxmit, by simp [hisr]⟩
  exact
    { isr := hisr
      line := fun side hraised => hrest (.isr side) (.inr ⟨hraised.1, hraised.2, fun _ => hfree⟩)
      listed := Bool.eq_false_iff.mpr fun hl => hrest .poll (.inl hl)
      poll := hpoll
      tails := Nat.eq_zero_of_not_pos fun ht => hrest .setIntmask ht
      xmit := hxmit
      opened := hopen }

theorem work_schedule (budget : Nat) (s : PollSys) : s.schedule.work budget ≤ s.work budget + pollCost := by
  have hnapi := s.napi.cost_schedule
  simp only [work, PollSys.schedule]
  omega

theorem work_setLine (budget : Nat) (s : PollSys) (side : Side) (l : Line) :
    (s.setLine side l).work budget + (s.line side).cost = s.work budget + l.cost := by
  cases side with
  | tx =>
    have hrx : (s.setLine .tx l).line .rx = s.line .rx := line_setLine_of_ne (by decide) l
    simp only [work, line_setLine_self, hrx]
    simp only [setLine]
    omega
  | rx =>
    have htx : (s.setLine .rx l).line .tx = s.line .tx := line_setLine_of_ne (by decide) l
    simp only [work, line_setLine_self, htx]
    simp only [setLine]
    omega

theorem work_isrStep (hdue : s.Due (.isr side)) : (s.isrStep side).work budget < s.work budget := by
  unfold PollSys.isrStep
  cases hisr : (s.line side).isr with
  | idle =>
    rcases hdue with hne | ⟨hpend, -, hfree⟩
    · exact absurd hisr hne
    · have hlocked : ¬(side = .tx ∧ s.txLocked = true) := fun hl => by simp [hfree hl.1] at hl
      have hold : (s.line side).cost = 3 + pollCost := by simp [Line.cost, hisr, hpend]
      have hset := work_setLine budget s side ⟨(s.line side).pend, false, .masked⟩
      rw [hold, show Line.cost ⟨(s.line side).pend, false, .masked⟩ = 2 + pollCost from rfl] at hset
      simp only [hlocked, if_false]
      omega
  | masked =>
    have hold : (s.line side).cost = 2 + pollCost := by simp [Line.cost, hisr]
    have hset := work_setLine budget s side ⟨false, (s.line side).mask, .cleared⟩
    rw [hold, show Line.cost ⟨false, (s.line side).mask, .cleared⟩ = 1 + pollCost from rfl] at hset
    dsimp only
    omega
  | cleared =>
    have hold : (s.line side).cost = 1 + pollCost + Line.cost ⟨(s.line side).pend, (s.line side).mask, .idle⟩ := by
      simp [Line.cost, hisr]
    have hset := work_setLine budget s side ⟨(s.line side).pend, (s.line side).mask, .idle⟩
    have hsched := work_schedule budget (s.setLine side ⟨(s.line side).pend, (s.line side).mask, .idle⟩)
    dsimp only
    omega

theorem work_setIntmask (hdue : s.Due .setIntmask) : s.setIntmask.work budget < s.work budget := by
  have hpos : s.tails ≠ 0 := Nat.ne_of_gt hdue
  have hmask : ∀ (s : PollSys) (side : Side), (s.setMask side true).work budget = s.work budget := fun s side =>
    Nat.add_right_cancel (work_setLine budget s side { s.line side with mask := true })
  have htx := hmask s .tx
  have hrx := hmask (s.setMask .tx true) .rx
  rw [PollSys.setIntmask, if_neg hpos]
  have htails : ({ (s.setMask .tx true).setMask .rx true with tails := s.tails - 1 } : PollSys).work budget + s.tails =
      ((s.setMask .tx true).setMask .rx true).work budget + (s.tails - 1) := by
    simp only [work]
    show _ + s.tails = _ + s.tails + (s.tails - 1)
    omega
  omega

theorem work_xmitStep (hdue : s.Due .xmit) : (s.xmitStep k cap).work budget < s.work budget := by
  unfold PollSys.xmitStep
  cases hx : s.xmit with
  | idle => exact absurd hx hdue
  | posting skb rest =>
    cases rest with
    | nil =>
      simp only [work, hx, XmitPc.cost, List.length_nil]
      omega
    | cons d rest =>
      simp only [work, hx, XmitPc.cost, List.length_cons]
      omega
  | threshold =>
    have hsched := work_schedule budget { s with xmit := .space }
    have hnext : ({ s with xmit := .space } : PollSys).work budget + (1 + pollCost) = s.work budget := by
      simp only [work, hx, XmitPc.cost]
      omega
    dsimp only
    split <;> omega
  | space =>
    have hsched := work_schedule budget { s with tx := { s.tx with stopped := true }, xmit := .idle }
    have hnext : ∀ tx, ({ s with tx := tx, xmit := .idle } : PollSys).work budget + (1 + pollCost) = s.work budget := by
      intro tx
      simp only [work, hx, XmitPc.cost]
      omega
    have htest := hnext s.tx
    have hstop := hnext { s.tx with stopped := true }
    dsimp only at hsched hstop ⊢
    split <;> omega

theorem work_pollStep (h : Inv k cap budget s) (hbudget : 0 < budget) (hopen : s.proc = .opened) (hdue : s.Due .poll) :
    (s.pollStep k cap budget).work budget < s.work budget := by
  have htxc := h.txOk.bounded.comps
  have hrxc := h.rxOk.bounded.comps
  have hrxq := h.rxOk.bounded.queued
  simp only [depth] at htxc hrxc hrxq
  unfold PollSys.pollStep
  cases hp : s.poll with
  | idle =>
    have hlisted : s.napi.listed = true := hdue.resolve_right fun hne => hne.1 hp
    simp only [hlisted, if_true, work, hp, PollPc.cost, PollPc.taken, Napi.cost]
    simp [pollCost]
    omega
  | start =>
    have hfree : s.txLocked = false := by
      rcases hdue with hl | ⟨-, hfree⟩
      · simp [h.ctl.listed hl] at hp
      · exact hfree hp
    have hn := Tx.sendCompAvail_eq htxc
    simp only [hfree, Bool.false_eq_true, if_false, work, hp, PollPc.cost, PollPc.taken]
    omega
  | sendLoop n =>
    have hidle := h.ctl.poll (by rw [hp]; rfl)
    dsimp only
    split
    · simp only [work, hp, PollPc.cost, PollPc.taken]
      omega
    · next n' tx hround =>
      obtain ⟨skb, q, -, hfit, rfl, -⟩ := h.txOk.sendRound_some hidle (h.txOk.counted n hp) hround
      have : 0 < skb.nsegments := Nat.succ_pos _
      simp only [work, hp, PollPc.cost, PollPc.taken]
      omega
  | wakeQueue =>
    simp only [work, hp, PollPc.cost, PollPc.taken]
    omega
  | recvStart =>
    have havail : s.rx.recvCompAvail.toNat = s.rx.eng.comps.length := by
      simp only [Rx.recvCompAvail]
      omega
    simp only [work, hp, PollPc.cost, PollPc.taken, havail, pollCost]
    split <;> omega
  | recvLoop n i =>
    cases i with
    | zero =>
      simp only [work, hp, PollPc.cost, PollPc.taken]
      omega
    | succ i =>
      simp only [work, hp, PollPc.cost, PollPc.taken, (completeRecvLoop_one cap h.rxOk.script).1, Engine.read,
        List.length_tail, pollCost]
      omega
  | allocStart n =>
    have hleft : s.rx.recvReqAvail.toNat ≤ 64 := by
      simp only [Rx.recvReqAvail]
      omega
    simp only [work, hp, PollPc.cost, PollPc.taken]
    omega
  | allocLoop n i =>
    cases i with
    | zero =>
      simp only [work, hp, PollPc.cost, PollPc.taken]
      omega
    | succ i =>
      simp only [work, hp, PollPc.cost, PollPc.taken, (allocRecvLoop_one k cap h.rxOk.script).1]
      omega
  | finish n =>
    have hlisted : s.napi.listed = false := Bool.eq_false_iff.mpr fun hl => by simp [h.ctl.listed hl] at hp
    have hdisable : s.napi.disable ≠ true := fun hd => by simp [h.ctl.disable.mp hd] at hopen
    have hdone := s.napi.cost_completeDone
    dsimp only
    split
    · next hlt =>
      simp only [work, hp, PollPc.cost, PollPc.taken, if_pos hlt]
      omega
    · next hlt =>
      simp only [work, hp, PollPc.cost, PollPc.taken, if_neg hlt, Napi.cost, hlisted, Bool.false_eq_true, if_false,
        if_true]
      omega

theorem work_of_due (h : Inv k cap budget s) (hbudget : 0 < budget) (hopen : s.proc = .opened) {a : PollAct}
    (hdue : s.Due a) : (s.step k cap budget a).work budget < s.work budget := by
  cases a with
  | isr side => exact work_isrStep hdue
  | poll => exact work_pollStep h hbudget hopen hdue
  | setIntmask => exact work_setIntmask hdue
  | xmit => exact work_xmitStep hdue
  | startXmit skb => exact hdue.elim
  | proc => exact hdue.elim
  | txEngine st => exact hdue.elim
  | rxEngine st => exact hdue.elim

theorem Inv.length_le_work (hcap : cap ≤ 127) (hfrags : k.maxSkbFrags < 64) (hbudget : 0 < budget) {ds : List PollAct}
    (h : Inv k cap budget s) (hopen : s.proc = .opened) (hdue : Run.Guarded (PollSys.step k cap budget) s ds Due) :
    ds.length + (ds.foldl (PollSys.step k cap budget) s).work budget ≤ s.work budget ∧
      Inv k cap budget (ds.foldl (PollSys.step k cap budget) s) ∧
      (ds.foldl (PollSys.step k cap budget) s).proc = .opened := by
  refine Run.length_le_of_guarded (fun s => Inv k cap budget s ∧ s.proc = .opened) ⟨h, hopen⟩
    (fun s a h ha => ?_) hdue
  have hfits : Fits k a := fun skb heq => by subst heq; exact ha.elim
  have hproc : a ≠ .proc := fun heq => by subst heq; exact ha.elim
  exact ⟨⟨h.1.step hcap hfrags hfits, (proc_step hproc).trans h.2⟩, work_of_due h.1 hbudget h.2 ha⟩

end PollSys

end FireMarshal.Accnet
