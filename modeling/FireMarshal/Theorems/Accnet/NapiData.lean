import FireMarshal.Theorems.Accnet.NapiCtl
import FireMarshal.Theorems.Accnet.Tx

/-! The buffers and descriptors while the poll, a transmission and the engines take their steps: the invariant of
    the driver functions, with the descriptors that a transmission has written for a buffer it has yet to push. -/

namespace FireMarshal.Accnet

/-! ### Transmissions -/

def XmitPc.rest : XmitPc → List Desc
  | .posting _ rest => rest
  | _ => []

def XmitPc.skbs : XmitPc → List Skb
  | .posting skb _ => [skb]
  | _ => []

namespace PollSys

variable {k : Kernel} {cap budget : Nat} {s : PollSys} {side : Side}

/-- The engine holds the descriptors of the buffers in `send_cq` and those that a transmission has written for the
    buffer it will push; the poll counts completions that are there. -/
structure TxOk (k : Kernel) (cap : Nat) (s : PollSys) : Prop where
  script : s.tx.script = []
  outstanding : s.tx.eng.outstanding ++ s.xmit.rest = descs k (s.tx.sendCq.contents ++ s.xmit.skbs)
  bounded : s.tx.eng.Bounded depth cap
  room : s.tx.eng.queued.length + s.xmit.rest.length ≤ 64
  counted : ∀ n, s.poll = .sendLoop n → n ≤ s.tx.eng.comps.length

theorem txOk_init : init.TxOk k cap :=
  ⟨rfl, by simp [init, Nic.init, XmitPc.rest, XmitPc.skbs], Engine.bounded_init,
    by simp [init, Nic.init, Engine.init, XmitPc.rest],
    by simp [init]⟩

theorem TxOk.congr {t : PollSys} (h : TxOk k cap s) (heng : t.tx.eng = s.tx.eng) (hcq : t.tx.sendCq = s.tx.sendCq)
    (hscript : t.tx.script = s.tx.script) (hrest : t.xmit.rest = s.xmit.rest) (hskbs : t.xmit.skbs = s.xmit.skbs)
    (hpoll : ∀ n, t.poll = .sendLoop n → s.poll = .sendLoop n) : TxOk k cap t where
  script := hscript.trans h.script
  outstanding := by rw [heng, hcq, hrest, hskbs]; exact h.outstanding
  bounded := heng ▸ h.bounded
  room := by rw [heng, hrest]; exact h.room
  counted n hn := by rw [heng]; exact h.counted n (hpoll n hn)

theorem readComps_eq (cap : Nat) {t : Tx} (n : Nat) (h : t.script = []) :
    (t.readComps cap n).eng = { t.eng with comps := t.eng.comps.drop n } ∧ (t.readComps cap n).script = [] ∧
      (t.readComps cap n).sendCq = t.sendCq ∧ (t.readComps cap n).stopped = t.stopped := by
  induction n generalizing t with
  | zero => exact ⟨rfl, h, rfl, rfl⟩
  | succ n ih =>
    have hread : (t.readComp cap).eng = t.eng.read ∧ (t.readComp cap).script = [] := by
      simp [Tx.readComp, Tx.tick, h]
    obtain ⟨heng, hscript, hcq, hstopped⟩ := ih hread.2
    refine ⟨?_, hscript, hcq, hstopped⟩
    rw [Tx.readComps, heng, hread.1]
    simp [Engine.read]

theorem TxOk.outstanding_of_idle (h : TxOk k cap s) (hidle : s.xmit = .idle) :
    s.tx.eng.outstanding = descs k s.tx.sendCq.contents := by
  have := h.outstanding
  rw [hidle] at this
  simpa only [XmitPc.rest, XmitPc.skbs, List.append_nil] using this

theorem TxOk.front (h : TxOk k cap s) (hidle : s.xmit = .idle) {n : Nat} (hn : n ≤ s.tx.eng.comps.length)
    (hpos : 0 < n) :
    ∃ skb q, s.tx.sendCq.contents = skb :: q := by
  have hlen := congrArg List.length (h.outstanding_of_idle hidle)
  cases hq : s.tx.sendCq.contents with
  | cons skb q => exact ⟨skb, q, rfl⟩
  | nil =>
    rw [hq, descs_nil, List.length_nil, Engine.length_outstanding] at hlen
    omega

theorem sendRound_of_front {t : Tx} {skb : Skb} {q : List Skb} {n : Nat} (hq : t.sendCq.contents = skb :: q) :
    sendRound cap n t = if skb.nsegments ≤ n then
      some (n - skb.nsegments, { t.readComps cap skb.nsegments with
        sendCq := (t.readComps cap skb.nsegments).sendCq.pop.2
        consumed := (t.readComps cap skb.nsegments).consumed ++ (t.readComps cap skb.nsegments).sendCq.pop.1.toList })
    else none := by
  have hsegs : (t.sendCq.entries t.sendCq.tail).nrFrags + 1 = skb.nsegments := by
    rw [SkBuffCq.entries_tail hq, Skb.nsegments]
  have hpos : 0 < skb.nsegments := Nat.succ_pos _
  simp only [sendRound, hsegs]
  by_cases hfit : skb.nsegments ≤ n
  · rw [if_neg (by omega), if_pos hfit]
  · rw [if_pos (by omega), if_neg hfit]

theorem TxOk.sendRound_some (h : TxOk k cap s) (hidle : s.xmit = .idle) {n n' : Nat} {tx : Tx}
    (hn : n ≤ s.tx.eng.comps.length)
    (hround : sendRound cap n s.tx = some (n', tx)) :
    ∃ skb q, s.tx.sendCq.contents = skb :: q ∧ skb.nsegments ≤ n ∧ n' = n - skb.nsegments ∧
      tx.eng = { s.tx.eng with comps := s.tx.eng.comps.drop skb.nsegments } ∧ tx.sendCq.contents = q ∧
      tx.script = [] ∧ tx.stopped = s.tx.stopped := by
  have hpos : 0 < n := by
    by_contra h0
    obtain rfl : n = 0 := by omega
    simp [sendRound] at hround
  obtain ⟨skb, q, hq⟩ := h.front hidle hn hpos
  rw [sendRound_of_front hq] at hround
  split at hround
  · next hfit =>
    obtain ⟨heng, hscript, hcq, hstopped⟩ := readComps_eq cap skb.nsegments h.script
    obtain ⟨rfl, rfl⟩ := Prod.mk.inj (Option.some.inj hround)
    refine ⟨skb, q, hq, hfit, rfl, heng, ?_, hscript, hstopped⟩
    dsimp only
    rw [hcq]
    exact (SkBuffCq.pop_of_cons hq).2
  · cases hround

theorem TxOk.pollStep (h : TxOk k cap s) (hctl : Ctl s) : TxOk k cap (s.pollStep k cap budget) := by
  unfold PollSys.pollStep
  cases hp : s.poll with
  | idle =>
    dsimp only
    split
    · exact h.congr rfl rfl rfl rfl rfl (by simp)
    · exact h
  | start =>
    dsimp only
    split
    · exact h
    · exact ⟨h.script, h.outstanding, h.bounded, h.room, fun n hn => by
        rw [← PollPc.sendLoop.inj hn, Tx.sendCompAvail_eq h.bounded.comps]⟩
  | sendLoop n =>
    have hidle := hctl.poll (by rw [hp]; rfl)
    have hn := h.counted n hp
    dsimp only
    split
    · exact h.congr rfl rfl rfl rfl rfl (by simp)
    · next n' tx hround =>
      obtain ⟨skb, q, hq, hfit, rfl, heng, hcq, hscript, -⟩ := h.sendRound_some hidle hn hround
      have hout := h.outstanding_of_idle hidle
      have hroom := h.room
      refine ⟨hscript, ?_, ?_, ?_, fun n'' hn'' => ?_⟩
      · simp only [hidle, XmitPc.rest, XmitPc.skbs, List.append_nil, hcq, heng]
        rw [Engine.outstanding_drop (Nat.le_trans hfit hn), hout, hq, descs_cons,
          List.drop_left' (length_sendDescs k skb)]
      · simp only [heng]
        exact h.bounded.drop
      · simp only [heng]
        exact hroom
      · simp only [heng, List.length_drop, ← PollPc.sendLoop.inj hn'']
        omega
  | recvLoop n i => cases i <;> exact h.congr rfl rfl rfl rfl rfl (by simp)
  | allocLoop n i => cases i <;> exact h.congr rfl rfl rfl rfl rfl (by simp)
  | finish n =>
    dsimp only
    split
    · exact h.congr rfl rfl rfl rfl rfl (by simp)
    · split <;> exact h.congr rfl rfl rfl rfl rfl (by simp)
  | _ => exact h.congr rfl rfl rfl rfl rfl (by simp)

theorem TxOk.startXmit (h : TxOk k cap s) (skb : Skb) : TxOk k cap (s.startXmit k skb) := by
  unfold PollSys.startXmit
  split
  · exact h
  · next hguard =>
    simp only [not_or, Decidable.not_not, Bool.not_eq_true] at hguard
    obtain ⟨hunlocked, hidle, -⟩ := not_txLocked_iff.mp hguard.1
    split
    · exact h.congr rfl rfl rfl rfl rfl fun _ => id
    · next hspace =>
      have hroom := (Tx.sendSpace_iff h.bounded.queued).mp (by simpa using hspace)
      refine ⟨h.script, ?_, h.bounded, ?_, h.counted⟩
      · simp only [XmitPc.rest, XmitPc.skbs, descs_append, descs_cons, descs_nil, List.append_nil,
          h.outstanding_of_idle hidle]
      · simp only [XmitPc.rest, length_sendDescs, Skb.nsegments]
        exact hroom

theorem TxOk.ring_free {skb : Skb} (h : TxOk k cap s) (hcap : cap ≤ 127) (hx : s.xmit = .posting skb []) :
    s.tx.sendCq.contents.length < 255 := by
  have hle := length_le_length_descs (k := k) (s.tx.sendCq.contents ++ [skb])
  have hout := congrArg List.length h.outstanding
  have hbound := h.bounded.outstanding_le
  rw [hx] at hout
  simp only [XmitPc.rest, XmitPc.skbs, List.append_nil] at hout
  rw [← hout, List.length_append, List.length_singleton] at hle
  simp only [depth] at hbound
  omega

theorem TxOk.xmitStep (h : TxOk k cap s) (hctl : Ctl s) (hcap : cap ≤ 127) : TxOk k cap (s.xmitStep k cap) := by
  unfold PollSys.xmitStep
  cases hx : s.xmit with
  | idle => exact h
  | posting skb rest =>
    have hout := h.outstanding
    have hroom := h.room
    rw [hx] at hout hroom
    simp only [XmitPc.rest, XmitPc.skbs] at hout hroom
    cases rest with
    | cons d rest =>
      have hw : s.tx.writeReq cap d = { s.tx with eng := s.tx.eng.request depth d } := by
        simp [Tx.writeReq, Tx.tick, h.script]
      have hlt : s.tx.eng.queued.length < depth := by
        simp only [List.length_cons] at hroom
        exact Nat.lt_of_lt_of_le (by omega) (Nat.le_refl 64)
      simp only [hw]
      refine ⟨h.script, ?_, h.bounded.request, ?_, fun n hn => ?_⟩
      · simp only [XmitPc.rest, XmitPc.skbs]
        rw [Engine.outstanding_request hlt, List.append_assoc, List.singleton_append]
        exact hout
      · have : (s.tx.eng.request depth d).queued.length ≤ s.tx.eng.queued.length + 1 := Engine.length_queued_request
        simp only [XmitPc.rest, List.length_cons] at hroom ⊢
        omega
      · have : s.poll.locked = true := by rw [show s.poll = .sendLoop n from hn]; rfl
        simp [hctl.poll this] at hx
    | nil =>
      refine ⟨h.script, ?_, h.bounded, ?_, h.counted⟩
      · simp only [XmitPc.rest, XmitPc.skbs, List.append_nil, SkBuffCq.contents_push skb (h.ring_free hcap hx)]
        simpa using hout
      · simpa [XmitPc.rest] using hroom
  | threshold =>
    dsimp only
    split <;> exact h.congr rfl rfl rfl (by rw [hx]; rfl) (by rw [hx]; rfl) fun _ => id
  | space =>
    dsimp only
    split <;> exact h.congr rfl rfl rfl (by rw [hx]; rfl) (by rw [hx]; rfl) fun _ => id

theorem TxOk.progress {e : TxEngine} (h : TxOk k cap s) (hp : Engine.Progress depth cap s.tx.eng e) :
    TxOk k cap { s with tx := { s.tx with eng := e } } := by
  refine ⟨h.script, ?_, hp.bounded h.bounded, ?_, fun n hn => Nat.le_trans (h.counted n hn) hp.comps.length_le⟩
  · rw [hp.outstanding]
    exact h.outstanding
  · exact Nat.le_trans (Nat.add_le_add_right hp.queued _) h.room

theorem TxOk.step (h : TxOk k cap s) (hctl : Ctl s) (hcap : cap ≤ 127) (a : PollAct) :
    TxOk k cap (s.step k cap budget a) := by
  cases a with
  | isr side =>
    simp only [PollSys.step, isrStep]
    split
    · split <;> exact h.congr rfl rfl rfl rfl rfl fun _ => id
    · exact h.congr rfl rfl rfl rfl rfl fun _ => id
    · exact h.congr rfl rfl rfl rfl rfl fun _ => id
  | poll => exact h.pollStep hctl
  | setIntmask =>
    simp only [PollSys.step, PollSys.setIntmask]
    split <;> exact h.congr rfl rfl rfl rfl rfl fun _ => id
  | startXmit skb => exact h.startXmit skb
  | xmit => exact h.xmitStep hctl hcap
  | proc =>
    simp only [PollSys.step, PollSys.procStep]
    split <;> (try split) <;> exact h.congr rfl rfl rfl rfl rfl fun _ => id
  | txEngine st =>
    exact (h.progress (.step depth cap s.tx.eng st)).congr rfl rfl rfl rfl rfl fun _ => id
  | rxEngine st => exact h.congr rfl rfl rfl rfl rfl fun _ => id

/-! ### Receptions -/

structure RxOk (cap : Nat) (s : PollSys) : Prop where
  script : s.rx.script = []
  bounded : s.rx.eng.Bounded depth cap

theorem completeRecvLoop_one (cap : Nat) {t : Rx} (h : t.script = []) :
    (t.completeRecvLoop cap 1).eng = t.eng.read ∧ (t.completeRecvLoop cap 1).script = [] := by
  simp only [Rx.completeRecvLoop, Rx.tick, h, List.headD_nil, List.foldl_nil, List.tail_nil]
  split <;> exact ⟨rfl, rfl⟩

theorem allocRecvLoop_one (k : Kernel) (cap : Nat) {t : Rx} (h : t.script = []) :
    (t.allocRecvLoop k cap 1).eng.comps = t.eng.comps ∧ (t.allocRecvLoop k cap 1).script = [] ∧
      (t.eng.Bounded depth cap → (t.allocRecvLoop k cap 1).eng.Bounded depth cap) := by
  simp only [Rx.allocRecvLoop]
  split
  · exact ⟨rfl, h, id⟩
  · simp only [Rx.postRecv, Rx.tick, h, List.headD_nil, List.foldl_nil, List.tail_nil]
    refine ⟨?_, trivial, fun hb => hb.request⟩
    unfold Engine.request
    split <;> rfl

theorem rx_step (k : Kernel) (cap budget : Nat) (s : PollSys) (a : PollAct) : (s.step k cap budget a).rx = s.rx ∨
    (s.step k cap budget a).rx = s.rx.allocRecvLoop k cap 1 ∨
    (∃ n i, s.poll = .recvLoop n (i + 1) ∧ a = .poll ∧ (s.step k cap budget a).rx = s.rx.completeRecvLoop cap 1) ∨
    ∃ st, a = .rxEngine st := by
  cases a with
  | poll =>
    simp only [PollSys.step, PollSys.pollStep]
    cases hp : s.poll with
    | recvLoop n i =>
      cases i with
      | zero => exact .inl rfl
      | succ i => exact .inr (.inr (.inl ⟨n, i, rfl, trivial, rfl⟩))
    | allocLoop n i =>
      cases i with
      | zero => exact .inl rfl
      | succ i => exact .inr (.inl rfl)
    | finish n =>
      dsimp only
      split
      · exact .inl rfl
      · split <;> exact .inl rfl
    | _ => dsimp only; (try split) <;> exact .inl rfl
  | proc =>
    simp only [PollSys.step, PollSys.procStep]
    cases s.proc with
    | allocLoop i =>
      cases i with
      | zero => exact .inl rfl
      | succ i => exact .inr (.inl rfl)
    | _ => dsimp only; (try split) <;> exact .inl rfl
  | isr side =>
    simp only [PollSys.step, isrStep]
    split <;> (try split) <;> exact .inl rfl
  | setIntmask =>
    simp only [PollSys.step, PollSys.setIntmask]
    split <;> exact .inl rfl
  | startXmit skb =>
    simp only [PollSys.step, PollSys.startXmit]
    split <;> (try split) <;> exact .inl rfl
  | xmit =>
    simp only [PollSys.step, PollSys.xmitStep]
    split <;> (try split) <;> exact .inl rfl
  | txEngine st => exact .inl rfl
  | rxEngine st => exact .inr (.inr (.inr ⟨st, rfl⟩))

theorem RxOk.step (h : RxOk cap s) (a : PollAct) : RxOk cap (s.step k cap budget a) := by
  rcases rx_step k cap budget s a with hrx | hrx | ⟨-, -, -, -, hrx⟩ | ⟨st, rfl⟩
  · exact ⟨hrx ▸ h.script, hrx ▸ h.bounded⟩
  · obtain ⟨-, hscript, hbounded⟩ := allocRecvLoop_one k cap h.script
    exact ⟨hrx ▸ hscript, hrx ▸ hbounded h.bounded⟩
  · obtain ⟨heng, hscript⟩ := completeRecvLoop_one cap h.script
    exact ⟨hrx ▸ hscript, by rw [hrx, heng]; exact h.bounded.read⟩
  · exact ⟨h.script, (Engine.Progress.step depth cap s.rx.eng st).bounded h.bounded⟩

end PollSys
end FireMarshal.Accnet
