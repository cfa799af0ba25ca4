import FireMarshal.Lib.Run
import FireMarshal.Lib.Table
import FireMarshal.Rdma.Server
import FireMarshal.Theorems.Rdma.Rxq

namespace FireMarshal.Rdma

open Verbs

/-- The queues have room for all that the receives posted in advance bring about. -/
structure Config.Roomy (c : Config) : Prop where
  send : c.prepost ≤ c.caps.maxSendWr
  recv : c.prepost ≤ c.caps.maxRecvWr
  cqe : c.prepost ≤ c.caps.cqe

theorem server_roomy (msgSize : Nat) : (server msgSize).Roomy :=
  ⟨by show 64 ≤ 128; decide, by show 64 ≤ 128; decide, by show 64 ≤ 256; decide⟩

theorem serverTs_roomy (msgSize : Nat) : (serverTs msgSize).Roomy :=
  ⟨Nat.le_refl _, Nat.le_refl _, by show 256 ≤ 512; decide⟩

variable {c : Config}

namespace Server

variable {s s' : Server} {qp : Qp}

/-- Every message is in the completion queue, or an echo is posted or was sent. -/
structure Inv (c : Config) (s : Server) : Prop where
  balanced : s.qp.Balanced c.prepost
  alive : s.status ≠ .died
  pending : s.echoes.length + s.qp.tally.unsent + s.qp.tally.arrived = s.received.length
  fits : ∀ msg ∈ s.received, msg.length ≤ c.msgSize
  rxbuf : s.rxbuf = s.received.foldl store (List.replicate c.msgSize 0)

structure Quiet (s s' : Server) : Prop where
  received : s'.received = s.received
  echoes : s'.echoes = s.echoes
  rxbuf : s'.rxbuf = s.rxbuf

theorem Inv.quiet (h : s.Inv c) (hquiet : Quiet s s') (hbalanced : s'.qp.Balanced c.prepost)
    (halive : s'.status ≠ .died)
    (hpending : s'.qp.tally.unsent + s'.qp.tally.arrived = s.qp.tally.unsent + s.qp.tally.arrived) : s'.Inv c := by
  have hold := h.pending
  refine ⟨hbalanced, halive, ?_, ?_, ?_⟩
  · rw [hquiet.echoes, hquiet.received]
    omega
  · rw [hquiet.received]
    exact h.fits
  · rw [hquiet.rxbuf, hquiet.received]
    exact h.rxbuf

theorem Inv.withStatus (h : s.Inv c) {status : Status} (halive : status ≠ .died) : { s with status := status }.Inv c :=
  h.quiet ⟨rfl, rfl, rfl⟩ h.balanced halive rfl

/-! ### The adapter -/

structure Works (c : Config) (s s' : Server) : Prop where
  inv : s'.Inv c
  sends : s'.qp.tally.sends = s.qp.tally.sends
  arrived : s'.qp.tally.arrived + s.received.length = s.qp.tally.arrived + s'.received.length

theorem Inv.works_refl (h : s.Inv c) : Works c s s := ⟨h, rfl, rfl⟩

theorem Inv.works_of_tally (h : s.Inv c) (hbalanced : qp.Balanced c.prepost) (htally : qp.tally = s.qp.tally) :
    Works c s { s with qp := qp } := by
  refine ⟨h.quiet ⟨rfl, rfl, rfl⟩ hbalanced h.alive ?_, congrArg (·.sends) htally, ?_⟩
  · show qp.tally.unsent + qp.tally.arrived = _
    rw [htally]
  · show qp.tally.arrived + _ = _
    rw [htally]

theorem Inv.fail (h : s.Inv c) (hc : c.Roomy) : Works c s (s.fail c) := by
  unfold Server.fail
  cases hfail : s.qp.fail c.caps with
  | none => exact h.works_refl
  | some qp =>
    obtain ⟨hbalanced, htally⟩ := h.balanced.fail hc.cqe hfail
    exact h.works_of_tally hbalanced htally

theorem Inv.arrive (h : s.Inv c) (hc : c.Roomy) (msg : List UInt8) : Works c s (s.work c (.arrive msg)) := by
  have hpending := h.pending
  rw [Server.work]
  split_ifs with hlong
  · exact h.fail hc
  · cases hreceive : s.qp.receive c.caps with
    | none => exact h.works_refl
    | some qp =>
      obtain ⟨hbalanced, -, htally⟩ := h.balanced.receive hc.cqe hreceive
      have hunsent : qp.tally.unsent = s.qp.tally.unsent := congrArg (·.unsent) htally
      have harrived : qp.tally.arrived = s.qp.tally.arrived + 1 := congrArg (·.arrived) htally
      refine ⟨⟨hbalanced, h.alive, ?_, ?_, ?_⟩, congrArg (·.sends) htally, ?_⟩
      · simp only [List.length_append, List.length_singleton]
        omega
      · intro m hm
        rcases List.mem_append.mp hm with hm | hm
        · exact h.fits m hm
        · rw [List.mem_singleton.mp hm]
          exact Nat.le_of_not_lt hlong
      · simp only [List.foldl_append, List.foldl_cons, List.foldl_nil, h.rxbuf]
      · simp only [List.length_append, List.length_singleton]
        omega

theorem Inv.transmit (h : s.Inv c) : Works c s (s.work c .transmit) := by
  have hpending := h.pending
  rw [Server.work]
  cases htransmit : s.qp.transmit with
  | none => exact h.works_refl
  | some qp =>
    obtain ⟨hbalanced, hne, htally⟩ := h.balanced.transmit htransmit
    have hunsent : qp.tally.unsent = s.qp.tally.unsent - 1 := congrArg (·.unsent) htally
    have harrived : qp.tally.arrived = s.qp.tally.arrived := congrArg (·.arrived) htally
    refine ⟨⟨hbalanced, h.alive, ?_, h.fits, h.rxbuf⟩, congrArg (·.sends) htally, ?_⟩
    · simp only [List.length_append, List.length_singleton]
      omega
    · rw [← harrived]

theorem Inv.work (h : s.Inv c) (hc : c.Roomy) (w : Work) : Works c s (s.work c w) := by
  cases w with
  | arrive msg => exact h.arrive hc msg
  | transmit => exact h.transmit
  | acknowledge =>
    rw [Server.work]
    cases hacknowledge : s.qp.acknowledge c.caps with
    | none => exact h.works_refl
    | some qp =>
      obtain ⟨hbalanced, htally⟩ := h.balanced.acknowledge hc.cqe hacknowledge
      exact h.works_of_tally hbalanced htally
  | fail => exact h.fail hc

/-! ### The loop -/

theorem poll_of_none (hpoll : s.qp.poll = none) : s.poll c = s := by rw [poll, hpoll]

theorem poll_of_error (hpoll : s.qp.poll = some (.error, qp)) : s.poll c = { s with qp := qp, status := .left } := by
  rw [poll, hpoll]

theorem poll_of_recv (hpoll : s.qp.poll = some (.recv, qp)) : s.poll c = s.post (qp.postSend c.caps) := by
  rw [poll, hpoll]

theorem poll_of_send (hpoll : s.qp.poll = some (.send, qp)) : s.poll c = s.post (qp.postRecv c.caps) := by
  rw [poll, hpoll]

theorem Inv.poll_error (h : s.Inv c) (hpoll : s.qp.poll = some (.error, qp)) :
    Works c s { s with qp := qp, status := .left } := by
  have htally : s.qp.tally = qp.tally := Qp.tally_poll hpoll
  refine ⟨h.quiet ⟨rfl, rfl, rfl⟩ (h.balanced.poll_error hpoll) (by simp) ?_, ?_, ?_⟩
  · rw [htally]
  · rw [htally]
  · rw [htally]

theorem Inv.poll_recv (h : s.Inv c) (hc : c.Roomy) (hpoll : s.qp.poll = some (.recv, qp)) :
    (s.poll c).Inv c ∧ (s.poll c).received = s.received ∧ s.qp.tally.arrived = (s.poll c).qp.tally.arrived + 1 ∧
      (s.poll c).qp.tally.sends = s.qp.tally.sends + 1 := by
  obtain ⟨qp', hpost, hbalanced, hunsent, harrived, hsends⟩ := h.balanced.answer hpoll hc.send hc.cqe
  rw [poll_of_recv hpoll, hpost, post]
  refine ⟨h.quiet ⟨rfl, rfl, rfl⟩ hbalanced h.alive ?_, rfl, harrived, hsends⟩
  show qp'.tally.unsent + qp'.tally.arrived = _
  omega

theorem Inv.poll_send (h : s.Inv c) (hc : c.Roomy) (hpoll : s.qp.poll = some (.send, qp)) :
    (s.poll c).Inv c ∧ (s.poll c).received = s.received ∧ (s.poll c).qp.tally.arrived = s.qp.tally.arrived ∧
      s.qp.tally.sends = (s.poll c).qp.tally.sends + 1 := by
  obtain ⟨qp', hpost, hbalanced, hunsent, harrived, hsends⟩ := h.balanced.renew hpoll hc.recv hc.cqe
  rw [poll_of_send hpoll, hpost, post]
  refine ⟨h.quiet ⟨rfl, rfl, rfl⟩ hbalanced h.alive ?_, rfl, harrived, hsends⟩
  show qp'.tally.unsent + qp'.tally.arrived = _
  omega

theorem Inv.poll (h : s.Inv c) (hc : c.Roomy) : (s.poll c).Inv c := by
  cases hpoll : s.qp.poll with
  | none =>
    rw [poll_of_none hpoll]
    exact h
  | some p =>
    obtain ⟨wc, qp⟩ := p
    cases wc with
    | recv => exact (h.poll_recv hc hpoll).1
    | send => exact (h.poll_send hc hpoll).1
    | error =>
      rw [poll_of_error hpoll]
      exact (h.poll_error hpoll).inv

theorem Inv.step (h : s.Inv c) (hc : c.Roomy) (e : Event) : (s.step c e).Inv c := by
  unfold Server.step
  split_ifs
  · exact h
  · cases e with
    | work w => exact (h.work hc w).inv
    | poll => exact h.poll hc

/-! ### The start -/

theorem prepost_eq {n k : Nat} (hbalanced : s.qp.Balanced n) (hrecv : n + k ≤ c.caps.maxRecvWr)
    (hcqe : n + k ≤ c.caps.cqe) :
    ∃ qp', prepost c k s = { s with qp := qp' } ∧ qp'.Balanced (n + k) ∧
      qp'.tally = { s.qp.tally with recvs := s.qp.tally.recvs + k } := by
  induction k generalizing n s with
  | zero => exact ⟨s.qp, rfl, hbalanced, rfl⟩
  | succ k ih =>
    obtain ⟨qp₁, hpost, hbalanced₁, htally₁⟩ := hbalanced.postRecv (c := c.caps) (by omega) (by omega)
    have hsucc : n + (k + 1) = n + 1 + k := by omega
    obtain ⟨qp', heq, hbalanced', htally'⟩ :=
      ih (s := { s with qp := qp₁ }) hbalanced₁ (by rw [← hsucc]; exact hrecv) (by rw [← hsucc]; exact hcqe)
    refine ⟨qp', ?_, hsucc ▸ hbalanced', ?_⟩
    · rw [prepost, hpost]
      exact heq
    · rw [htally']
      show { qp₁.tally with recvs := qp₁.tally.recvs + k } = _
      rw [htally₁, Nat.add_assoc, Nat.add_comm 1 k]

theorem start_eq (hc : c.Roomy) :
    ∃ qp, start c = { qp := qp, rxbuf := List.replicate c.msgSize 0 } ∧ qp.Balanced c.prepost ∧
      qp.tally = ⟨c.prepost, 0, 0, 0⟩ := by
  have hrecv := hc.recv
  have hcqe := hc.cqe
  obtain ⟨qp, heq, hbalanced, htally⟩ :=
    prepost_eq (s := { rxbuf := List.replicate c.msgSize 0 }) (c := c) (k := c.prepost) Qp.balanced_init
      (by omega) (by omega)
  rw [Nat.zero_add] at hbalanced
  refine ⟨qp, heq, hbalanced, htally.trans ?_⟩
  show (⟨0 + c.prepost, 0, 0, 0⟩ : Qp.Tally) = _
  rw [Nat.zero_add]

theorem inv_start (hc : c.Roomy) : (start c).Inv c := by
  obtain ⟨qp, heq, hbalanced, htally⟩ := start_eq hc
  rw [heq]
  refine ⟨hbalanced, by simp, ?_, by simp, rfl⟩
  show 0 + qp.tally.unsent + qp.tally.arrived = 0
  simp [htally]

end Server

namespace ServerTs

variable {s s' : ServerTs} {qp : Qp} {now rx : BitVec 64}

/-- Row `k` has the timestamps of receive `k` and of send completion `k`. -/
def Paired (c : Config) (rows : List Row) (rxTimes txTimes : List (BitVec 64)) : Prop :=
  rows.length = txTimes.length ∧ ∀ (k : Nat) (row : Row), rows[k]? = some row →
    ∃ rx tx, rxTimes[k]? = some rx ∧ txTimes[k]? = some tx ∧
      row = ⟨BitVec.ofNat 64 k, BitVec.ofNat 32 c.msgSize, rx, tx⟩

section Paired

variable {rows : List Row} {rxTimes txTimes : List (BitVec 64)}

theorem Paired.recv (h : Paired c rows rxTimes txTimes) : Paired c rows (rxTimes ++ [now]) txTimes := by
  refine ⟨h.1, fun k row hrow => ?_⟩
  obtain ⟨rx, tx, hk, hrest⟩ := h.2 k row hrow
  exact ⟨rx, tx, Table.getElem?_mono (List.prefix_append _ _) hk, hrest⟩

theorem Paired.send (h : Paired c rows rxTimes txTimes) (hrx : rxTimes[txTimes.length]? = some rx) :
    Paired c (rows ++ [⟨BitVec.ofNat 64 txTimes.length, BitVec.ofNat 32 c.msgSize, rx, now⟩]) rxTimes
      (txTimes ++ [now]) := by
  refine ⟨by rw [List.length_append, List.length_append, h.1]; rfl, fun k row hrow => ?_⟩
  rcases Table.getElem?_concat_iff.mp hrow with hrow | ⟨rfl, rfl⟩
  · obtain ⟨rx', tx, hk, htx, heq⟩ := h.2 k row hrow
    exact ⟨rx', tx, hk, Table.getElem?_mono (List.prefix_append _ _) htx, heq⟩
  · rw [h.1]
    exact ⟨rx, now, hrx, Table.getElem?_concat_iff.mpr (.inr ⟨rfl, rfl⟩), rfl⟩

end Paired

structure Inv (c : Config) (s : ServerTs) : Prop where
  server : s.server.Inv c
  rxTimes : s.rxTimes.length + s.server.qp.tally.arrived = s.server.received.length
  txTimes : s.rxTimes.length = s.txTimes.length + s.server.qp.tally.sends
  fits : s.rxq.Fits
  queued : s.rxq.queued = s.rxTimes.drop s.txTimes.length
  pktIdx : s.pktIdx = BitVec.ofNat 64 s.txTimes.length
  paired : Paired c s.rows s.rxTimes s.txTimes

theorem Inv.works {server : Server} (h : s.Inv c) (hworks : Server.Works c s.server server) :
    { s with server := server }.Inv c := by
  have hrx := h.rxTimes
  have harrived := hworks.arrived
  refine ⟨hworks.inv, ?_, ?_, h.fits, h.queued, h.pktIdx, h.paired⟩
  · show s.rxTimes.length + server.qp.tally.arrived = server.received.length
    omega
  · show s.rxTimes.length = s.txTimes.length + server.qp.tally.sends
    rw [hworks.sends]
    exact h.txTimes

theorem Inv.withStatus (h : s.Inv c) {status : Status} (halive : status ≠ .died) :
    { s with server := { s.server with status := status } }.Inv c :=
  h.works ⟨h.server.withStatus halive, rfl, rfl⟩

theorem Inv.exit (h : s.Inv c) : s.exit.Inv c := h.withStatus (by decide)

theorem Inv.length_queued (h : s.Inv c) : s.rxq.size = s.server.qp.tally.sends := by
  have htx := h.txTimes
  rw [← Rxq.length_queued, h.queued, List.length_drop]
  omega

theorem Inv.poll_recv (h : s.Inv c) (hc : c.Roomy) (hpoll : s.server.qp.poll = some (.recv, qp)) {rxq : Rxq} {limit : Nat}
    (hpush : s.rxq.push limit now = some rxq) :
    { s with server := s.server.poll c, rxq := rxq, rxTimes := s.rxTimes ++ [now] }.Inv c := by
  have hrx := h.rxTimes
  have htx := h.txTimes
  obtain ⟨hinv, hreceived, harrived, hsends⟩ := h.server.poll_recv hc hpoll
  obtain ⟨hfits, hqueued⟩ := Rxq.push_spec h.fits hpush
  refine ⟨hinv, ?_, ?_, hfits, ?_, h.pktIdx, h.paired.recv⟩
  · simp only [List.length_append, List.length_singleton, hreceived]
    omega
  · simp only [List.length_append, List.length_singleton]
    omega
  · show rxq.queued = (s.rxTimes ++ [now]).drop s.txTimes.length
    rw [hqueued, h.queued, List.drop_append_of_le_length (by omega)]

theorem Inv.poll_send (h : s.Inv c) (hc : c.Roomy) (hpoll : s.server.qp.poll = some (.send, qp)) {rxq : Rxq}
    {limit rowsCap : Nat} {out : Option (BitVec 64)} (hpop : s.rxq.pop limit = some (out, rxq)) :
    { s with
      server := s.server.poll c
      rxq := rxq
      rows := s.rows ++ [(⟨s.pktIdx, BitVec.ofNat 32 c.msgSize, out.getD now, now⟩ : Row)]
      rowsCap := rowsCap
      pktIdx := s.pktIdx + 1#64
      txTimes := s.txTimes ++ [now] }.Inv c := by
  have hrx := h.rxTimes
  have htx := h.txTimes
  obtain ⟨hinv, hreceived, harrived, hsends⟩ := h.server.poll_send hc hpoll
  obtain ⟨hfits, hout, hqueued⟩ := Rxq.pop_spec h.fits hpop
  have hlt : s.txTimes.length < s.rxTimes.length := by omega
  obtain ⟨rx, hget⟩ : ∃ rx, s.rxTimes[s.txTimes.length]? = some rx := ⟨_, List.getElem?_eq_getElem hlt⟩
  rw [h.queued, List.head?_drop, hget] at hout
  subst hout
  have hlength : (s.txTimes ++ [now]).length = s.txTimes.length + 1 := by
    rw [List.length_append, List.length_singleton]
  refine ⟨hinv, ?_, ?_, hfits, ?_, ?_, ?_⟩
  · simp only [hreceived]
    omega
  · show s.rxTimes.length = (s.txTimes ++ [now]).length + (s.server.poll c).qp.tally.sends
    omega
  · show rxq.queued = s.rxTimes.drop (s.txTimes ++ [now]).length
    rw [hqueued, h.queued, List.tail_drop, hlength]
  · show s.pktIdx + 1#64 = BitVec.ofNat 64 (s.txTimes ++ [now]).length
    rw [h.pktIdx, hlength, BitVec.ofNat_add]
  · show Paired c (s.rows ++ [⟨s.pktIdx, BitVec.ofNat 32 c.msgSize, rx, now⟩]) s.rxTimes (s.txTimes ++ [now])
    rw [h.pktIdx]
    exact h.paired.send hget

theorem Inv.poll (h : s.Inv c) (hc : c.Roomy) (limit rowsLimit : Nat) : (s.poll c now limit rowsLimit).Inv c := by
  unfold ServerTs.poll
  split
  next qp hpoll =>
    split
    next => exact h.exit
    next rxq hpush => exact h.poll_recv hc hpoll hpush
  next qp hpoll =>
    split
    next hpop hreserve => exact h.poll_send hc hpoll hpop
    next => exact h.exit
  next hrecv hsend =>
    refine h.works ?_
    cases hpoll : s.server.qp.poll with
    | none =>
      rw [Server.poll_of_none hpoll]
      exact h.server.works_refl
    | some p =>
      obtain ⟨wc, qp⟩ := p
      cases wc with
      | recv => exact absurd hpoll (hrecv qp)
      | send => exact absurd hpoll (hsend qp)
      | error =>
        rw [Server.poll_of_error hpoll]
        exact h.server.poll_error hpoll

theorem Inv.step (h : s.Inv c) (hc : c.Roomy) (e : Event) : (s.step c e).Inv c := by
  unfold ServerTs.step
  split_ifs
  · exact h
  · cases e with
    | work w => exact h.works (h.server.work hc w)
    | poll now limit rowsLimit => exact h.poll hc limit rowsLimit
    | signal => exact h.withStatus (by decide)

theorem inv_start (hc : c.Roomy) : (start c).Inv c := by
  have hserver := Server.inv_start hc
  obtain ⟨qp, heq, -, htally⟩ := Server.start_eq hc
  have hqp : (Server.start c).qp.tally = ⟨c.prepost, 0, 0, 0⟩ := by rw [heq]; exact htally
  refine ⟨hserver, ?_, ?_, Nat.le_refl _, rfl, rfl, rfl, ?_⟩
  · show 0 + (Server.start c).qp.tally.arrived = (Server.start c).received.length
    rw [hqp, heq]
    rfl
  · show 0 = 0 + (Server.start c).qp.tally.sends
    rw [hqp]
    rfl
  · intro k row hrow
    exact absurd hrow (by simp [start])

structure Good (c : Config) (s : ServerTs) : Prop where
  slots : s.server.qp.recvs + (s.server.received.length - s.txTimes.length) = 256
  done : s.txTimes.length ≤ s.server.received.length
  sends : s.server.qp.sends ≤ 256
  receives : s.server.qp.receives ≤ 256
  cq : s.server.qp.cq.length ≤ 512
  overrun : s.server.qp.overrun = false
  posted : s.server.status ≠ .died
  rxq : ∀ qp, s.server.qp.poll = some (.send, qp) → s.rxq.size ≠ 0
  paired : Paired c s.rows s.rxTimes s.txTimes

theorem Inv.good {msgSize : Nat} (h : s.Inv (serverTs msgSize)) : s.Good (serverTs msgSize) := by
  have hrx := h.rxTimes
  have htx := h.txTimes
  have htotal : s.server.qp.receives + s.server.qp.sends = 256 := h.server.balanced.total
  have hcq : s.server.qp.cq.length ≤ 256 := h.server.balanced.length
  have htally := Qp.tally_total s.server.qp
  refine ⟨?_, by omega, by omega, by omega, by omega, h.server.balanced.overrun, h.server.alive, ?_, h.paired⟩
  · have hrecvs : s.server.qp.recvs = s.server.qp.tally.recvs := rfl
    omega
  · intro qp hpoll
    rw [h.length_queued, Qp.tally_poll hpoll]
    exact Nat.succ_ne_zero _

end ServerTs

/-- Whatever messages and completions come, and in whatever order. -/
theorem serverTs_good (msgSize : Nat) (es : List ServerTs.Event) :
    Run.Always (ServerTs.step (serverTs msgSize)) (ServerTs.start (serverTs msgSize)) es
      (ServerTs.Good (serverTs msgSize)) :=
  (Run.always_of_step (ServerTs.inv_start (serverTs_roomy msgSize))
    fun _ e h => h.step (serverTs_roomy msgSize) e).mono fun _ h => h.good

end FireMarshal.Rdma
