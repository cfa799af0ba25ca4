import Mathlib.Data.BitVec
import FireMarshal.Theorems.Rdma.Ping

/-! A client comes to its end. Every step that can be taken uses up some of the work that is left, and until the end
    there is one. -/

namespace FireMarshal.Rdma

open Verbs

variable {c : ClientConfig} {sc : Config}

/-! ### Rows and rounds -/

namespace Client

variable {s : Client}

theorem rttTs_eq (rx tx : BitVec 64) : rttTs rx tx = rx - tx := by
  rw [rttTs]
  split_ifs with h
  · rfl
  · rw [← BitVec.neg_one_eq_allOnes]
    grind

structure Counted (c : ClientConfig) (s : Client) : Prop where
  round : s.pc ≠ .done → s.round < c.rounds
  done : s.pc = .done → s.round = c.rounds
  memory : s.pc = .noMemory → c.ts = true
  idx : s.rows.map (·.idx) = (List.range s.rows.length).map (BitVec.ofNat 64)
  length : s.pc ≠ .died → c.ts = true →
    s.rows.length = s.round - warmup + if s.pc = .repost ∧ warmup ≤ s.round then 1 else 0
  sum : s.pc ≠ .noMemory → c.ts = true → s.sumNs = (s.rows.map fun r => r.rxNs - r.txNs).sum
  bounds : ∀ r ∈ s.rows, s.minNs ≤ r.rxNs - r.txNs ∧ r.rxNs - r.txNs ≤ s.maxNs

theorem Counted.move {pc : ClientPc} (h : s.Counted c) (hpc : s.pc = .post ∨ s.pc = .waitSend ∨ s.pc = .waitRecv)
    (hpc' : pc = .waitSend ∨ pc = .waitRecv ∨ pc = .died) (qp : Qp) (t0 : BitVec 64) :
    { s with qp := qp, pc := pc, t0 := t0 }.Counted c := by
  have hold : s.pc ≠ .done ∧ s.pc ≠ .repost ∧ s.pc ≠ .noMemory ∧ s.pc ≠ .died := by
    rcases hpc with hpc | hpc | hpc
    all_goals rw [hpc]; decide
  have hnew : pc ≠ .done ∧ pc ≠ .repost ∧ pc ≠ .noMemory := by
    rcases hpc' with rfl | rfl | rfl
    all_goals decide
  refine ⟨fun _ => h.round hold.1, fun hd => absurd hd hnew.1, fun hm => absurd hm hnew.2.2, h.idx, fun _ hts => ?_,
    fun _ => h.sum hold.2.2.1, h.bounds⟩
  rw [if_neg fun hr => hnew.2.1 hr.1, h.length hold.2.2.2 hts, if_neg fun hr => hold.2.1 hr.1]

theorem addRtt_bounds (s : Client) (rtt : BitVec 64) :
    (s.addRtt rtt).minNs ≤ s.minNs ∧ (s.addRtt rtt).minNs ≤ rtt ∧ s.maxNs ≤ (s.addRtt rtt).maxNs ∧
      rtt ≤ (s.addRtt rtt).maxNs := by
  unfold addRtt
  dsimp only
  refine ⟨?_, ?_, ?_, ?_⟩
  all_goals
    split_ifs with h
    all_goals bv_omega

theorem Counted.bounds_addRtt (h : s.Counted c) (rtt : BitVec 64) :
    ∀ r ∈ s.rows, (s.addRtt rtt).minNs ≤ r.rxNs - r.txNs ∧ r.rxNs - r.txNs ≤ (s.addRtt rtt).maxNs := by
  obtain ⟨hmin, -, hmax, -⟩ := addRtt_bounds s rtt
  intro r hr
  obtain ⟨hlow, hhigh⟩ := h.bounds r hr
  exact ⟨BitVec.le_trans hmin hlow, BitVec.le_trans hhigh hmax⟩

theorem Counted.record (h : s.Counted c) (hpc : s.pc = .waitRecv) (now : BitVec 64) (limit : Nat) :
    (s.record c now limit).Counted c := by
  have hround := h.round (by rw [hpc]; decide)
  have hlength := h.length (by rw [hpc]; decide)
  have hsum := h.sum (by rw [hpc]; decide)
  simp only [hpc, reduceCtorEq, false_and, if_false, Nat.add_zero] at hlength
  unfold Client.record
  split_ifs with hwarm hts
  · refine ⟨fun _ => hround, fun h => absurd h (by simp), fun h => absurd h (by simp), h.idx,
      fun _ hts => ?_, fun _ => hsum, h.bounds⟩
    rw [if_neg fun hr => absurd hr.2 (Nat.not_le.mpr hwarm), hlength hts]
    rfl
  · obtain ⟨-, hmin, -, hmax⟩ := addRtt_bounds s (rttTs now s.t0)
    split
    · refine ⟨fun _ => hround, fun h => absurd h (by simp), fun _ => hts, h.idx, fun _ _ => ?_,
        fun hne => absurd rfl hne, h.bounds_addRtt _⟩
      rw [if_neg fun hr => absurd hr.1 (by simp)]
      exact hlength hts
    · refine ⟨fun _ => hround, fun h => absurd h (by simp), fun h => absurd h (by simp), ?_, fun _ _ => ?_,
        fun _ _ => ?_, ?_⟩
      · dsimp only
        rw [List.map_append, h.idx, List.length_append, List.length_singleton, List.range_succ, List.map_append,
          ← hlength hts]
        rfl
      · dsimp only
        rw [if_pos ⟨rfl, Nat.le_of_not_lt hwarm⟩, List.length_append, List.length_singleton, hlength hts]
        rfl
      · dsimp only
        rw [List.map_append, List.sum_append, ← hsum hts, List.map_singleton, List.sum_singleton, ← rttTs_eq]
        rfl
      · intro r hr
        rcases List.mem_append.mp hr with hr | hr
        · exact h.bounds_addRtt _ r hr
        · rw [List.mem_singleton.mp hr]
          dsimp only
          rw [← rttTs_eq]
          exact ⟨hmin, hmax⟩
  · exact ⟨fun _ => hround, fun h => absurd h (by simp), fun h => absurd h (by simp), h.idx,
      fun _ h => absurd h hts, fun _ h => absurd h hts, h.bounds_addRtt _⟩

theorem Counted.repost (h : s.Counted c) (hpc : s.pc = .repost) (qp : Qp) :
    { s with qp := qp, round := s.round + 1, pc := if s.round + 1 < c.rounds then .post else .done }.Counted c := by
  have hround := h.round (by rw [hpc]; decide)
  have hlength := h.length (by rw [hpc]; decide)
  have hsum := h.sum (by rw [hpc]; decide)
  simp only [hpc, true_and] at hlength
  have hnext : c.ts = true → s.rows.length = s.round + 1 - warmup := fun hts => by
    rw [hlength hts]
    split_ifs with hwarm
    · omega
    · omega
  split_ifs with hmore
  · refine ⟨fun _ => hmore, fun h => absurd h (by simp), fun h => absurd h (by simp), h.idx, fun _ hts => ?_,
      fun _ => hsum, h.bounds⟩
    rw [if_neg fun hr => absurd hr.1 (by simp)]
    exact hnext hts
  · refine ⟨fun hne => absurd rfl hne, fun _ => by dsimp only; omega, fun h => absurd h (by simp), h.idx,
      fun _ hts => ?_, fun _ => hsum, h.bounds⟩
    rw [if_neg fun hr => absurd hr.1 (by simp)]
    exact hnext hts

theorem Counted.step (h : s.Counted c) (now : BitVec 64) (limit : Nat) : (s.step c now limit).Counted c := by
  unfold Client.step
  split
  · rename_i hpc
    split
    · exact h.move (.inl hpc) (.inr (.inr rfl)) s.qp s.t0
    · exact h.move (.inl hpc) (.inl rfl) _ _
  · rename_i hpc
    split
    · exact h
    · split
      · exact h.move (.inr (.inl hpc)) (.inr (.inr rfl)) _ s.t0
      · exact h.move (.inr (.inl hpc)) (.inr (.inl rfl)) _ _
  · rename_i hpc
    split
    · exact h
    · rename_i wc qp hpoll
      have hmove := h.move (.inr (.inr hpc)) (.inr (.inl rfl)) qp s.t0
      split
      · exact h.move (.inr (.inr hpc)) (.inr (.inr rfl)) qp s.t0
      · rw [show ({ s with qp := qp } : Client) = { s with qp := qp, pc := .waitRecv, t0 := s.t0 } by rw [← hpc]]
        exact hmove.record rfl now limit
  · rename_i hpc
    split
    · exact ⟨fun _ => h.round (by rw [hpc]; decide), fun h => absurd h (by simp), fun h => absurd h (by simp), h.idx,
        fun hne => absurd rfl hne, fun _ => h.sum (by rw [hpc]; decide), h.bounds⟩
    · exact h.repost hpc _
  all_goals exact h

theorem counted_start (c : ClientConfig) : (start c).Counted c := by
  rw [show start c = { qp := { recvs := 1 }, buf := c.payload } from rfl]
  refine ⟨fun _ => by show 0 < warmup + c.iters; exact Nat.lt_of_lt_of_le (by decide) (Nat.le_add_right _ _),
    fun h => absurd h (by simp), fun h => absurd h (by simp), rfl, fun _ _ => rfl, fun _ _ => rfl,
    fun r hr => absurd hr List.not_mem_nil⟩

theorem Counted.withQp (h : s.Counted c) (qp : Qp) (buf : List UInt8) : { s with qp := qp, buf := buf }.Counted c :=
  ⟨h.round, h.done, h.memory, h.idx, h.length, h.sum, h.bounds⟩

/-- How a client ends. -/
def Finished (c : ClientConfig) (overtaken : Bool) (s : Client) : Prop :=
  if overtaken then s.pc = .died
  else
    (s.pc = .done ∧ s.round = c.rounds ∧
      (c.ts = true → s.rows.map (·.idx) = (List.range c.iters).map (BitVec.ofNat 64) ∧
        s.sumNs = (s.rows.map fun r => r.rxNs - r.txNs).sum ∧
        ∀ r ∈ s.rows, s.minNs ≤ r.rxNs - r.txNs ∧ r.rxNs - r.txNs ≤ s.maxNs)) ∨
    (c.ts = true ∧ s.pc = .noMemory)

/-! ### The work that is left -/

def unposted (c : ClientConfig) (s : Client) : Nat :=
  if s.pc = .post then c.rounds - s.round else c.rounds - s.round - 1

/-- The work of the client. A round takes twelve steps of the programs and the adapters, and a message costs the steps
    that it will bring about. -/
def work (c : ClientConfig) (s : Client) : Nat :=
  12 * s.unposted c + (if s.pc = .repost then 1 else 0) + 11 * s.qp.unsent + s.qp.cq.count .send +
    2 * s.qp.cq.count .recv

theorem work_poll {s' : Client} {wc : Wc} {rest : List Wc} (hpc : s.pc ≠ .post ∧ s.pc ≠ .repost) (hwc : wc ≠ .error)
    (hcons : s.qp.cq = wc :: rest) (hpc' : s'.pc ≠ .post ∧ (s'.pc = .repost → wc = .recv))
    (hqp : s'.qp = { s.qp with cq := rest }) (hround : s'.round = s.round) : s'.work c < s.work c := by
  have hunposted : s'.unposted c = s.unposted c := by
    rw [unposted, unposted, if_neg hpc'.1, if_neg hpc.1, hround]
  rw [work, work, hunposted, hqp, hcons, if_neg hpc.2]
  dsimp only
  cases wc with
  | error => exact absurd rfl hwc
  | recv =>
    rw [List.count_cons_self, List.count_cons_of_ne (show Wc.recv ≠ .send by decide)]
    split_ifs
    · omega
    · omega
  | send =>
    rw [List.count_cons_self, List.count_cons_of_ne (show Wc.send ≠ .recv by decide),
      if_neg fun h => absurd (hpc'.2 h) (by decide)]
    omega

theorem work_post (hpc : s.pc = .post) (hround : s.round < c.rounds) (hbroken : s.qp.broken = false)
    (hsends : s.qp.sends < 128) (now : BitVec 64) (limit : Nat) : (s.step c now limit).work c < s.work c := by
  have hpost := Qp.postSend_eq (c := clientCaps) hbroken hsends
  simp only [Client.step, hpc, hpost, work, unposted, reduceCtorEq, if_true, if_false]
  omega

theorem work_repost (hpc : s.pc = .repost) (hround : s.round < c.rounds) (hbroken : s.qp.broken = false)
    (hreceives : s.qp.receives < 128) (now : BitVec 64) (limit : Nat) : (s.step c now limit).work c < s.work c := by
  have hpost := Qp.postRecv_eq (c := clientCaps) hbroken hreceives
  simp only [Client.step, hpc, hpost, work, unposted, reduceCtorEq, if_true, if_false]
  by_cases hmore : s.round + 1 < c.rounds
  · simp only [if_pos hmore, reduceCtorEq, if_true, if_false]
    omega
  · simp only [if_neg hmore, reduceCtorEq, if_false]
    omega

theorem work_waitSend (hpc : s.pc = .waitSend) (hbroken : s.qp.broken = false) {n : Nat} (hbalanced : s.qp.Balanced n)
    (hcq : s.qp.cq ≠ []) (now : BitVec 64) (limit : Nat) : (s.step c now limit).work c < s.work c := by
  obtain ⟨hnil, -⟩ | ⟨wc, rest, hwc, hcons, hpoll⟩ := hbalanced.poll_cases hbroken
  · exact absurd hnil hcq
  · have hold : s.pc ≠ .post ∧ s.pc ≠ .repost := by rw [hpc]; decide
    simp only [Client.step, hpc, hpoll]
    split
    · exact work_poll hold hwc hcons ⟨by simp, by simp⟩ rfl rfl
    · exact work_poll hold hwc hcons ⟨by simp, by simp⟩ rfl rfl

theorem work_waitRecv (hpc : s.pc = .waitRecv) (hbroken : s.qp.broken = false) {n : Nat} (hbalanced : s.qp.Balanced n)
    (hcq : s.qp.cq ≠ []) (now : BitVec 64) (limit : Nat) : (s.step c now limit).work c < s.work c := by
  obtain ⟨hnil, -⟩ | ⟨wc, rest, hwc, hcons, hpoll⟩ := hbalanced.poll_cases hbroken
  · exact absurd hnil hcq
  · have hold : s.pc ≠ .post ∧ s.pc ≠ .repost := by rw [hpc]; decide
    simp only [Client.step, hpc, hpoll]
    split
    · exact work_poll hold hwc hcons ⟨by simp, by simp⟩ rfl rfl
    · rename_i hrecv
      obtain ⟨hqp, -, hround, hpc'⟩ :=
        record_frame c { s with qp := { s.qp with cq := rest }, pc := .waitRecv } now limit
      refine work_poll hold hwc hcons ⟨?_, fun _ => not_not.mp hrecv⟩ hqp hround
      rcases hpc' with hpc' | hpc'
      all_goals rw [hpc']; decide

theorem Counted.work_step {flight : Nat} {overtaken : Bool} (h : s.Counted c)
    (hphase : Phase s.qp flight overtaken s.pc) (hbroken : s.qp.broken = false) (hopen : ¬s.ended = true)
    (hdue : s.pc = .post ∨ s.pc = .repost ∨ s.qp.cq ≠ [])
    (now : BitVec 64) (limit : Nat) : (s.step c now limit).work c < s.work c := by
  cases hpc : s.pc with
  | post =>
    rw [hpc] at hphase
    exact work_post hpc (h.round (by rw [hpc]; decide)) hbroken (by rw [hphase.1.sends]; decide) now limit
  | waitSend =>
    rw [hpc] at hphase hdue
    exact work_waitSend hpc hbroken hphase.1.balanced (by simpa using hdue) now limit
  | waitRecv =>
    rw [hpc] at hphase hdue
    obtain ⟨n, -, hbalanced⟩ := hphase.balanced (by decide)
    exact work_waitRecv hpc hbroken hbalanced (by simpa using hdue) now limit
  | repost =>
    rw [hpc] at hphase
    exact work_repost hpc (h.round (by rw [hpc]; decide)) hbroken (by rw [hphase.1.receives]; decide) now limit
  | done => exact absurd (by rw [ended, hpc]) hopen
  | died => exact absurd (by rw [ended, hpc]) hopen
  | noMemory => exact absurd (by rw [ended, hpc]) hopen

end Client

namespace Ping

variable {s : Ping}

def work (c : ClientConfig) (s : Ping) : Nat :=
  s.client.work c + 10 * s.toServer.length + 2 * s.taken + 7 * s.server.qp.cq.count .recv + 6 * s.server.qp.unsent +
    5 * s.toClient.length + 2 * s.takenBack + s.server.qp.cq.count .send

/-- The steps that do something. A message waits at the server while no receive is posted there. -/
def Due (s : Ping) (a : PingAct) : Prop :=
  ¬s.client.ended = true ∧
    match a with
    | .client _ _ => s.client.pc = .post ∨ s.client.pc = .repost ∨ s.client.qp.cq ≠ []
    | .clientTransmit => s.client.qp.unsent ≠ 0
    | .clientAck => s.taken ≠ 0
    | .clientArrive => s.toClient ≠ []
    | .server => s.server.qp.cq ≠ []
    | .serverTransmit => s.server.qp.unsent ≠ 0
    | .serverAck => s.takenBack ≠ 0
    | .serverArrive => s.toServer ≠ [] ∧ s.server.qp.recvs ≠ 0

theorem Inv.recvs_of_toClient (h : s.Inv c sc) (hopen : ¬s.client.ended = true) (hne : s.toClient ≠ []) :
    s.client.qp.recvs ≠ 0 := by
  have hphase := h.phase
  have hflight : 0 < s.flight := by
    have := List.length_pos_iff.mpr hne
    simp only [flight]
    omega
  obtain ⟨hdone, hdied, hmemory⟩ := not_ended hopen
  cases hpc : s.client.pc with
  | post => rw [hpc] at hphase; obtain ⟨-, -, hzero, -⟩ := hphase; omega
  | waitSend => rw [hpc] at hphase; obtain ⟨-, heq, -⟩ := hphase; omega
  | waitRecv => rw [hpc] at hphase; obtain ⟨heq, -⟩ := hphase; omega
  | repost => rw [hpc] at hphase; obtain ⟨-, hzero, -⟩ := hphase; omega
  | done => exact absurd hpc hdone
  | died => exact absurd hpc hdied
  | noMemory => exact absurd hpc hmemory

theorem work_clientTransmit (h : s.Inv c sc) (hdue : s.client.qp.unsent ≠ 0) :
    (s.act c sc .clientTransmit).work c < s.work c := by
  rw [act, Qp.transmit_eq h.clientBroken hdue]
  simp only [work, Client.work, Client.unposted, List.length_append, List.length_singleton]
  omega

theorem work_clientAck (h : s.Inv c sc) (hopen : ¬s.client.ended = true) (hdue : s.taken ≠ 0) :
    (s.act c sc .clientAck).work c < s.work c := by
  have hsent := h.clientSent
  obtain ⟨n, hn, hbalanced⟩ := h.phase.balanced (not_ended hopen)
  rw [act, if_neg hdue, hbalanced.acknowledge_eq hn h.clientBroken (by omega)]
  simp only [work, Client.work, Client.unposted, List.count_append, List.count_singleton_self,
    List.count_singleton, show (Wc.send == Wc.recv) = false from rfl, Bool.false_eq_true, if_false]
  omega

theorem work_clientArrive (h : s.Inv c sc) (hopen : ¬s.client.ended = true) (hdue : s.toClient ≠ []) :
    (s.act c sc .clientArrive).work c < s.work c := by
  have hrecvs := h.recvs_of_toClient hopen hdue
  obtain ⟨n, hn, hbalanced⟩ := h.phase.balanced (not_ended hopen)
  obtain ⟨msg, rest, hclient⟩ := List.exists_cons_of_ne_nil hdue
  rw [act, hclient, hbalanced.receive_eq hn h.clientBroken hrecvs]
  simp only [work, Client.work, Client.unposted, hclient, List.length_cons, List.count_append,
    List.count_singleton_self, List.count_singleton, show (Wc.recv == Wc.send) = false from rfl, Bool.false_eq_true,
    if_false]
  omega

theorem work_server (h : s.Inv c sc) (hc : sc.Roomy) (hdue : s.server.qp.cq ≠ []) :
    (s.act c sc .server).work c < s.work c := by
  rw [act]
  obtain ⟨hnil, -⟩ | ⟨rest, hcons, hstep⟩ | ⟨rest, hcons, hstep⟩ :=
    h.server.step_poll_cases hc h.polling h.serverBroken
  · exact absurd hnil hdue
  · rw [hstep]
    simp only [work, hcons, List.count_cons_self, List.count_cons_of_ne (show Wc.recv ≠ .send by decide)]
    omega
  · rw [hstep]
    simp only [work, hcons, List.count_cons_self, List.count_cons_of_ne (show Wc.send ≠ .recv by decide)]
    omega

theorem work_serverTransmit (h : s.Inv c sc) (hdue : s.server.qp.unsent ≠ 0) :
    (s.act c sc .serverTransmit).work c < s.work c := by
  rw [act, Qp.transmit_eq h.serverBroken hdue]
  dsimp only
  rw [Server.step_transmit h.polling h.serverBroken hdue]
  simp only [work, List.length_append, List.length_singleton]
  omega

theorem work_serverAck (h : s.Inv c sc) (hc : sc.Roomy) (hdue : s.takenBack ≠ 0) :
    (s.act c sc .serverAck).work c < s.work c := by
  have hsent := h.serverSent
  rw [act, if_neg hdue, h.server.step_acknowledge hc h.polling h.serverBroken (by omega)]
  simp only [work, List.count_append, List.count_singleton_self, List.count_singleton,
    show (Wc.send == Wc.recv) = false from rfl, Bool.false_eq_true, if_false]
  omega

theorem work_serverArrive (h : s.Inv c sc) (hc : sc.Roomy) (hsize : sc.msgSize = c.msgSize) (hne : s.toServer ≠ [])
    (hrecvs : s.server.qp.recvs ≠ 0) : (s.act c sc .serverArrive).work c < s.work c := by
  obtain ⟨msg, rest, hserver⟩ := List.exists_cons_of_ne_nil hne
  have hmsg : msg = c.payload := h.toServer msg (by rw [hserver]; exact List.mem_cons_self)
  have hlength : msg.length ≤ sc.msgSize := Nat.le_of_eq (by rw [hmsg, length_payload, hsize])
  rw [act, hserver, h.server.balanced.receive_eq hc.cqe h.serverBroken hrecvs]
  dsimp only
  rw [h.server.step_arrive hc h.polling h.serverBroken hlength hrecvs]
  simp only [work, hserver, List.length_cons, List.count_append, List.count_singleton_self, List.count_singleton,
    show (Wc.recv == Wc.send) = false from rfl, Bool.false_eq_true, if_false]
  omega

theorem work_of_due (h : s.Inv c sc) (hcounted : s.client.Counted c) (hc : sc.Roomy) (hsize : sc.msgSize = c.msgSize)
    {a : PingAct} (hdue : s.Due a) : (s.step c sc a).work c < s.work c := by
  obtain ⟨hopen, hdue⟩ := hdue
  rw [step, if_neg hopen]
  cases a with
  | client now limit =>
    have hless := hcounted.work_step h.phase h.clientBroken hopen hdue now limit
    simp only [work, act]
    omega
  | clientTransmit => exact work_clientTransmit h hdue
  | clientAck => exact work_clientAck h hopen hdue
  | clientArrive => exact work_clientArrive h hopen hdue
  | server => exact work_server h hc hdue
  | serverTransmit => exact work_serverTransmit h hdue
  | serverAck => exact work_serverAck h hc hdue
  | serverArrive => exact work_serverArrive h hc hsize hdue.1 hdue.2

theorem step_of_not_due {a : PingAct} (h : s.Inv c sc) (hc : sc.Roomy) (hdue : ¬s.Due a) : s.step c sc a = s := by
  rw [step]
  split_ifs with hopen
  · rfl
  have hidle := fun hd => hdue ⟨hopen, hd⟩
  cases a with
  | client now limit =>
    obtain ⟨hpost, hrest⟩ := not_or.mp hidle
    obtain ⟨hrepost, hcq⟩ := not_or.mp hrest
    have hpoll : s.client.qp.poll = none := by rw [Qp.poll, not_not.mp hcq]
    have hstep : s.client.step c now limit = s.client := by
      unfold Client.step
      split
      · exact absurd ‹_› hpost
      · rw [hpoll]
      · rw [hpoll]
      · exact absurd ‹_› hrepost
      all_goals rfl
    rw [act, hstep]
  | clientTransmit => rw [act, Qp.transmit, if_pos (.inr (not_not.mp hidle))]
  | clientAck => rw [act, if_pos (not_not.mp hidle)]
  | clientArrive => rw [act, not_not.mp hidle]
  | server =>
    obtain ⟨-, hstep⟩ | ⟨rest, hcons, -⟩ | ⟨rest, hcons, -⟩ := h.server.step_poll_cases hc h.polling h.serverBroken
    · rw [act, hstep]
    · exact absurd (by rw [hcons]; exact List.cons_ne_nil _ _) hidle
    · exact absurd (by rw [hcons]; exact List.cons_ne_nil _ _) hidle
  | serverTransmit => rw [act, Qp.transmit, if_pos (.inr (not_not.mp hidle))]
  | serverAck => rw [act, if_pos (not_not.mp hidle)]
  | serverArrive =>
    rw [act]
    rcases hserver : s.toServer with - | ⟨msg, rest⟩
    · rfl
    · have hrecvs : s.server.qp.recvs = 0 := by
        by_contra hne
        exact hidle ⟨by rw [hserver]; exact List.cons_ne_nil _ _, hne⟩
      rw [Qp.receive, if_pos (.inr hrecvs)]

/-! ### The end -/

theorem Inv.server_recvs (h : s.Inv c sc) (hclient : s.toClient = []) (hback : s.takenBack = 0)
    (hcq : s.server.qp.cq = []) (hunsent : s.server.qp.unsent = 0) : s.server.qp.recvs = sc.prepost := by
  have htotal := h.server.balanced.total
  have hsent := h.serverSent
  simp only [Qp.receives, Qp.sends, hcq, hunsent, List.count_nil] at htotal
  rw [hclient, hback, List.length_nil] at hsent
  omega

theorem Inv.ended_of_rest (h : s.Inv c sc) (hprepost : 0 < sc.prepost) (hrest : ∀ a, ¬s.Due a) :
    s.client.ended = true := by
  by_contra hopen
  have hpost : s.client.pc ≠ .post := fun hpc => hrest (.client 0#64 0) ⟨hopen, .inl hpc⟩
  have hrepost : s.client.pc ≠ .repost := fun hpc => hrest (.client 0#64 0) ⟨hopen, .inr (.inl hpc)⟩
  have hcq : s.client.qp.cq = [] := by
    by_contra hne
    exact hrest (.client 0#64 0) ⟨hopen, .inr (.inr hne)⟩
  have hunsent : s.client.qp.unsent = 0 := by
    by_contra hne
    exact hrest .clientTransmit ⟨hopen, hne⟩
  have htaken : s.taken = 0 := by
    by_contra hne
    exact hrest .clientAck ⟨hopen, hne⟩
  have hclient : s.toClient = [] := by
    by_contra hne
    exact hrest .clientArrive ⟨hopen, hne⟩
  have hscq : s.server.qp.cq = [] := by
    by_contra hne
    exact hrest .server ⟨hopen, hne⟩
  have hsunsent : s.server.qp.unsent = 0 := by
    by_contra hne
    exact hrest .serverTransmit ⟨hopen, hne⟩
  have hback : s.takenBack = 0 := by
    by_contra hne
    exact hrest .serverAck ⟨hopen, hne⟩
  -- So all receives of the server are posted, and no message waits for one.
  have hrecvs := h.server_recvs hclient hback hscq hsunsent
  have hserver : s.toServer = [] := by
    by_contra hne
    exact hrest .serverArrive ⟨hopen, hne, by omega⟩
  have hflight : s.flight = 0 := by
    rw [flight, hunsent, hserver, hsunsent, hscq, hclient]
    rfl
  have hsent := h.clientSent
  rw [hserver, htaken, List.length_nil] at hsent
  have hnone : s.client.qp.sends = 0 := by
    rw [Qp.sends, hunsent, hsent, hcq]
    rfl
  -- A client that waits has a message under way, or a send that is not acknowledged.
  have hphase := h.phase
  obtain ⟨hdone, hdied, hmemory⟩ := not_ended hopen
  cases hpc : s.client.pc with
  | post => exact hpost hpc
  | waitSend =>
    rw [hpc] at hphase
    have := hphase.1.sends
    omega
  | waitRecv =>
    rw [hpc] at hphase
    obtain ⟨heq, ⟨-, hb⟩ | ⟨-, hb⟩⟩ := hphase
    · have hreceives := hb.receives
      rw [Qp.receives, hcq, List.count_nil] at hreceives
      omega
    · have := hb.sends
      omega
  | repost => exact hrepost hpc
  | done => exact hdone hpc
  | died => exact hdied hpc
  | noMemory => exact hmemory hpc

theorem counted_step (h : s.client.Counted c) (a : PingAct) : (s.step c sc a).client.Counted c := by
  rw [step]
  split_ifs
  · exact h
  · cases a with
    | client now limit => exact h.step now limit
    | clientTransmit =>
      rw [act]
      split
      · exact h
      · exact h.withQp _ _
    | clientAck =>
      rw [act]
      split_ifs
      · exact h
      · split
        · exact h
        · exact h.withQp _ _
    | clientArrive =>
      rw [act]
      split
      · exact h.withQp _ _
      · exact h
    | server => exact h
    | serverTransmit =>
      rw [act]
      split
      · exact h
      · exact h
    | serverAck =>
      rw [act]
      split_ifs
      · exact h
      · exact h
    | serverArrive =>
      rw [act]
      split
      · exact h
      · exact h

theorem Inv.finished (h : s.Inv c sc) (hcounted : s.client.Counted c) (hended : s.client.ended = true) :
    s.client.Finished c s.overtaken := by
  have hphase := h.phase
  rw [Client.ended] at hended
  rw [Client.Finished]
  split at hended
  · rename_i hpc
    rw [hpc] at hphase
    have ho : s.overtaken = false := hphase
    have hround := hcounted.done hpc
    refine (if_neg (by rw [ho]; exact Bool.false_ne_true)).mpr (.inl ⟨hpc, hround, fun hts => ?_⟩)
    have hlength := hcounted.length (by rw [hpc]; decide) hts
    rw [hround, hpc, if_neg fun hr => absurd hr.1 (by decide), ClientConfig.rounds, Nat.add_sub_cancel_left,
      Nat.add_zero] at hlength
    exact ⟨by rw [hcounted.idx, hlength], hcounted.sum (by rw [hpc]; decide) hts, hcounted.bounds⟩
  · rename_i hpc
    rw [hpc] at hphase
    exact (if_pos hphase).mpr hpc
  · rename_i hpc
    rw [hpc] at hphase
    have ho : s.overtaken = false := hphase
    exact (if_neg (by rw [ho]; exact Bool.false_ne_true)).mpr (.inr ⟨hcounted.memory hpc, hpc⟩)
  · cases hended

end Ping

/-- The client comes to its end after at most as many steps as there is work. All rounds were run and recorded as
    far as there was memory, unless an echo overtook the acknowledgement of its request. -/
theorem ping_ends (c : ClientConfig) {sc : Config} (hc : sc.Roomy) (hprepost : 0 < sc.prepost)
    (hsize : sc.msgSize = c.msgSize) (as : List PingAct) :
    Run.Always (Ping.step c sc) (Ping.start c sc) as fun s =>
      ∀ ds, Run.Guarded (Ping.step c sc) s ds (fun s a => s.step c sc a ≠ s) →
        ds.length ≤ s.work c ∧
          ((∀ a, (ds.foldl (Ping.step c sc) s).step c sc a = ds.foldl (Ping.step c sc) s) →
            (ds.foldl (Ping.step c sc) s).client.Finished c (ds.foldl (Ping.step c sc) s).overtaken) := by
  have hall : Run.Always (Ping.step c sc) (Ping.start c sc) as fun s => s.Inv c sc ∧ s.client.Counted c :=
    Run.always_of_step ⟨Ping.inv_start c hc, Client.counted_start c⟩
      fun s a h => ⟨h.1.step hc hsize a, Ping.counted_step h.2 a⟩
  refine hall.mono fun s h ds hds => ?_
  have hstep : ∀ (s : Ping) (a : PingAct), s.Inv c sc ∧ s.client.Counted c → s.step c sc a ≠ s →
      ((s.step c sc a).Inv c sc ∧ (s.step c sc a).client.Counted c) ∧ (s.step c sc a).work c < s.work c := by
    intro s a h hne
    have hdue : s.Due a := by
      by_contra hdue
      exact hne (Ping.step_of_not_due h.1 hc hdue)
    exact ⟨⟨h.1.step hc hsize a, Ping.counted_step h.2 a⟩, Ping.work_of_due h.1 h.2 hc hsize hdue⟩
  obtain ⟨hle, hinv, hcounted⟩ := Run.length_le_of_guarded (fun s : Ping => s.Inv c sc ∧ s.client.Counted c) h hstep hds
  refine ⟨by omega, fun hrest => hinv.finished hcounted (hinv.ended_of_rest hprepost fun a hdue => ?_)⟩
  have hless := Ping.work_of_due hinv hcounted hc hsize hdue
  rw [hrest a] at hless
  exact Nat.lt_irrefl _ hless

theorem ping_ends_server :
    Run.Always (Ping.step ⟨64, 10000, true⟩ (server 64)) (Ping.start ⟨64, 10000, true⟩ (server 64)) [.clientTransmit]
      fun s => ∀ ds, Run.Guarded (Ping.step ⟨64, 10000, true⟩ (server 64)) s ds
          (fun s a => s.step ⟨64, 10000, true⟩ (server 64) a ≠ s) →
        ds.length ≤ s.work ⟨64, 10000, true⟩ ∧
          ((∀ a, (ds.foldl (Ping.step ⟨64, 10000, true⟩ (server 64)) s).step ⟨64, 10000, true⟩ (server 64) a =
              ds.foldl (Ping.step ⟨64, 10000, true⟩ (server 64)) s) →
            (ds.foldl (Ping.step ⟨64, 10000, true⟩ (server 64)) s).client.Finished ⟨64, 10000, true⟩
              (ds.foldl (Ping.step ⟨64, 10000, true⟩ (server 64)) s).overtaken) :=
  ping_ends ⟨64, 10000, true⟩ (server_roomy 64) (by decide) rfl [.clientTransmit]

end FireMarshal.Rdma
