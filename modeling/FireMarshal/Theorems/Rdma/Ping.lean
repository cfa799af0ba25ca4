import FireMarshal.Rdma.Ping
import FireMarshal.Theorems.Rdma.Echo

/-! A client with its server. One message is under way at a time, so the buffer that all receives of the server share
    is sent back before the next message overwrites it; the client ends early exactly if an echo overtakes the
    acknowledgement of its request. -/

namespace FireMarshal.Rdma

open Verbs

variable {c : ClientConfig} {sc : Config}

/-! ### The server -/

namespace Server

variable {s : Server}

theorem step_work (hpolling : s.status = .polling) (w : Work) : s.step sc (.work w) = s.work sc w := by
  rw [Server.step, if_neg (not_not.mpr hpolling)]

theorem step_transmit (hpolling : s.status = .polling) (hbroken : s.qp.broken = false) (h : s.qp.unsent ≠ 0) :
    s.step sc (.work .transmit) =
      { s with
        qp := { s.qp with unsent := s.qp.unsent - 1, sent := s.qp.sent + 1 }
        echoes := s.echoes ++ [s.rxbuf] } := by
  rw [step_work hpolling, work, Qp.transmit_eq hbroken h]

theorem Inv.step_acknowledge (hinv : s.Inv sc) (hc : sc.Roomy) (hpolling : s.status = .polling)
    (hbroken : s.qp.broken = false) (h : s.qp.sent ≠ 0) :
    s.step sc (.work .acknowledge) =
      { s with qp := { s.qp with sent := s.qp.sent - 1, cq := s.qp.cq ++ [.send] } } := by
  rw [step_work hpolling, Server.work, hinv.balanced.acknowledge_eq hc.cqe hbroken h]
  rfl

theorem Inv.step_arrive {msg : List UInt8} (hinv : s.Inv sc) (hc : sc.Roomy) (hpolling : s.status = .polling)
    (hbroken : s.qp.broken = false) (hmsg : msg.length ≤ sc.msgSize) (h : s.qp.recvs ≠ 0) :
    s.step sc (.work (.arrive msg)) =
      { s with
        qp := { s.qp with recvs := s.qp.recvs - 1, cq := s.qp.cq ++ [.recv] }
        rxbuf := store s.rxbuf msg
        received := s.received ++ [msg] } := by
  rw [step_work hpolling, Server.work, if_neg (Nat.not_lt.mpr hmsg), hinv.balanced.receive_eq hc.cqe hbroken h]

theorem Inv.step_poll_cases (hinv : s.Inv sc) (hc : sc.Roomy) (hpolling : s.status = .polling)
    (hbroken : s.qp.broken = false) :
    (s.qp.cq = [] ∧ s.step sc .poll = s) ∨
    (∃ rest, s.qp.cq = .recv :: rest ∧
      s.step sc .poll = { s with qp := { s.qp with cq := rest, unsent := s.qp.unsent + 1 } }) ∨
    (∃ rest, s.qp.cq = .send :: rest ∧
      s.step sc .poll = { s with qp := { s.qp with cq := rest, recvs := s.qp.recvs + 1 } }) := by
  have htotal := hinv.balanced.total
  have hsend := hc.send
  have hrecv := hc.recv
  rw [Server.step, if_neg (not_not.mpr hpolling)]
  obtain ⟨hnil, hpoll⟩ | ⟨wc, rest, hwc, hcons, hpoll⟩ := hinv.balanced.poll_cases hbroken
  · exact .inl ⟨hnil, poll_of_none hpoll⟩
  · simp only [Qp.receives, Qp.sends, hcons] at htotal
    cases wc with
    | error => exact absurd rfl hwc
    | recv =>
      simp only [List.count_cons_self, List.count_cons_of_ne (show Wc.recv ≠ .send by decide)] at htotal
      refine .inr (.inl ⟨rest, hcons, ?_⟩)
      show s.poll sc = _
      rw [poll_of_recv hpoll, Qp.postSend_eq (q := { s.qp with cq := rest }) hbroken (by simp only [Qp.sends]; omega),
        post]
    | send =>
      simp only [List.count_cons_self, List.count_cons_of_ne (show Wc.send ≠ .recv by decide)] at htotal
      refine .inr (.inr ⟨rest, hcons, ?_⟩)
      show s.poll sc = _
      rw [poll_of_send hpoll, Qp.postRecv_eq (q := { s.qp with cq := rest }) hbroken
        (by simp only [Qp.receives]; omega), post]

theorem prepost_broken (k : Nat) (h : s.qp.broken = false) : (prepost sc k s).qp.broken = false := by
  induction k generalizing s with
  | zero => exact h
  | succ k ih =>
    rw [prepost]
    by_cases hroom : s.qp.receives < sc.caps.maxRecvWr
    · rw [Qp.postRecv_eq h hroom]
      exact ih h
    · rw [Qp.postRecv, if_neg hroom]
      exact h

theorem Inv.rxbuf_eq {p : List UInt8} (hinv : s.Inv sc) (hp : p.length = sc.msgSize) (hall : ∀ m ∈ s.received, m = p)
    (hne : s.received ≠ []) : s.rxbuf = p := by
  obtain ⟨msgs, m, hsplit⟩ : ∃ msgs m, s.received = msgs ++ [m] :=
    ⟨_, _, (List.dropLast_append_getLast hne).symm⟩
  have hm : m = p := hall m (by rw [hsplit]; exact List.mem_append_right _ List.mem_cons_self)
  rw [hinv.rxbuf, hsplit, List.foldl_append, List.foldl_cons, List.foldl_nil, hm]
  refine store_of_length (hp.trans (length_foldl_store List.length_replicate fun m hm => hinv.fits m ?_).symm)
  rw [hsplit]
  exact List.mem_append_left _ hm

end Server

/-! ### The client -/

/-- The client has posted `recvs` receives and `sends` sends that it has not polled. -/
structure Busy (q : Qp) (recvs sends : Nat) : Prop where
  balanced : q.Balanced (recvs + sends)
  receives : q.receives = recvs
  sends : q.sends = sends

/-- What a client waits for, with `flight` messages under way. An echo that overtakes the acknowledgement of its request
    is the first completion of its round. -/
def Phase (q : Qp) (flight : Nat) (overtaken : Bool) : ClientPc → Prop
  | .post => Busy q 1 0 ∧ q.cq = [] ∧ flight = 0 ∧ overtaken = false
  | .waitSend => Busy q 1 1 ∧ flight = q.recvs ∧ (overtaken = true ↔ q.cq.head? = some .recv)
  | .waitRecv => flight = q.recvs ∧ (overtaken = false ∧ Busy q 1 0 ∨ overtaken = true ∧ Busy q 0 1)
  | .repost => Busy q 0 0 ∧ flight = 0 ∧ overtaken = false
  | .done | .noMemory => overtaken = false
  | .died => overtaken = true

section Phase

variable {q : Qp} {flight recvs sends : Nat} {overtaken : Bool} {pc : ClientPc}

theorem Busy.length_cq (h : Busy q recvs sends) (hbroken : q.broken = false) :
    q.cq.length = q.cq.count .recv + q.cq.count .send := by
  have hzero := List.count_eq_zero.mpr (h.balanced.clean hbroken)
  rw [Qp.length_eq_counts, hzero, Nat.add_zero]

theorem Phase.balanced (h : Phase q flight overtaken pc) (hpc : pc ≠ .done ∧ pc ≠ .died ∧ pc ≠ .noMemory) :
    ∃ n, n ≤ clientCaps.cqe ∧ q.Balanced n := by
  cases pc with
  | post => exact ⟨_, by decide, h.1.balanced⟩
  | waitSend => exact ⟨_, by decide, h.1.balanced⟩
  | waitRecv =>
    obtain ⟨-, ⟨-, hb⟩ | ⟨-, hb⟩⟩ := h
    · exact ⟨_, by decide, hb.balanced⟩
    · exact ⟨_, by decide, hb.balanced⟩
  | repost => exact ⟨_, by decide, h.1.balanced⟩
  | done => exact absurd rfl hpc.1
  | died => exact absurd rfl hpc.2.1
  | noMemory => exact absurd rfl hpc.2.2

theorem Busy.transmit (h : Busy q recvs sends) (hbroken : q.broken = false) (hunsent : q.unsent ≠ 0) :
    Busy { q with unsent := q.unsent - 1, sent := q.sent + 1 } recvs sends := by
  obtain ⟨hbalanced, -, -⟩ := h.balanced.transmit (Qp.transmit_eq hbroken hunsent)
  have hsends := h.sends
  refine ⟨hbalanced, h.receives, ?_⟩
  simp only [Qp.sends] at hsends ⊢
  omega

theorem Phase.transmit (h : Phase q flight overtaken pc) (hbroken : q.broken = false) (hunsent : q.unsent ≠ 0) :
    Phase { q with unsent := q.unsent - 1, sent := q.sent + 1 } flight overtaken pc := by
  cases pc with
  | post => exact ⟨h.1.transmit hbroken hunsent, h.2⟩
  | waitSend => exact ⟨h.1.transmit hbroken hunsent, h.2⟩
  | waitRecv =>
    obtain ⟨hflight, ⟨ho, hb⟩ | ⟨ho, hb⟩⟩ := h
    · exact ⟨hflight, .inl ⟨ho, hb.transmit hbroken hunsent⟩⟩
    · exact ⟨hflight, .inr ⟨ho, hb.transmit hbroken hunsent⟩⟩
  | repost => exact ⟨h.1.transmit hbroken hunsent, h.2⟩
  | done => exact h
  | died => exact h
  | noMemory => exact h

theorem Busy.acknowledge (h : Busy q recvs sends) (hn : recvs + sends ≤ clientCaps.cqe) (hbroken : q.broken = false)
    (hsent : q.sent ≠ 0) : Busy { q with sent := q.sent - 1, cq := q.cq ++ [.send] } recvs sends := by
  obtain ⟨hbalanced, -⟩ := h.balanced.acknowledge hn (h.balanced.acknowledge_eq hn hbroken hsent)
  have hreceives := h.receives
  have hsends := h.sends
  refine ⟨hbalanced, ?_, ?_⟩
  · simpa [Qp.receives] using hreceives
  · simp only [Qp.sends, List.count_append, List.count_singleton_self] at hsends ⊢
    omega

theorem head?_append_of_ne {wcs : List Wc} {wc wc' : Wc} (h : wc' ≠ wc) :
    (wcs ++ [wc']).head? = some wc ↔ wcs.head? = some wc := by
  cases wcs with
  | nil => simp [h]
  | cons => simp

theorem Phase.acknowledge (h : Phase q flight overtaken pc) (hbroken : q.broken = false) (hsent : q.sent ≠ 0) :
    Phase { q with sent := q.sent - 1, cq := q.cq ++ [.send] } flight overtaken pc := by
  cases pc with
  | post =>
    have hsends := h.1.sends
    simp only [Qp.sends] at hsends
    omega
  | waitSend =>
    obtain ⟨hb, hflight, ho⟩ := h
    exact ⟨hb.acknowledge (by decide) hbroken hsent, hflight, ho.trans (head?_append_of_ne (by decide)).symm⟩
  | waitRecv =>
    obtain ⟨hflight, ⟨ho, hb⟩ | ⟨ho, hb⟩⟩ := h
    · exact ⟨hflight, .inl ⟨ho, hb.acknowledge (by decide) hbroken hsent⟩⟩
    · exact ⟨hflight, .inr ⟨ho, hb.acknowledge (by decide) hbroken hsent⟩⟩
  | repost =>
    have hsends := h.1.sends
    simp only [Qp.sends] at hsends
    omega
  | done => exact h
  | died => exact h
  | noMemory => exact h

theorem Busy.receive (h : Busy q recvs sends) (hn : recvs + sends ≤ clientCaps.cqe) (hbroken : q.broken = false)
    (hrecvs : q.recvs ≠ 0) : Busy { q with recvs := q.recvs - 1, cq := q.cq ++ [.recv] } recvs sends := by
  obtain ⟨hbalanced, -⟩ := h.balanced.receive hn (h.balanced.receive_eq hn hbroken hrecvs)
  have hreceives := h.receives
  have hsends := h.sends
  refine ⟨hbalanced, ?_, ?_⟩
  · simp only [Qp.receives, List.count_append, List.count_singleton_self] at hreceives ⊢
    omega
  · simpa [Qp.sends] using hsends

theorem Phase.receive (h : Phase q flight overtaken pc) (hpc : pc ≠ .done ∧ pc ≠ .died ∧ pc ≠ .noMemory)
    (hbroken : q.broken = false) (hrecvs : q.recvs ≠ 0) (hflight : q.unsent < flight) :
    Phase { q with recvs := q.recvs - 1, cq := q.cq ++ [.recv] } (flight - 1)
      (overtaken || q.unsent + q.sent != 0) pc := by
  cases pc with
  | post => obtain ⟨-, -, hzero, -⟩ := h; omega
  | waitSend =>
    obtain ⟨hb, hfl, ho⟩ := h
    have hreceives := hb.receives
    have hsends := hb.sends
    have hlength := hb.length_cq hbroken
    simp only [Qp.receives] at hreceives
    simp only [Qp.sends] at hsends
    refine ⟨hb.receive (by decide) hbroken hrecvs, by show flight - 1 = q.recvs - 1; omega, ?_⟩
    by_cases hsent : q.sent = 0
    · -- The request is acknowledged, and its completion comes first.
      obtain ⟨wc, hwc⟩ := List.length_eq_one_iff.mp (show q.cq.length = 1 by omega)
      have hcount : q.cq.count .send = 1 := by omega
      obtain rfl : wc = .send := by
        rw [hwc] at hcount
        by_contra hne
        rw [List.count_singleton, if_neg (by simpa using hne)] at hcount
        cases hcount
      rw [hwc] at ho
      simpa [hsent, show q.unsent = 0 by omega, hwc] using ho
    · have hnil : q.cq = [] := List.length_eq_zero_iff.mp (by omega)
      simp [hnil, hsent]
  | waitRecv =>
    obtain ⟨hfl, ⟨ho, hb⟩ | ⟨ho, hb⟩⟩ := h
    · have hsends := hb.sends
      simp only [Qp.sends] at hsends
      refine ⟨by show flight - 1 = q.recvs - 1; omega, .inl ⟨?_, hb.receive (by decide) hbroken hrecvs⟩⟩
      rw [ho, show q.unsent + q.sent = 0 by omega]
      rfl
    · have hreceives := hb.receives
      simp only [Qp.receives] at hreceives
      omega
  | repost =>
    have hreceives := h.1.receives
    simp only [Qp.receives] at hreceives
    omega
  | done => exact absurd rfl hpc.1
  | died => exact absurd rfl hpc.2.1
  | noMemory => exact absurd rfl hpc.2.2

theorem Busy.poll_send {rest : List Wc} (h : Busy q recvs (sends + 1)) (hcq : q.cq = .send :: rest) :
    Busy { q with cq := rest } recvs sends := by
  have hreceives := h.receives
  have hsends := h.sends
  refine ⟨h.balanced.poll (by rw [Qp.poll, hcq]) (by decide), ?_, ?_⟩
  · simpa [Qp.receives, hcq] using hreceives
  · simp only [Qp.sends, hcq, List.count_cons_self] at hsends ⊢
    omega

theorem Busy.poll_recv {rest : List Wc} (h : Busy q (recvs + 1) sends) (hcq : q.cq = .recv :: rest) :
    Busy { q with cq := rest } recvs sends := by
  have hreceives := h.receives
  have hsends := h.sends
  have hbalanced := h.balanced
  rw [Nat.add_right_comm] at hbalanced
  refine ⟨hbalanced.poll (by rw [Qp.poll, hcq]) (by decide), ?_, ?_⟩
  · simp only [Qp.receives, hcq, List.count_cons_self] at hreceives ⊢
    omega
  · simpa [Qp.sends, hcq] using hsends

end Phase

namespace Client

variable {s : Client} {flight : Nat} {overtaken : Bool} {now : BitVec 64} {limit : Nat}

theorem record_frame (c : ClientConfig) (s : Client) (now : BitVec 64) (limit : Nat) :
    (s.record c now limit).qp = s.qp ∧ (s.record c now limit).buf = s.buf ∧
      (s.record c now limit).round = s.round ∧
      ((s.record c now limit).pc = .repost ∨ (s.record c now limit).pc = .noMemory) := by
  unfold record
  split
  · exact ⟨rfl, rfl, rfl, .inl rfl⟩
  · split
    · split
      · exact ⟨rfl, rfl, rfl, .inr rfl⟩
      · exact ⟨rfl, rfl, rfl, .inl rfl⟩
    · exact ⟨rfl, rfl, rfl, .inl rfl⟩

structure Steps (s s' : Client) (flight : Nat) (overtaken : Bool) (k : Nat) : Prop where
  phase : Phase s'.qp (flight + k) overtaken s'.pc
  unsent : s'.qp.unsent = s.qp.unsent + k
  sent : s'.qp.sent = s.qp.sent
  broken : s'.qp.broken = false
  buf : s'.buf = s.buf

theorem steps_refl (h : Phase s.qp flight overtaken s.pc) (hbroken : s.qp.broken = false) :
    Steps s s flight overtaken 0 := ⟨h, rfl, rfl, hbroken, rfl⟩

theorem steps_post (hpc : s.pc = .post) (h : Phase s.qp flight overtaken s.pc) (hbroken : s.qp.broken = false) :
    Steps s (s.step c now limit) flight overtaken 1 := by
  rw [hpc] at h
  obtain ⟨hb, hnil, hflight, ho⟩ := h
  have hreceives := hb.receives
  have hsends := hb.sends
  have hpost := Qp.postSend_eq (c := clientCaps) hbroken (by rw [hsends]; decide)
  obtain ⟨qp, hpost', hbalanced, -⟩ := hb.balanced.postSend (c := clientCaps) (by decide) (by decide)
  obtain rfl := Option.some.inj (hpost.symm.trans hpost')
  simp only [Client.step, hpc, hpost]
  refine ⟨⟨⟨hbalanced, hreceives, ?_⟩, ?_, ?_⟩, rfl, rfl, hbroken, rfl⟩
  · simp only [Qp.sends] at hsends ⊢
    omega
  · simp only [Qp.receives, hnil, List.count_nil] at hreceives
    dsimp only
    omega
  · simp [hnil, ho]

theorem steps_waitSend (hpc : s.pc = .waitSend) (h : Phase s.qp flight overtaken s.pc) (hbroken : s.qp.broken = false) :
    Steps s (s.step c now limit) flight overtaken 0 := by
  have hphase := h
  rw [hpc] at h
  obtain ⟨hb, hflight, ho⟩ := h
  rw [Client.step, hpc]
  dsimp only
  obtain ⟨-, hpoll⟩ | ⟨wc, rest, hwc, hcons, hpoll⟩ := hb.balanced.poll_cases hbroken
  · rw [hpoll]
    exact steps_refl hphase hbroken
  · rw [hpoll]
    rw [hcons, List.head?_cons, Option.some.injEq] at ho
    dsimp only
    cases wc with
    | error => exact absurd rfl hwc
    | send =>
      rw [if_neg (by simp)]
      have ho' : overtaken = false := by simpa using ho
      exact ⟨⟨hflight, .inl ⟨ho', hb.poll_send hcons⟩⟩, rfl, rfl, hbroken, rfl⟩
    | recv =>
      have ho' : overtaken = true := ho.mpr rfl
      by_cases hts : c.ts = true
      · rw [if_pos (.inr ⟨hts, by decide⟩)]
        exact ⟨ho', rfl, rfl, hbroken, rfl⟩
      · rw [if_neg (by simp [hts])]
        exact ⟨⟨hflight, .inr ⟨ho', hb.poll_recv hcons⟩⟩, rfl, rfl, hbroken, rfl⟩

theorem steps_waitRecv (hpc : s.pc = .waitRecv) (h : Phase s.qp flight overtaken s.pc) (hbroken : s.qp.broken = false) :
    Steps s (s.step c now limit) flight overtaken 0 := by
  have hphase := h
  rw [hpc] at h
  obtain ⟨hflight, hb⟩ := h
  have hbalanced : s.qp.Balanced 1 := by
    obtain ⟨-, hb⟩ | ⟨-, hb⟩ := hb
    · exact hb.balanced
    · exact hb.balanced
  rw [Client.step, hpc]
  dsimp only
  obtain ⟨-, hpoll⟩ | ⟨wc, rest, hwc, hcons, hpoll⟩ := hbalanced.poll_cases hbroken
  · rw [hpoll]
    exact steps_refl hphase hbroken
  · rw [hpoll]
    dsimp only
    cases wc with
    | error => exact absurd rfl hwc
    | recv =>
      obtain ⟨ho, hb⟩ | ⟨-, hb⟩ := hb
      · have hframe := record_frame c { s with qp := { s.qp with cq := rest }, pc := .waitRecv } now limit
        dsimp only at hframe
        obtain ⟨hqp, hbuf, -, hpc'⟩ := hframe
        have hreceives := hb.receives
        simp only [Qp.receives, hcons, List.count_cons_self] at hreceives
        rw [if_neg (not_not.mpr rfl)]
        refine ⟨?_, by rw [hqp, Nat.add_zero], by rw [hqp], by rw [hqp]; exact hbroken, hbuf⟩
        obtain hpc' | hpc' := hpc'
        · rw [hpc', hqp]
          exact ⟨hb.poll_recv hcons, by omega, ho⟩
        · rw [hpc']
          exact ho
      · -- The echo was taken for the completion of the send.
        have hreceives := hb.receives
        simp only [Qp.receives, hcons, List.count_cons_self] at hreceives
        omega
    | send =>
      obtain ⟨-, hb⟩ | ⟨ho, -⟩ := hb
      · have hsends := hb.sends
        simp only [Qp.sends, hcons, List.count_cons_self] at hsends
        omega
      · rw [if_pos (by decide)]
        exact ⟨ho, rfl, rfl, hbroken, rfl⟩

theorem steps_repost (hpc : s.pc = .repost) (h : Phase s.qp flight overtaken s.pc) (hbroken : s.qp.broken = false) :
    Steps s (s.step c now limit) flight overtaken 0 := by
  rw [hpc] at h
  obtain ⟨hb, hflight, ho⟩ := h
  have hreceives := hb.receives
  have hlength := hb.length_cq hbroken
  have hsends := hb.sends
  have hpost := Qp.postRecv_eq (c := clientCaps) hbroken (by rw [hreceives]; decide)
  obtain ⟨qp, hpost', hbalanced, -⟩ := hb.balanced.postRecv (c := clientCaps) (by decide) (by decide)
  obtain rfl := Option.some.inj (hpost.symm.trans hpost')
  simp only [Client.step, hpc, hpost]
  simp only [Qp.receives] at hreceives
  simp only [Qp.sends] at hsends
  have hnil : s.qp.cq = [] := List.length_eq_zero_iff.mp (by omega)
  refine ⟨?_, rfl, rfl, hbroken, rfl⟩
  split_ifs
  · refine ⟨⟨hbalanced, ?_, ?_⟩, hnil, hflight, ho⟩
    · simp only [Qp.receives]
      omega
    · simp only [Qp.sends]
      omega
  · exact ho

theorem steps_step (c : ClientConfig) (h : Phase s.qp flight overtaken s.pc) (hbroken : s.qp.broken = false)
    (now : BitVec 64) (limit : Nat) :
    ∃ k, Steps s (s.step c now limit) flight overtaken k := by
  cases hpc : s.pc with
  | post => exact ⟨1, steps_post hpc h hbroken⟩
  | waitSend => exact ⟨0, steps_waitSend hpc h hbroken⟩
  | waitRecv => exact ⟨0, steps_waitRecv hpc h hbroken⟩
  | repost => exact ⟨0, steps_repost hpc h hbroken⟩
  | done => exact ⟨0, by rw [Client.step, hpc]; exact steps_refl h hbroken⟩
  | died => exact ⟨0, by rw [Client.step, hpc]; exact steps_refl h hbroken⟩
  | noMemory => exact ⟨0, by rw [Client.step, hpc]; exact steps_refl h hbroken⟩

end Client

/-! ### Both -/

namespace Ping

variable {s : Ping}

/-- The messages under way, from `ibv_post_send` of the client to the completion of its receive. -/
def flight (s : Ping) : Nat :=
  s.client.qp.unsent + s.toServer.length + (s.server.qp.unsent + s.server.qp.cq.count .recv) + s.toClient.length

structure Inv (c : ClientConfig) (sc : Config) (s : Ping) : Prop where
  server : s.server.Inv sc
  polling : s.server.status = .polling
  serverBroken : s.server.qp.broken = false
  serverSent : s.server.qp.sent = s.toClient.length + s.takenBack
  clientBroken : s.client.qp.broken = false
  clientSent : s.client.qp.sent = s.toServer.length + s.taken
  phase : Phase s.client.qp s.flight s.overtaken s.client.pc
  buf : s.client.buf = c.payload
  toServer : ∀ m ∈ s.toServer, m = c.payload
  received : ∀ m ∈ s.server.received, m = c.payload
  toClient : ∀ m ∈ s.toClient, m = c.payload
  echoes : ∀ m ∈ s.server.echoes, m = c.payload

theorem length_payload (c : ClientConfig) : c.payload.length = c.msgSize := List.length_replicate

theorem not_ended (h : ¬s.client.ended = true) :
    s.client.pc ≠ .done ∧ s.client.pc ≠ .died ∧ s.client.pc ≠ .noMemory := by
  refine ⟨fun hpc => h ?_, fun hpc => h ?_, fun hpc => h ?_⟩
  all_goals rw [Client.ended, hpc]

theorem forall_mem_append {α : Type} {p : α → Prop} {xs : List α} {x : α} (h : ∀ y ∈ xs, p y) (hx : p x) :
    ∀ y ∈ xs ++ [x], p y := by
  intro y hy
  rcases List.mem_append.mp hy with hy | hy
  · exact h y hy
  · rw [List.mem_singleton.mp hy]
    exact hx

theorem Inv.client (h : s.Inv c sc) (now : BitVec 64) (limit : Nat) : (s.act c sc (.client now limit)).Inv c sc := by
  obtain ⟨k, hsteps⟩ := Client.steps_step c h.phase h.clientBroken now limit
  have hflight : (s.act c sc (.client now limit)).flight = s.flight + k := by
    have hunsent := hsteps.unsent
    simp only [flight, act]
    omega
  refine ⟨h.server, h.polling, h.serverBroken, h.serverSent, hsteps.broken, hsteps.sent.trans h.clientSent, ?_,
    hsteps.buf.trans h.buf, h.toServer, h.received, h.toClient, h.echoes⟩
  rw [hflight]
  exact hsteps.phase

theorem Inv.clientTransmit (h : s.Inv c sc) : (s.act c sc .clientTransmit).Inv c sc := by
  have hsent := h.clientSent
  rw [act]
  by_cases hunsent : s.client.qp.unsent = 0
  · rw [Qp.transmit, if_pos (.inr hunsent)]
    exact h
  · rw [Qp.transmit_eq h.clientBroken hunsent]
    have hflight : s.flight = _ := rfl
    refine ⟨h.server, h.polling, h.serverBroken, h.serverSent, h.clientBroken, ?_, ?_, h.buf,
      forall_mem_append h.toServer h.buf, h.received, h.toClient, h.echoes⟩
    · simp only [List.length_append, List.length_singleton]
      omega
    · convert h.phase.transmit h.clientBroken hunsent using 1
      simp only [flight, List.length_append, List.length_singleton]
      omega

theorem Inv.clientAck (h : s.Inv c sc) (hopen : ¬s.client.ended = true) : (s.act c sc .clientAck).Inv c sc := by
  have hsent := h.clientSent
  obtain ⟨n, hn, hbalanced⟩ := h.phase.balanced (not_ended hopen)
  rw [act]
  by_cases htaken : s.taken = 0
  · rw [if_pos htaken]
    exact h
  · have hne : s.client.qp.sent ≠ 0 := by omega
    rw [if_neg htaken, hbalanced.acknowledge_eq hn h.clientBroken hne]
    exact ⟨h.server, h.polling, h.serverBroken, h.serverSent, h.clientBroken, by dsimp only; omega,
      h.phase.acknowledge h.clientBroken hne, h.buf, h.toServer, h.received, h.toClient, h.echoes⟩

theorem Inv.clientArrive (h : s.Inv c sc) (hopen : ¬s.client.ended = true) :
    (s.act c sc .clientArrive).Inv c sc := by
  have hserver := h.serverSent
  have hphase := h.phase
  obtain ⟨n, hn, hbalanced⟩ := hphase.balanced (not_ended hopen)
  rw [act]
  rcases hclient : s.toClient with - | ⟨msg, rest⟩
  · exact h
  by_cases hrecvs : s.client.qp.recvs = 0
  · rw [Qp.receive, if_pos (.inr hrecvs)]
    exact h
  rw [hbalanced.receive_eq hn h.clientBroken hrecvs]
  have hmsg : msg = c.payload := h.toClient msg (by rw [hclient]; exact List.mem_cons_self)
  rw [hclient, List.length_cons] at hserver
  have hflight : s.client.qp.unsent < s.flight := by
    simp only [flight, hclient, List.length_cons]
    omega
  refine ⟨h.server, h.polling, h.serverBroken, ?_, h.clientBroken, h.clientSent, ?_, ?_, h.toServer, h.received,
    fun m hm => h.toClient m (by rw [hclient]; exact List.mem_cons_of_mem _ hm), h.echoes⟩
  · dsimp only
    omega
  · convert hphase.receive (not_ended hopen) h.clientBroken hrecvs hflight using 1
    simp only [flight, hclient, List.length_cons]
    omega
  · dsimp only
    rw [h.buf, hmsg]
    exact store_of_length rfl

theorem Inv.server_step (h : s.Inv c sc) (hc : sc.Roomy) : (s.act c sc .server).Inv c sc := by
  have hinv := h.server.step hc .poll
  have hphase := h.phase
  rw [act]
  obtain ⟨-, hstep⟩ | ⟨rest, hcons, hstep⟩ | ⟨rest, hcons, hstep⟩ :=
    h.server.step_poll_cases hc h.polling h.serverBroken
  · rw [hstep]
    exact h
  · rw [hstep] at hinv ⊢
    refine ⟨hinv, h.polling, h.serverBroken, h.serverSent, h.clientBroken, h.clientSent, ?_, h.buf, h.toServer,
      h.received, h.toClient, h.echoes⟩
    convert hphase using 1
    simp only [flight, hcons, List.count_cons_self]
    omega
  · rw [hstep] at hinv ⊢
    refine ⟨hinv, h.polling, h.serverBroken, h.serverSent, h.clientBroken, h.clientSent, ?_, h.buf, h.toServer,
      h.received, h.toClient, h.echoes⟩
    convert hphase using 1
    simp only [flight, hcons, List.count_cons_of_ne (show Wc.send ≠ .recv by decide)]

theorem Inv.rxbuf (h : s.Inv c sc) (hsize : sc.msgSize = c.msgSize) (hunsent : s.server.qp.unsent ≠ 0) :
    s.server.rxbuf = c.payload := by
  refine h.server.rxbuf_eq ((length_payload c).trans hsize.symm) h.received fun hnil => ?_
  have hpending := h.server.pending
  simp only [hnil, List.length_nil, Qp.tally] at hpending
  omega

theorem Inv.serverTransmit (h : s.Inv c sc) (hc : sc.Roomy) (hsize : sc.msgSize = c.msgSize) :
    (s.act c sc .serverTransmit).Inv c sc := by
  have hinv := h.server.step hc (.work .transmit)
  have hserver := h.serverSent
  have hphase := h.phase
  rw [act]
  by_cases hunsent : s.server.qp.unsent = 0
  · rw [Qp.transmit, if_pos (.inr hunsent)]
    exact h
  · have hrxbuf := h.rxbuf hsize hunsent
    rw [Qp.transmit_eq h.serverBroken hunsent]
    rw [Server.step_transmit h.polling h.serverBroken hunsent] at hinv ⊢
    refine ⟨hinv, h.polling, h.serverBroken, ?_, h.clientBroken, h.clientSent, ?_, h.buf, h.toServer, h.received,
      forall_mem_append h.toClient hrxbuf, forall_mem_append h.echoes hrxbuf⟩
    · simp only [List.length_append, List.length_singleton]
      omega
    · convert hphase using 1
      simp only [flight, List.length_append, List.length_singleton]
      omega

theorem Inv.serverAck (h : s.Inv c sc) (hc : sc.Roomy) : (s.act c sc .serverAck).Inv c sc := by
  have hinv := h.server.step hc (.work .acknowledge)
  have hserver := h.serverSent
  have hphase := h.phase
  rw [act]
  by_cases htaken : s.takenBack = 0
  · rw [if_pos htaken]
    exact h
  · rw [if_neg htaken]
    rw [h.server.step_acknowledge hc h.polling h.serverBroken (by omega)] at hinv ⊢
    refine ⟨hinv, h.polling, h.serverBroken, by dsimp only; omega, h.clientBroken, h.clientSent, ?_, h.buf, h.toServer,
      h.received, h.toClient, h.echoes⟩
    convert hphase using 1
    simp [flight]

theorem Inv.serverArrive (h : s.Inv c sc) (hc : sc.Roomy) (hsize : sc.msgSize = c.msgSize) :
    (s.act c sc .serverArrive).Inv c sc := by
  have hclient := h.clientSent
  have hphase := h.phase
  rw [act]
  rcases hserver : s.toServer with - | ⟨msg, rest⟩
  · exact h
  by_cases hrecvs : s.server.qp.recvs = 0
  · rw [Qp.receive, if_pos (.inr hrecvs)]
    exact h
  have hmsg : msg = c.payload := h.toServer msg (by rw [hserver]; exact List.mem_cons_self)
  have hlength : msg.length ≤ sc.msgSize := Nat.le_of_eq (by rw [hmsg, length_payload, hsize])
  have hinv := h.server.step hc (.work (.arrive msg))
  rw [h.server.balanced.receive_eq hc.cqe h.serverBroken hrecvs]
  dsimp only
  rw [h.server.step_arrive hc h.polling h.serverBroken hlength hrecvs] at hinv ⊢
  rw [hserver, List.length_cons] at hclient
  refine ⟨hinv, h.polling, h.serverBroken, h.serverSent, h.clientBroken, by dsimp only; omega, ?_, h.buf,
    fun m hm => h.toServer m (by rw [hserver]; exact List.mem_cons_of_mem _ hm), forall_mem_append h.received hmsg,
    h.toClient, h.echoes⟩
  convert hphase using 1
  simp only [flight, hserver, List.length_cons, List.count_append, List.count_singleton_self]
  omega

theorem Inv.step (h : s.Inv c sc) (hc : sc.Roomy) (hsize : sc.msgSize = c.msgSize) (a : PingAct) :
    (s.step c sc a).Inv c sc := by
  rw [Ping.step]
  split_ifs with hopen
  · exact h
  · cases a with
    | client now limit => exact h.client now limit
    | clientTransmit => exact h.clientTransmit
    | clientAck => exact h.clientAck hopen
    | clientArrive => exact h.clientArrive hopen
    | server => exact h.server_step hc
    | serverTransmit => exact h.serverTransmit hc hsize
    | serverAck => exact h.serverAck hc
    | serverArrive => exact h.serverArrive hc hsize

theorem inv_start (c : ClientConfig) (hc : sc.Roomy) : (start c sc).Inv c sc := by
  have hinv := Server.inv_start hc
  have hbroken : (Server.start sc).qp.broken = false := Server.prepost_broken _ rfl
  obtain ⟨qp, heq, hbalanced, htally⟩ := Server.start_eq hc
  rw [heq] at hinv hbroken
  have hunsent : qp.unsent = 0 := congrArg (·.unsent) htally
  have harrived : qp.cq.count .recv = 0 := congrArg (·.arrived) htally
  have hsends : qp.sends = 0 := congrArg (·.sends) htally
  have hstart : start c sc =
      { client := { qp := { recvs := 1 }, buf := c.payload }
        server := { qp := qp, rxbuf := List.replicate sc.msgSize 0 } } := by
    rw [start, heq]
    rfl
  have hbusy : Busy { recvs := 1 } 1 0 := by
    refine ⟨⟨rfl, fun _ => List.not_mem_nil, Nat.zero_le _, rfl⟩, rfl, rfl⟩
  simp only [Qp.sends] at hsends
  rw [hstart]
  refine ⟨hinv, rfl, hbroken, by show qp.sent = 0; omega, rfl, rfl, ⟨hbusy, rfl, ?_, rfl⟩, rfl, ?_, ?_, ?_, ?_⟩
  · show 0 + 0 + (qp.unsent + qp.cq.count .recv) + 0 = 0
    omega
  all_goals exact fun m hm => absurd hm List.not_mem_nil

theorem inv_always (hc : sc.Roomy) (hsize : sc.msgSize = c.msgSize) (as : List PingAct) :
    Run.Always (step c sc) (start c sc) as (Inv c sc) :=
  Run.always_of_step (inv_start c hc) fun _ a h => h.step hc hsize a

theorem Inv.flight_le (h : s.Inv c sc) (hopen : ¬s.client.ended = true) : s.flight ≤ 1 := by
  have hphase := h.phase
  obtain ⟨hdone, hdied, hmemory⟩ := not_ended hopen
  cases hpc : s.client.pc with
  | post => rw [hpc] at hphase; obtain ⟨-, -, hzero, -⟩ := hphase; omega
  | waitSend =>
    rw [hpc] at hphase
    obtain ⟨hb, heq, -⟩ := hphase
    have hreceives := hb.receives
    simp only [Qp.receives] at hreceives
    omega
  | waitRecv =>
    rw [hpc] at hphase
    obtain ⟨heq, ⟨-, hb⟩ | ⟨-, hb⟩⟩ := hphase
    all_goals
      have hreceives := hb.receives
      simp only [Qp.receives] at hreceives
      omega
  | repost => rw [hpc] at hphase; obtain ⟨-, hzero, -⟩ := hphase; omega
  | done => exact absurd hpc hdone
  | died => exact absurd hpc hdied
  | noMemory => exact absurd hpc hmemory

theorem Inv.faithful (h : s.Inv c sc) : s.server.Echoes := by
  intro k echo hecho
  have hpending := h.server.pending
  have hk : k < s.server.received.length := by
    have := (List.getElem?_eq_some_iff.mp hecho).1
    omega
  rw [h.echoes echo (List.mem_of_getElem? hecho), List.getElem?_eq_getElem hk,
    h.received _ (List.getElem_mem hk)]

end Ping

/-- In every interleaving one message is under way at most, all that is received or sent back has the bytes that the
    client began with, and the client dies only after an echo overtook the acknowledgement of its request. -/
theorem ping_safe (c : ClientConfig) {sc : Config} (hc : sc.Roomy) (hsize : sc.msgSize = c.msgSize)
    (as : List PingAct) :
    Run.Always (Ping.step c sc) (Ping.start c sc) as fun s =>
      s.server.status = .polling ∧ (s.client.ended = false → s.flight ≤ 1) ∧ s.client.buf = c.payload ∧
        (∀ m ∈ s.server.received, m = c.payload) ∧ s.server.Echoes ∧ (s.client.pc = .died → s.overtaken = true) := by
  refine (Ping.inv_always hc hsize as).mono fun s h => ?_
  refine ⟨h.polling, fun hopen => h.flight_le (by rw [hopen]; exact Bool.false_ne_true), h.buf, h.received, h.faithful,
    fun hpc => ?_⟩
  have hphase := h.phase
  rw [hpc] at hphase
  exact hphase

theorem ping_safe_server :
    Run.Always (Ping.step ⟨64, 10000, false⟩ (server 64)) (Ping.start ⟨64, 10000, false⟩ (server 64))
      [.client 0#64 0, .clientTransmit, .serverArrive, .server, .serverTransmit, .clientArrive] fun s =>
        s.server.status = .polling ∧ (s.client.ended = false → s.flight ≤ 1) ∧
          s.client.buf = ClientConfig.payload ⟨64, 10000, false⟩ ∧
          (∀ m ∈ s.server.received, m = ClientConfig.payload ⟨64, 10000, false⟩) ∧ s.server.Echoes ∧
          (s.client.pc = .died → s.overtaken = true) :=
  ping_safe ⟨64, 10000, false⟩ (server_roomy 64) rfl _

end FireMarshal.Rdma
