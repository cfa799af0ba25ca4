import FireMarshal.Theorems.Rdma.Server

namespace FireMarshal.Rdma

variable {c : Config}

/-! ### The buffer -/

section Store

variable {buf msg : List UInt8} {msgs : List (List UInt8)} {n : Nat}

theorem store_of_length (h : msg.length = buf.length) : store buf msg = msg := by
  rw [store, h, List.drop_length, List.append_nil]

theorem length_store (h : msg.length ≤ buf.length) : (store buf msg).length = buf.length := by
  rw [store, List.length_append, List.length_drop]
  omega

theorem length_foldl_store (hbuf : buf.length = n) (hmsgs : ∀ msg ∈ msgs, msg.length ≤ n) :
    (msgs.foldl store buf).length = n := by
  induction msgs generalizing buf with
  | nil => exact hbuf
  | cons msg msgs ih =>
    have hmsg : msg.length ≤ buf.length := by
      rw [hbuf]
      exact hmsgs msg List.mem_cons_self
    exact ih ((length_store hmsg).trans hbuf) fun m hm => hmsgs m (List.mem_cons_of_mem _ hm)

end Store

namespace Server

variable {s : Server} {w : Work}

def Echoes (s : Server) : Prop := ∀ (k : Nat) (echo : List UInt8), s.echoes[k]? = some echo → s.received[k]? = some echo

/-- The next message to be sent back fills the buffer, and what arrived after it left the buffer as it was. -/
def Intact (c : Config) (s : Server) : Prop :=
  ∀ msg later, s.received.drop s.echoes.length = msg :: later → msg.length = c.msgSize ∧ later.foldl store msg = msg

/-- A send that the adapter processes finds the buffer intact. -/
def Clear (c : Config) (s : Server) (w : Work) : Prop :=
  w = .transmit → s.status = .polling → s.qp.transmit.isSome → s.Intact c

theorem Inv.length_rxbuf (h : s.Inv c) : s.rxbuf.length = c.msgSize := by
  rw [h.rxbuf]
  exact length_foldl_store List.length_replicate h.fits

theorem Inv.intact_iff (h : s.Inv c) (hlt : s.echoes.length < s.received.length) :
    s.received[s.echoes.length]? = some s.rxbuf ↔ s.Intact c := by
  obtain ⟨msg, later, hdrop⟩ : ∃ msg later, s.received.drop s.echoes.length = msg :: later :=
    ⟨_, _, List.drop_eq_getElem_cons hlt⟩
  have hsplit : s.received = s.received.take s.echoes.length ++ msg :: later := by
    rw [← hdrop, List.take_append_drop]
  have hget : s.received[s.echoes.length]? = some msg := by rw [← List.head?_drop, hdrop, List.head?_cons]
  generalize htaken : s.received.take s.echoes.length = taken at hsplit
  have htaken : (taken.foldl store (List.replicate c.msgSize 0)).length = c.msgSize := by
    refine length_foldl_store List.length_replicate fun m hm => h.fits m ?_
    rw [hsplit]
    exact List.mem_append_left _ hm
  have hrxbuf : s.rxbuf = later.foldl store (store (taken.foldl store (List.replicate c.msgSize 0)) msg) := by
    rw [h.rxbuf, hsplit, List.foldl_append, List.foldl_cons]
  rw [hget, Option.some.injEq]
  constructor
  · intro heq msg' later' hdrop'
    obtain ⟨rfl, rfl⟩ := List.cons.inj (hdrop.symm.trans hdrop')
    have hlength : msg.length = c.msgSize := by rw [heq, h.length_rxbuf]
    rw [store_of_length (hlength.trans htaken.symm)] at hrxbuf
    exact ⟨hlength, (heq.trans hrxbuf).symm⟩
  · intro hintact
    obtain ⟨hlength, hlater⟩ := hintact msg later hdrop
    rw [hrxbuf, store_of_length (hlength.trans htaken.symm), hlater]

theorem Echoes.mono {s' : Server} (h : s.Echoes) (hechoes : s'.echoes = s.echoes)
    (hreceived : s.received <+: s'.received) : s'.Echoes := by
  intro k echo hecho
  rw [hechoes] at hecho
  exact Table.getElem?_mono hreceived (h k echo hecho)

theorem echoes_concat_iff {s' : Server} {echo : List UInt8} (h : s.Echoes) (hechoes : s'.echoes = s.echoes ++ [echo])
    (hreceived : s'.received = s.received) : s'.Echoes ↔ s.received[s.echoes.length]? = some echo := by
  rw [Echoes, hechoes, hreceived]
  constructor
  · intro hall
    exact hall _ echo (List.getElem?_concat_length ..)
  · intro hlast k echo' hk
    rcases Table.getElem?_concat_iff.mp hk with hk | ⟨rfl, rfl⟩
    · exact h k echo' hk
    · exact hlast

theorem Inv.work_echoes_iff (h : s.Inv c) (hechoes : s.Echoes) (hpolling : s.status = .polling) :
    (s.work c w).Echoes ↔ s.Clear c w := by
  cases w with
  | arrive msg =>
    refine iff_of_true ?_ (by simp [Clear])
    rw [Server.work]
    split_ifs
    · exact hechoes.mono rfl (List.prefix_refl _)
    · split
      next => exact hechoes
      next => exact hechoes.mono rfl (List.prefix_append _ _)
  | transmit =>
    rw [Server.work]
    cases htransmit : s.qp.transmit with
    | none => exact iff_of_true hechoes (by simp [Clear, htransmit])
    | some qp =>
      obtain ⟨-, hne, -⟩ := h.balanced.transmit htransmit
      have hlt : s.echoes.length < s.received.length := by
        have := h.pending
        omega
      have hclear : s.Clear c .transmit ↔ s.Intact c := by simp [Clear, hpolling, htransmit]
      rw [hclear, ← h.intact_iff hlt]
      exact echoes_concat_iff hechoes rfl rfl
  | acknowledge => exact iff_of_true (hechoes.mono rfl (List.prefix_refl _)) (by simp [Clear])
  | fail => exact iff_of_true (hechoes.mono rfl (List.prefix_refl _)) (by simp [Clear])

theorem poll_quiet (c : Config) (s : Server) : Quiet s (s.poll c) := by
  have hpost : ∀ o, Quiet s (s.post o) := by
    intro o
    cases o <;> exact ⟨rfl, rfl, rfl⟩
  unfold poll
  split
  · exact ⟨rfl, rfl, rfl⟩
  · exact ⟨rfl, rfl, rfl⟩
  · exact hpost _
  · exact hpost _

theorem Quiet.echoes_of {s' : Server} (h : Quiet s s') (hechoes : s.Echoes) : s'.Echoes :=
  hechoes.mono h.echoes ⟨[], by rw [List.append_nil, h.received]⟩

structure Faithful (c : Config) (s : Server) : Prop where
  inv : s.Inv c
  echoes : s.Echoes

theorem faithful_start (hc : c.Roomy) : (start c).Faithful c := by
  refine ⟨inv_start hc, ?_⟩
  obtain ⟨qp, heq, -⟩ := start_eq hc
  rw [heq]
  intro k echo hecho
  exact absurd hecho (by simp)

theorem Faithful.step_echoes_iff (h : s.Faithful c) (e : Event) :
    (s.step c e).Echoes ↔ ∀ w, e = .work w → s.Clear c w := by
  unfold Server.step
  by_cases hpolling : s.status = .polling
  · rw [if_neg (not_not.mpr hpolling)]
    cases e with
    | work w =>
      refine (h.inv.work_echoes_iff h.echoes hpolling).trans ?_
      simp
    | poll => exact iff_of_true ((poll_quiet c s).echoes_of h.echoes) (by simp)
  · rw [if_pos hpolling]
    exact iff_of_true h.echoes fun w _ _ h => absurd h hpolling

theorem always_echoes_iff (hc : c.Roomy) (es : List Event) :
    Run.Always (step c) (start c) es Echoes ↔
      Run.Guarded (step c) (start c) es fun s e => ∀ w, e = .work w → s.Clear c w := by
  have hstep : ∀ s e, Faithful c s → (∀ w, e = .work w → s.Clear c w) → Faithful c (s.step c e) :=
    fun s e h hclear => ⟨h.inv.step hc e, (h.step_echoes_iff e).mpr hclear⟩
  exact Run.always_iff_guarded (faithful_start hc) hstep (fun _ h => h.echoes) fun s e h => (h.step_echoes_iff e).not.mpr

end Server

namespace ServerTs

theorem step_echoes_iff {s : ServerTs} (h : s.server.Faithful c) (e : Event) :
    (s.step c e).server.Echoes ↔ ∀ w, e = .work w → s.server.Clear c w := by
  unfold ServerTs.step
  by_cases hpolling : s.server.status = .polling
  · rw [if_neg (not_not.mpr hpolling)]
    cases e with
    | work w =>
      refine (h.inv.work_echoes_iff h.echoes hpolling).trans ?_
      simp
    | poll now limit rowsLimit =>
      have hexit : Server.Quiet s.server s.exit.server := ⟨rfl, rfl, rfl⟩
      have hpoll := Server.poll_quiet c s.server
      refine iff_of_true ?_ (by simp)
      show (s.poll c now limit rowsLimit).server.Echoes
      unfold ServerTs.poll
      split
      · split
        · exact hexit.echoes_of h.echoes
        · exact hpoll.echoes_of h.echoes
      · split
        · exact hpoll.echoes_of h.echoes
        · exact hexit.echoes_of h.echoes
      · exact hpoll.echoes_of h.echoes
    | signal => exact iff_of_true (h.echoes.mono rfl (List.prefix_refl _)) (by simp)
  · rw [if_pos hpolling]
    exact iff_of_true h.echoes fun w _ _ h => absurd h hpolling

theorem always_echoes_iff (hc : c.Roomy) (es : List Event) :
    Run.Always (step c) (start c) es (·.server.Echoes) ↔
      Run.Guarded (step c) (start c) es fun s e => ∀ w, e = .work w → s.server.Clear c w := by
  have h0 : (start c).Inv c ∧ (start c).server.Faithful c := ⟨inv_start hc, Server.faithful_start hc⟩
  have hstep : ∀ (s : ServerTs) e, s.Inv c ∧ s.server.Faithful c → (∀ w, e = .work w → s.server.Clear c w) →
      (s.step c e).Inv c ∧ (s.step c e).server.Faithful c := by
    rintro s e ⟨hinv, h⟩ hclear
    exact ⟨hinv.step hc e, (hinv.step hc e).server, (step_echoes_iff h e).mpr hclear⟩
  exact Run.always_iff_guarded h0 hstep (fun _ h => h.2.echoes) fun s e h => (step_echoes_iff h.2 e).not.mpr

end ServerTs

/-- The servers send back what they received exactly if each send that the adapter processes finds the buffer intact. -/
theorem echoes_iff (msgSize : Nat) :
    (∀ es, Run.Always (Server.step (server msgSize)) (Server.start (server msgSize)) es Server.Echoes ↔
      Run.Guarded (Server.step (server msgSize)) (Server.start (server msgSize)) es
        fun s e => ∀ w, e = .work w → s.Clear (server msgSize) w) ∧
    (∀ es, Run.Always (ServerTs.step (serverTs msgSize)) (ServerTs.start (serverTs msgSize)) es (·.server.Echoes) ↔
      Run.Guarded (ServerTs.step (serverTs msgSize)) (ServerTs.start (serverTs msgSize)) es
        fun s e => ∀ w, e = .work w → s.server.Clear (serverTs msgSize) w) :=
  ⟨Server.always_echoes_iff (server_roomy msgSize), ServerTs.always_echoes_iff (serverTs_roomy msgSize)⟩

def overtaken : List Server.Event := [.work (.arrive [1, 1]), .work (.arrive [2, 2]), .poll, .work .transmit]

def overtakenTs : List ServerTs.Event :=
  [.work (.arrive [1, 1]), .work (.arrive [2, 2]), .poll 1000 65536 0, .work .transmit]

theorem echoes_overtaken :
    (overtaken.foldl (Server.step (server 2)) (Server.start (server 2))).received = [[1, 1], [2, 2]] ∧
      (overtaken.foldl (Server.step (server 2)) (Server.start (server 2))).echoes = [[2, 2]] ∧
      (overtakenTs.foldl (ServerTs.step (serverTs 2)) (ServerTs.start (serverTs 2))).server.received =
        [[1, 1], [2, 2]] ∧
      (overtakenTs.foldl (ServerTs.step (serverTs 2)) (ServerTs.start (serverTs 2))).server.echoes = [[2, 2]] := by
  decide +kernel

end FireMarshal.Rdma
