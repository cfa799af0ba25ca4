import Mathlib.Tactic.SplitIfs
import FireMarshal.Lib.Run
import FireMarshal.Lib.Table
import FireMarshal.Net.MtClient

namespace FireMarshal.MtClient

variable {c : Ctx} {s s' : Thread} {e : Event} {rtt : Int} {d : Datagram} {o : Option Datagram}

theorem tsdiffNs_ofNs (t t' : Nat) : tsdiffNs (.ofNs t) (.ofNs t') = (t' : Int) - t := by
  simp only [tsdiffNs, Timespec.ofNs]
  omega

def Datagram.Numbered (c : Ctx) (d : Datagram) : Prop := 4 ≤ c.size → d.bytes.take 4 = FileTransfer.htonl d.request

namespace Thread

theorem request_numbered : (Datagram.mk s.i (s.request c)).Numbered c := by
  intro hsize
  show (s.request c).take 4 = _
  rw [request, if_pos hsize]
  exact List.take_left' rfl

/-- A time that is not negative was measured with a datagram that is the echo of the request. -/
def Good (c : Ctx) (s : Thread) : Prop :=
  ∀ i rtt, s.rtt[i]? = some rtt → 0 ≤ rtt →
    ∃ d, s.received[i]? = some (some d) ∧ d.request = i ∧ (4 ≤ c.size → d.bytes.take 4 = FileTransfer.htonl i)

/-- When `recv` returns, the oldest datagram at the socket is an echo of the request of the iteration. -/
def Answered (s : Thread) (e : Event) : Prop :=
  e = .recv true → s.t0.isSome → ∀ d, s.net.queue.head? = some d → d.request = s.i

/-! ### Steps -/

structure Continues (c : Ctx) (s s' : Thread) : Prop where
  i : s'.i = s.i
  rtt : s'.rtt = s.rtt
  received : s'.received = s.received
  clock : s.clock ≤ s'.clock
  t0 : s'.t0 = s.t0 ∨ s'.t0 = some (.ofNs s'.clock)
  net : ∀ x, s'.net.Holds x → s.net.Holds x ∨ x = ⟨s.i, s.request c⟩

structure Records (s s' : Thread) (rtt : Int) (o : Option Datagram) : Prop where
  i : s'.i = s.i + 1
  rtt : s'.rtt = s.rtt ++ [rtt]
  received : s'.received = s.received ++ [o]
  t0 : s'.t0 = none
  net : ∀ x, s'.net.Holds x → s.net.Holds x

structure Receives (s : Thread) (e : Event) (t0 : Timespec) (d : Datagram) : Prop where
  event : e = .recv true
  t0 : s.t0 = some t0
  head : s.net.queue.head? = some d

theorem Continues.refl (c : Ctx) (s : Thread) : Continues c s s :=
  ⟨rfl, rfl, rfl, Nat.le_refl _, .inl rfl, fun _ => .inl⟩

theorem Receives.records {t0 : Timespec} (h : Receives s e t0 d) :
    Records s (s.step c e) (tsdiffNs t0 (.ofNs s.clock)) (some d) := by
  obtain ⟨rfl, ht0, hhead⟩ := h
  obtain ⟨rest, hqueue⟩ := List.head?_eq_some_iff.mp hhead
  simp only [step, ht0, hqueue]
  exact ⟨rfl, rfl, rfl, rfl, fun x hx => Echo.Net.holds_of_receive hx⟩

theorem step_cases (c : Ctx) (s : Thread) (e : Event) :
    Continues c s (s.step c e) ∨ (∃ o, Records s (s.step c e) (-1) o) ∨ ∃ t0 d, Receives s e t0 d := by
  cases e with
  | net e => exact .inl ⟨rfl, rfl, rfl, Nat.le_refl _, .inl rfl, fun x hx => .inl (Echo.Net.holds_of_step hx)⟩
  | tick ns => exact .inl ⟨rfl, rfl, rfl, Nat.le_add_right _ _, .inl rfl, fun x => .inl⟩
  | send clockOk sendOk =>
    rw [step]
    split_ifs
    · exact .inl (.refl c s)
    · exact .inr (.inl ⟨none, rfl, rfl, rfl, rfl, fun x hx => hx⟩)
    · exact .inl ⟨rfl, rfl, rfl, Nat.le_refl _, .inr rfl, fun x hx => Echo.Net.holds_of_send hx⟩
  | recv clockOk =>
    rw [step]
    split
    next t0 d rest ht0 hqueue =>
      split_ifs with hclock
      · exact .inr (.inl ⟨some d, rfl, rfl, rfl, rfl, fun x hx => Echo.Net.holds_of_receive hx⟩)
      · refine .inr (.inr ⟨t0, d, ?_, ht0, ?_⟩)
        · rw [show clockOk = true by simpa using hclock]
        · rw [hqueue, List.head?_cons]
    next => exact .inl (.refl c s)
  | timeout clockOk =>
    rw [step]
    split_ifs
    · exact .inl (.refl c s)
    · exact .inr (.inl ⟨none, rfl, rfl, rfl, rfl, fun x hx => hx⟩)
    · exact .inr (.inl ⟨none, rfl, rfl, rfl, rfl, fun x hx => hx⟩)
  | recvError =>
    rw [step]
    split_ifs
    · exact .inl (.refl c s)
    · exact .inr (.inl ⟨none, rfl, rfl, rfl, rfl, fun x hx => hx⟩)

/-! ### Invariant -/

structure Inv (c : Ctx) (s : Thread) : Prop where
  rtt : s.rtt.length = s.i
  received : s.received.length = s.i
  t0 : ∀ t0, s.t0 = some t0 → ∃ t, t0 = .ofNs t ∧ t ≤ s.clock
  numbered : ∀ d, s.net.Holds d → d.Numbered c
  good : s.Good c

theorem inv_start (c : Ctx) : (start c).Inv c := by
  refine ⟨rfl, rfl, ?_, ?_, ?_⟩
  · intro t0 h
    exact absurd h (by simp [start])
  · rintro d (h | h | h) <;> exact absurd h List.not_mem_nil
  · intro i rtt h
    exact absurd h (by simp [start])

theorem Inv.continues (h : s.Inv c) (hstep : Continues c s s') : s'.Inv c := by
  refine ⟨by rw [hstep.rtt, hstep.i, h.rtt], by rw [hstep.received, hstep.i, h.received], ?_, ?_, ?_⟩
  · intro t0 ht0
    rcases hstep.t0 with heq | heq
    · obtain ⟨t, rfl, hle⟩ := h.t0 t0 (heq ▸ ht0)
      exact ⟨t, rfl, Nat.le_trans hle hstep.clock⟩
    · rw [heq] at ht0
      exact ⟨s'.clock, (Option.some.inj ht0).symm, Nat.le_refl _⟩
  · intro d hd
    rcases hstep.net d hd with hd | rfl
    · exact h.numbered d hd
    · exact request_numbered
  · rw [Good, hstep.rtt, hstep.received]
    exact h.good

theorem Records.good_iff (hstep : Records s s' rtt o) (h : s.Inv c) :
    s'.Good c ↔ (0 ≤ rtt → ∃ d, o = some d ∧ d.request = s.i ∧
      (4 ≤ c.size → d.bytes.take 4 = FileTransfer.htonl s.i)) := by
  rw [Good, hstep.rtt, hstep.received]
  constructor
  · intro hgood hle
    obtain ⟨d, hd, hecho⟩ := hgood s.i rtt (by rw [← h.rtt, List.getElem?_concat_length]) hle
    rw [← h.received, List.getElem?_concat_length] at hd
    exact ⟨d, Option.some.inj hd, h.received ▸ hecho⟩
  · intro hlast i r hr hle
    rcases Table.getElem?_concat_iff.mp hr with hr | ⟨rfl, rfl⟩
    · obtain ⟨d, hd, hecho⟩ := h.good i r hr hle
      exact ⟨d, Table.getElem?_mono (List.prefix_append _ _) hd, hecho⟩
    · obtain ⟨d, rfl, hecho⟩ := hlast hle
      rw [h.rtt]
      exact ⟨d, Table.getElem?_concat_iff.mpr (.inr ⟨h.received.symm, rfl⟩), hecho⟩

theorem Inv.records (h : s.Inv c) (hstep : Records s s' rtt o) (hgood : s'.Good c) : s'.Inv c := by
  refine ⟨?_, ?_, ?_, fun d hd => h.numbered d (hstep.net d hd), hgood⟩
  · rw [hstep.rtt, hstep.i, List.length_append, h.rtt]
    rfl
  · rw [hstep.received, hstep.i, List.length_append, h.received]
    rfl
  · intro t0 ht0
    rw [hstep.t0] at ht0
    cases ht0

theorem Records.good_neg (hstep : Records s s' (-1) o) (h : s.Inv c) : s'.Good c :=
  (hstep.good_iff h).mpr fun hle => absurd hle (by decide)

theorem Receives.good_iff {t0 : Timespec} (hrecv : Receives s e t0 d) (h : s.Inv c) :
    (s.step c e).Good c ↔ d.request = s.i := by
  have hnumbered : d.Numbered c := h.numbered d (.inr (.inr (List.mem_of_head? hrecv.head)))
  have hle : 0 ≤ tsdiffNs t0 (.ofNs s.clock) := by
    obtain ⟨t, rfl, hle⟩ := h.t0 t0 hrecv.t0
    rw [tsdiffNs_ofNs]
    omega
  rw [hrecv.records.good_iff h]
  constructor
  · intro hlast
    obtain ⟨x, hx, heq, -⟩ := hlast hle
    rwa [Option.some.inj hx]
  · intro heq _
    exact ⟨d, rfl, heq, heq ▸ hnumbered⟩

theorem Inv.step (h : s.Inv c) (hanswered : s.Answered e) : (s.step c e).Inv c := by
  rcases step_cases c s e with hstep | ⟨o, hstep⟩ | ⟨t0, d, hrecv⟩
  · exact h.continues hstep
  · exact h.records hstep (hstep.good_neg h)
  · have heq : d.request = s.i := hanswered hrecv.event (by rw [hrecv.t0]; rfl) d hrecv.head
    exact h.records hrecv.records ((hrecv.good_iff h).mpr heq)

theorem Inv.not_good (h : s.Inv c) (hanswered : ¬s.Answered e) : ¬(s.step c e).Good c := by
  simp only [Answered, Classical.not_imp, not_forall] at hanswered
  obtain ⟨hevent, hwaits, d, hhead, hne⟩ := hanswered
  obtain ⟨t0, ht0⟩ := Option.isSome_iff_exists.mp hwaits
  have hrecv : Receives s e t0 d := ⟨hevent, ht0, hhead⟩
  rwa [hrecv.good_iff h]

end Thread

/-- The recorded times are times of the request's own echo exactly if no `recv` finds the echo of another request. -/
theorem rtt_good_iff (c : Ctx) (es : List Event) :
    Run.Always (Thread.step c) (start c) es (Thread.Good c) ↔ Run.Guarded (Thread.step c) (start c) es Thread.Answered :=
  Run.always_iff_guarded (Thread.inv_start c) (fun _ _ h => h.step) (fun _ h => h.good) fun _ _ h => h.not_good

def late : List Event :=
  [.send true true, .net (.serve 0), .tick 1000000000, .timeout true, .send true true, .tick 500000, .net (.arrive 0),
    .recv true]

theorem rtt_late :
    (late.foldl (Thread.step ⟨2, 8⟩) (start ⟨2, 8⟩)).rtt = [-1, 500000] ∧
      (late.foldl (Thread.step ⟨2, 8⟩) (start ⟨2, 8⟩)).received =
        [none, some ⟨0, FileTransfer.htonl 0 ++ [4, 5, 6, 7]⟩] ∧
      ¬Run.Always (Thread.step ⟨2, 8⟩) (start ⟨2, 8⟩) late (Thread.Good ⟨2, 8⟩) := by
  refine ⟨by decide, by decide, fun h => ?_⟩
  obtain ⟨d, hd, heq, -⟩ := h late (List.prefix_refl _) 1 500000 (by decide) (by decide)
  have hrequest : d.request = 0 := by
    have hlate : (late.foldl (Thread.step ⟨2, 8⟩) (start ⟨2, 8⟩)).received[1]?.join.map (·.request) = some 0 := by decide
    rw [hd] at hlate
    exact Option.some.inj hlate
  exact absurd (hrequest.symm.trans heq) (by decide)

end FireMarshal.MtClient
