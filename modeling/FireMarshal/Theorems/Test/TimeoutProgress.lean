import Mathlib.Algebra.Ring.Nat
import FireMarshal.Theorems.Test.Timeout

/-! Tests with timeouts come to an end, whatever the order of statements and signals: also if no simulator ends by
itself. -/

namespace FireMarshal
namespace Tester

/-! ### What is left to do -/

def Pc.ahead (l : Nat) : Pc → Nat
  | .next | .compare | .done | .exited => 0
  | .wait _ | .logs | .cleanUp _ _ | .outputs | .restore .launch _ | .cancel .launch _ => l - 1
  | _ => l

/-- The price of a launch, if there are at most `n` simulators. -/
def perLaunch (n : Nat) : Nat := 2 * n + 15

def Test.cost (n : Nat) (t : Test) : Nat := t.launches.length * perLaunch n + 10

def Pc.left (n l : Nat) : Pc → Nat
  | .next | .done | .exited => 0
  | .compare => 1
  | .enter .build => l * perLaunch n + 9
  | .arm .build => l * perLaunch n + 8
  | .enterTry .build => l * perLaunch n + 6
  | .building false => l * perLaunch n + 5
  | .building true => l * perLaunch n + 4
  | .restore .build _ => l * perLaunch n + 3
  | .cancel .build _ => l * perLaunch n + 2
  | .enter .launch => (l - 1) * perLaunch n + 2 * n + 16
  | .arm .launch => (l - 1) * perLaunch n + 2 * n + 15
  | .enterTry .launch => (l - 1) * perLaunch n + 2 * n + 13
  | .select => (l - 1) * perLaunch n + 2 * n + 12
  | .prepare => (l - 1) * perLaunch n + 2 * n + 11
  | .popen => (l - 1) * perLaunch n + 2 * n + 10
  | .append => (l - 1) * perLaunch n + 2 * n + 8
  | .wait i => (l - 1) * perLaunch n + n + 6 + (n + 1 - i)
  | .logs => (l - 1) * perLaunch n + n + 6
  | .cleanUp i _ => (l - 1) * perLaunch n + 4 + (n + 1 - i)
  | .outputs => (l - 1) * perLaunch n + 4
  | .restore .launch _ => (l - 1) * perLaunch n + 3
  | .cancel .launch _ => (l - 1) * perLaunch n + 2

namespace State

variable {s : State} {manual : Bool} {plan : List Test} {n : Nat}

def later (s : State) : List Test :=
  match s.pc with
  | .next => s.plan
  | _ => s.plan.tail

def ahead (s : State) : Nat := s.pc.ahead s.launches.length + (s.later.map fun t => t.launches.length).sum

def unfinished (procs : List Proc) : Nat := procs.countP (· ≠ .exited)

/-- A bound for the steps that are left, if there are at most `n` simulators. -/
def work (n : Nat) (s : State) : Nat :=
  (match s.pc with
    | .done | .exited => 0
    | pc => pc.left n s.launches.length + (s.later.map (Test.cost n)).sum + 1) +
    s.armed.toNat + unfinished s.procs

structure Bounded (plan : List Test) (n : Nat) (s : State) : Prop where
  plan : s.plan <:+ plan
  simulators : s.jobProcs.length + s.ahead ≤ n
  index : ∀ i, (s.pc = .wait i ∨ ∃ e, s.pc = .cleanUp i e) → i ≤ s.jobProcs.length
  done : s.pc = .done → s.plan = []

theorem bounded_start (plan : List Test) :
    (start plan).Bounded plan (plan.map fun t => t.launches.length).sum where
  plan := List.suffix_refl plan
  simulators := by simp [start, ahead, later, Pc.ahead]
  index i h := by simp [start] at h
  done h := by simp [start] at h

def Down (plan : List Test) (n : Nat) (s s' : State) : Prop := s'.Bounded plan n ∧ s'.work n < s.work n

def inside : Pc → Bool
  | .next | .done | .exited => false
  | _ => true

theorem later_of_inside (h : inside s.pc = true) : s.later = s.plan.tail := by
  cases hpc : s.pc with
  | next => rw [hpc] at h; cases h
  | _ => simp [later, hpc]

theorem work_of_inside (h : inside s.pc = true) :
    s.work n = s.pc.left n s.launches.length + (s.plan.tail.map (Test.cost n)).sum + 1 + s.armed.toNat +
      unfinished s.procs := by
  rw [work, later_of_inside h]
  cases hpc : s.pc with
  | done | exited => rw [hpc] at h; cases h
  | _ => rfl

theorem work_of_ended (h : s.pc = .done ∨ s.pc = .exited) : s.work n = s.armed.toNat + unfinished s.procs := by
  rcases h with hpc | hpc
  · simp [work, hpc]
  · simp [work, hpc]

theorem unfinished_set {procs : List Proc} {p : Nat} (hp : p < procs.length) (x : Proc) :
    unfinished (procs.set p x) + (if procs[p] ≠ .exited then 1 else 0) =
      unfinished procs + if x ≠ .exited then 1 else 0 := by
  have hlow : (if procs[p] ≠ .exited then 1 else 0) ≤ unfinished procs := by
    split
    · rename_i hne
      exact List.countP_pos_iff.mpr ⟨procs[p], List.getElem_mem hp, by simpa using hne⟩
    · exact Nat.zero_le _
  have hset : unfinished (procs.set p x) =
      unfinished procs - (if procs[p] ≠ .exited then 1 else 0) + if x ≠ .exited then 1 else 0 := by
    simp [unfinished, List.countP_set hp]
  omega

theorem unfinished_exit {procs : List Proc} {p : Nat} (hne : procs.set p .exited ≠ procs) :
    unfinished (procs.set p .exited) < unfinished procs := by
  by_cases hp : p < procs.length
  · have hset := unfinished_set hp .exited
    rw [if_pos, if_neg (by simp)] at hset
    · omega
    · intro hexited
      apply hne
      rw [← hexited, List.set_getElem_self]
  · exact absurd (List.set_eq_of_length_le (Nat.le_of_not_lt hp)) hne

theorem unfinished_terminate (procs : List Proc) (p : Nat) :
    unfinished (terminate procs p) ≤ unfinished procs := by
  unfold terminate
  split
  · rename_i hrunning
    obtain ⟨hp, hrunning⟩ := List.getElem?_eq_some_iff.mp hrunning
    have hset := unfinished_set hp .terminated
    rw [if_pos (by simp [hrunning]), if_pos (by simp)] at hset
    omega
  · exact Nat.le_refl _

theorem unfinished_terminateAll (ps : List Nat) (procs : List Proc) :
    unfinished (ps.foldl terminate procs) ≤ unfinished procs := by
  induction ps generalizing procs with
  | nil => exact Nat.le_refl _
  | cons p ps ih => exact Nat.le_trans (ih _) (unfinished_terminate procs p)

theorem sum_tail_le (s : State) :
    (s.plan.tail.map fun t => t.launches.length).sum ≤ (s.later.map fun t => t.launches.length).sum := by
  cases hpc : s.pc with
  | next =>
    rw [later, hpc]
    cases s.plan with
    | nil => simp
    | cons t rest => simp
  | _ => simp [later, hpc]

/-! ### Moves -/

namespace Bounded

theorem down (h : s.Bounded plan n) (hin : inside s.pc = true) {s' : State} (hplan : s'.plan = s.plan)
    (hin' : inside s'.pc = true)
    (hahead : s'.jobProcs.length + s'.pc.ahead s'.launches.length ≤ s.jobProcs.length + s.pc.ahead s.launches.length)
    (hindex : ∀ i, (s'.pc = .wait i ∨ ∃ e, s'.pc = .cleanUp i e) → i ≤ s'.jobProcs.length)
    (hleft : s'.pc.left n s'.launches.length + s'.armed.toNat + unfinished s'.procs <
      s.pc.left n s.launches.length + s.armed.toNat + unfinished s.procs) : Down plan n s s' := by
  refine ⟨⟨by rw [hplan]; exact h.plan, ?_, hindex, fun hpc => ?_⟩, ?_⟩
  · have hle := h.simulators
    rw [ahead, later_of_inside hin] at hle
    rw [ahead, later_of_inside hin', hplan]
    omega
  · rw [hpc] at hin'
    cases hin'
  · rw [work_of_inside hin, work_of_inside hin', hplan]
    omega

theorem left_pos (hin : inside s.pc = true) : 0 < s.pc.left n s.launches.length := by
  cases hpc : s.pc with
  | next | done | exited => rw [hpc] at hin; cases hin
  | building failed => cases failed <;> simp [Pc.left]
  | enter b | arm b | enterTry b | restore b r | cancel b r => cases b <;> simp [Pc.left]
  | wait i | cleanUp i e =>
    simp only [Pc.left]
    omega
  | _ => simp [Pc.left]

theorem report (h : s.Bounded plan n) {t : Test} {rest : List Test} (hrest : s.plan = t :: rest) (flawed armed : Bool)
    (v : Verdict) : State.Bounded plan n ({ s with flawed, armed }.report v) ∧
      ({ s with flawed, armed }.report v).work n =
        (rest.map (Test.cost n)).sum + 1 + armed.toNat + unfinished s.procs := by
  have hle := h.simulators
  have htail := sum_tail_le s
  have hsuffix := h.plan
  rw [hrest] at hsuffix htail
  refine ⟨⟨?_, ?_, ?_, ?_⟩, ?_⟩
  · simpa [State.report, hrest] using (List.suffix_cons t rest).trans hsuffix
  · simp only [State.report, hrest, ahead, later, Pc.ahead, List.tail_cons] at hle htail ⊢
    omega
  · simp [State.report, hrest]
  · simp [State.report, hrest]
  · simp [State.report, hrest, work, later, Pc.left]

theorem down_report (h : s.Bounded plan n) (hin : inside s.pc = true) (hplan : s.plan ≠ []) (flawed : Bool)
    {armed : Bool} (harmed : armed = false ∨ armed = s.armed) (v : Verdict) :
    Down plan n s ({ s with flawed, armed }.report v) := by
  obtain ⟨t, rest, hrest⟩ := List.exists_cons_of_ne_nil hplan
  obtain ⟨hbounded, hwork⟩ := h.report hrest flawed armed v
  have hpos : 0 < s.pc.left n s.launches.length := left_pos hin
  have harmed : armed.toNat ≤ s.armed.toNat := by
    rcases harmed with rfl | rfl
    · exact Nat.zero_le _
    · exact Nat.le_refl _
  refine ⟨hbounded, ?_⟩
  rw [hwork, work_of_inside hin, hrest, List.tail_cons]
  omega

theorem down_exited (h : s.Bounded plan n) (hpc : s.pc ≠ .done ∧ s.pc ≠ .exited) {s' : State} (hpc' : s'.pc = .exited)
    (hplan : s'.plan = s.plan) (hjobs : s'.jobProcs = s.jobProcs) (harmed : s'.armed.toNat ≤ s.armed.toNat)
    (hprocs : unfinished s'.procs ≤ unfinished s.procs) : Down plan n s s' := by
  have hpos : 0 < s.work n - s.armed.toNat - unfinished s.procs := by
    cases hcase : s.pc with
    | done => exact absurd hcase hpc.1
    | exited => exact absurd hcase hpc.2
    | _ =>
      simp only [work, hcase]
      omega
  refine ⟨⟨by rw [hplan]; exact h.plan, ?_, by simp [hpc'], by simp [hpc']⟩, ?_⟩
  · have hle := h.simulators
    have htail := sum_tail_le s
    simp only [ahead, later, hpc', hjobs, hplan, Pc.ahead] at hle htail ⊢
    omega
  · rw [work_of_ended (.inr hpc')]
    omega

theorem down_raise (h : s.Bounded plan n) (hinv : s.Inv plan) (hin : inside s.pc = true) {armed : Bool}
    (harmed : armed = false ∨ armed = s.armed) (e : Exc) : Down plan n s ({ s with armed }.raise e) := by
  have hat := hinv.pc
  have hjobs := h.simulators
  have hle : armed.toNat ≤ s.armed.toNat := by
    rcases harmed with rfl | rfl
    · exact Nat.zero_le _
    · exact Nat.le_refl _
  cases hpc : s.pc with rw [hpc] at hat
  | next | done | exited => rw [hpc] at hin; cases hin
  | building failed =>
    simp only [State.raise]
    refine h.down hin rfl rfl ?_ (by simp) ?_
    · simp [hpc, Pc.ahead]
    · cases failed <;> simp [hpc, Pc.left] <;> omega
  | prepare | popen | logs | wait i | append =>
    simp only [State.raise]
    refine h.down hin rfl rfl ?_ (by simp) ?_
    · simp [hpc, Pc.ahead]
    · simp only [hpc, Pc.left]
      omega
  | select | outputs | cleanUp i e' =>
    simp only [State.raise]
    refine h.down hin rfl rfl ?_ (by simp) ?_
    · simp [hpc, Pc.ahead]
    · simp only [hpc, Pc.left]
      omega
  | enterTry b =>
    have hreport := h.down_report hin hat.1.1.1 true harmed (.failure (some e))
    rwa [hpc] at hreport
  | restore b r | cancel b r =>
    have hreport := h.down_report hin hat.1.1 true harmed (.failure (some e))
    rwa [hpc] at hreport
  | compare =>
    have hreport := h.down_report hin hat.2 true harmed (.failure (some e))
    rwa [hpc] at hreport
  | enter b =>
    have hreport := h.down_report hin hat.2.1 true harmed (.failure (some e))
    rwa [hpc] at hreport
  | arm b =>
    have hreport := h.down_report hin hat.2.1.1 true harmed (.failure (some e))
    rwa [hpc] at hreport

theorem down_throw (h : s.Bounded plan n) (hinv : s.Inv plan) (hin : inside s.pc = true) :
    Down plan n s (s.raise .other) := h.down_raise hinv hin (.inr rfl) .other

theorem down_next (h : s.Bounded plan n) (hpc : s.pc = .next) (o : Outcome) : Down plan n s (s.next manual o) := by
  have hle := h.simulators
  have hwork : s.work n = (s.plan.map (Test.cost n)).sum + 1 + s.armed.toNat + unfinished s.procs := by
    simp [work, hpc, later, Pc.left]
  simp only [ahead, later, hpc, Pc.ahead] at hle
  simp only [State.next, hpc]
  split
  · rename_i hplan
    refine ⟨⟨h.plan, ?_, by simp, fun _ => hplan⟩, ?_⟩
    · simp [ahead, later, Pc.ahead, hplan] at hle ⊢
      exact hle
    · rw [hwork, work_of_ended (.inl rfl)]
      dsimp only
      omega
  · rename_i t rest hrest
    have hcost : 10 ≤ t.cost n := Nat.le_add_left _ _
    rw [hrest, List.map_cons, List.sum_cons] at hwork hle
    split
    · obtain ⟨hbounded, hreport⟩ := h.report hrest s.flawed s.armed .skip
      refine ⟨hbounded, ?_⟩
      rw [hreport, hwork]
      omega
    · split
      · simp only [State.raise, hpc]
        exact h.down_exited (by simp [hpc]) rfl rfl rfl (Nat.le_refl _) (Nat.le_refl _)
      · split
        · refine ⟨⟨h.plan, ?_, by simp, by simp⟩, ?_⟩
          · simp only [ahead, later, Pc.ahead, hrest, List.tail_cons]
            omega
          · rw [hwork, work_of_inside rfl]
            simp only [Pc.left, hrest, List.tail_cons]
            omega
        · refine ⟨⟨h.plan, ?_, by simp, by simp⟩, ?_⟩
          · simp only [ahead, later, Pc.ahead, hrest, List.tail_cons]
            omega
          · rw [hwork, work_of_inside rfl]
            simp only [Pc.left, Test.cost, hrest, List.tail_cons]
            omega

theorem down_goto (h : s.Bounded plan n) (hin : inside s.pc = true) {pc : Pc} (hin' : inside pc = true)
    (hahead : pc.ahead s.launches.length ≤ s.pc.ahead s.launches.length)
    (hindex : ∀ i, (pc = .wait i ∨ ∃ e, pc = .cleanUp i e) → i ≤ s.jobProcs.length)
    (hleft : pc.left n s.launches.length < s.pc.left n s.launches.length) (flawed : Bool)
    (handler oldSignal : Option String) : Down plan n s { s with pc, flawed, handler, oldSignal } := by
  refine h.down hin rfl hin' ?_ hindex ?_
  · exact Nat.add_le_add_left hahead _
  · dsimp only
    omega

theorem down_wait (h : s.Bounded plan n) {i : Nat} (hpc : s.pc = .wait i) (o : Outcome)
    (hne : s.next manual o ≠ s) : Down plan n s (s.next manual o) := by
  have hin : inside s.pc = true := by rw [hpc]; rfl
  have hi := h.index i (.inl hpc)
  have hle := h.simulators
  simp only [State.next, hpc] at hne ⊢
  split
  · refine h.down_goto hin rfl (by simp [hpc, Pc.ahead]) (by simp) ?_ _ _ _
    simp only [hpc, Pc.left]
    omega
  · rename_i p hp
    have hlt := (List.getElem?_eq_some_iff.mp hp).1
    split
    · refine h.down_goto hin rfl (by simp [hpc, Pc.ahead]) ?_ ?_ _ _ _
      · rintro j (heq | ⟨e, heq⟩)
        · cases heq
          exact hlt
        · cases heq
      · simp only [hpc, Pc.left]
        omega
    · rename_i hwaits
      simp [hp, hwaits] at hne

theorem down_cleanUp (h : s.Bounded plan n) {i : Nat} {e : Exc} (hpc : s.pc = .cleanUp i e) (o : Outcome) :
    Down plan n s (s.next manual o) := by
  have hin : inside s.pc = true := by rw [hpc]; rfl
  have hi := h.index i (.inr ⟨e, hpc⟩)
  have hle := h.simulators
  simp only [State.next, hpc]
  split
  · refine h.down_goto hin rfl (by simp [hpc, Pc.ahead]) (by simp) ?_ _ _ _
    simp only [hpc, Pc.left]
    omega
  · rename_i p hp
    have hlt := (List.getElem?_eq_some_iff.mp hp).1
    have hunfinished := unfinished_terminate s.procs p
    refine h.down hin rfl rfl (by simp [hpc, Pc.ahead]) ?_ ?_
    · rintro j (heq | ⟨e, heq⟩)
      · cases heq
      · cases heq
        exact hlt
    · simp only [hpc, Pc.left]
      omega

theorem left_proceed (launches : List String) :
    (if launches = [] then Pc.compare else .enter .launch).left n launches.length <
      launches.length * perLaunch n + 2 := by
  cases launches with
  | nil => simp [Pc.left]
  | cons label rest =>
    simp only [reduceCtorEq, if_false, Pc.left, List.length_cons, Nat.add_sub_cancel, Nat.succ_mul, perLaunch]
    omega

theorem down_proceed (h : s.Bounded plan n) (hin : inside s.pc = true) (launches : List String)
    (hahead : launches.length ≤ s.pc.ahead s.launches.length)
    (hleft : launches.length * perLaunch n + 2 ≤ s.pc.left n s.launches.length) :
    Down plan n s ({ s with launches, armed := false }.proceed) := by
  have hlt := left_proceed (n := n) launches
  simp only [State.proceed]
  refine h.down hin rfl ?_ ?_ ?_ ?_
  · dsimp only
    split <;> rfl
  · dsimp only
    split
    · simp [Pc.ahead]
    · exact Nat.add_le_add_left hahead _
  · intro i hi
    dsimp only at hi
    split at hi <;> simp at hi
  · simp only [Bool.toNat_false]
    omega

theorem down_cancel (h : s.Bounded plan n) (hinv : s.Inv plan) {b : Block} {r : Ended} (hpc : s.pc = .cancel b r)
    (o : Outcome) : Down plan n s (s.next manual o) := by
  have hat := hinv.pc
  rw [hpc] at hat
  obtain ⟨⟨hplan, -⟩, -⟩ := hat
  have hin : inside s.pc = true := by rw [hpc]; rfl
  cases r with
  | good =>
    cases b with
    | build =>
      have hproceed := h.down_proceed hin s.launches (by simp [hpc, Pc.ahead]) (by simp [hpc, Pc.left])
      simpa only [State.next, hpc] using hproceed
    | launch =>
      have hproceed := h.down_proceed hin s.launches.tail (by simp [hpc, Pc.ahead]) (by simp [hpc, Pc.left])
      simpa only [State.next, hpc] using hproceed
  | bad =>
    have hreport := h.down_report hin hplan s.flawed (.inl rfl) (.failure (some .testFailure))
    cases b with
    | build => simpa only [State.next, hpc] using hreport
    | launch => simpa only [State.next, hpc] using hreport
  | raised e =>
    have hreport := h.down_report hin hplan s.flawed (.inl rfl) (.failure (some e))
    cases b with
    | build => simpa only [State.next, hpc] using hreport
    | launch => simpa only [State.next, hpc] using hreport

theorem next (h : s.Bounded plan n) (hinv : s.Inv plan) (o : Outcome) (hne : s.next manual o ≠ s) :
    Down plan n s (s.next manual o) := by
  have hat := hinv.pc
  have hle := h.simulators
  obtain ⟨pc, hpc⟩ : ∃ pc, s.pc = pc := ⟨_, rfl⟩
  have hin : inside pc = true → inside s.pc = true := by rw [hpc]; exact id
  rw [hpc] at hat
  cases pc with
  | next => exact h.down_next hpc o
  | cancel b r => exact h.down_cancel hinv hpc o
  | wait i => exact h.down_wait hpc o hne
  | cleanUp i e => exact h.down_cleanUp hpc o
  | done | exited =>
    simp only [State.next, hpc] at hne
    exact absurd rfl hne
  | enter b =>
    simp only [State.next, hpc]
    refine h.down_goto (hin rfl) rfl ?_ (by simp) ?_ _ _ _
    · cases b <;> simp [hpc, Pc.ahead]
    · cases b <;> simp [hpc, Pc.left]
  | arm b =>
    simp only [State.next, hpc]
    have harmed : (s.seconds b != 0).toNat ≤ 1 := Bool.toNat_le _
    refine h.down (hin rfl) rfl rfl ?_ (by simp) ?_
    · cases b <;> simp [hpc, Pc.ahead]
    · cases b <;> simp only [hpc, Pc.left] <;> omega
  | enterTry b =>
    cases b with
    | build =>
      simp only [State.next, hpc]
      exact h.down_goto (hin rfl) rfl (by simp [hpc, Pc.ahead]) (by simp) (by simp [hpc, Pc.left]) _ _ _
    | launch =>
      simp only [State.next, hpc]
      exact h.down_goto (hin rfl) rfl (by simp [hpc, Pc.ahead]) (by simp) (by simp [hpc, Pc.left]) _ _ _
  | building failed =>
    simp only [State.next, hpc]
    cases o with
    | raised => exact h.down_throw hinv (hin rfl)
    | good | bad =>
      refine h.down_goto (hin rfl) rfl (by simp [hpc, Pc.ahead]) (by simp) ?_ _ _ _
      cases failed <;> simp [hpc, Pc.left]
  | select =>
    simp only [State.next, hpc]
    split
    · exact h.down_goto (hin rfl) rfl (by simp [hpc, Pc.ahead]) (by simp) (by simp [hpc, Pc.left]) _ _ _
    · exact h.down_throw hinv (hin rfl)
  | prepare =>
    simp only [State.next, hpc]
    cases o with
    | raised => exact h.down_throw hinv (hin rfl)
    | good => exact h.down_goto (hin rfl) rfl (by simp [hpc, Pc.ahead]) (by simp) (by simp [hpc, Pc.left]) _ _ _
    | bad =>
      refine h.down_goto (hin rfl) rfl (by simp [hpc, Pc.ahead]) (by simp) ?_ _ _ _
      simp only [hpc, Pc.left]
      omega
  | popen =>
    simp only [State.next, hpc]
    split
    · refine h.down (hin rfl) rfl rfl (by simp [hpc, Pc.ahead]) (by simp) ?_
      have hprocs : unfinished (s.procs ++ [.running]) = unfinished s.procs + 1 := by simp [unfinished]
      simp only [hpc, Pc.left, hprocs]
      omega
    · exact h.down_throw hinv (hin rfl)
  | append =>
    obtain ⟨⟨⟨-, hlaunches⟩, -⟩, -⟩ := hat
    have hpos := List.length_pos_iff.mpr (hlaunches rfl)
    simp only [State.next, hpc]
    refine h.down (hin rfl) rfl rfl ?_ (by simp) ?_
    · simp only [hpc, Pc.ahead, List.length_append, List.length_singleton]
      omega
    · simp only [hpc, Pc.left]
      omega
  | logs | outputs =>
    simp only [State.next, hpc]
    split
    · refine h.down_goto (hin rfl) rfl (by simp [hpc, Pc.ahead]) (by simp) ?_ _ _ _
      simp only [hpc, Pc.left]
      omega
    · exact h.down_throw hinv (hin rfl)
  | restore b r =>
    simp only [State.next, hpc]
    refine h.down_goto (hin rfl) rfl ?_ (by simp) ?_ _ _ _
    · cases b <;> simp [hpc, Pc.ahead]
    · cases b <;> simp [hpc, Pc.left]
  | compare =>
    have hplan := hat.2
    cases o with
    | raised =>
      simp only [State.next, hpc]
      exact h.down_throw hinv (hin rfl)
    | good =>
      simp only [State.next, hpc]
      exact h.down_report (hin rfl) hplan s.flawed (.inr rfl) .success
    | bad => simpa only [State.next, hpc] using h.down_report (hin rfl) hplan true (.inr rfl) (.failure none)

theorem down_disarm (h : s.Bounded plan n) (hpc : s.pc = .exited) (harmed : s.armed = true) (flawed : Bool) :
    Down plan n s { s with pc := .exited, armed := false, flawed } := by
  have hle := h.simulators
  refine ⟨⟨h.plan, ?_, by simp, by simp⟩, ?_⟩
  · simp only [ahead, later, hpc, Pc.ahead] at hle ⊢
    exact hle
  · rw [work_of_ended (.inr rfl), work_of_ended (.inr hpc), harmed]
    simp

theorem alarm (h : s.Bounded plan n) (hinv : s.Inv plan) (caught : Bool) (hne : s.alarm caught ≠ s) :
    Down plan n s (s.alarm caught) := by
  have hat := hinv.pc
  by_cases harmed : s.armed = true
  · -- The alarm is set: marshal has exited, or is in a test.
    have hwhere : s.pc = .exited ∨ inside s.pc = true := by
      cases hpc : s.pc with rw [hpc] at hat
      | next | done =>
        rw [hat.1] at harmed
        cases harmed
      | exited => exact .inl rfl
      | _ => exact .inr rfl
    unfold State.alarm
    rw [if_pos harmed]
    dsimp only
    split
    · rcases hwhere with hpc | hin
      · exact h.down_disarm hpc harmed _
      · refine h.down_exited ⟨?_, ?_⟩ rfl rfl rfl (Nat.zero_le _) (Nat.le_refl _)
        · intro hpc
          simp [hpc, inside] at hin
        · intro hpc
          simp [hpc, inside] at hin
    · rename_i label hlabel
      split
      · rename_i failed hpc
        have hin : inside s.pc = true := by rw [hpc]; rfl
        refine h.down hin rfl rfl (by simp [hpc, Pc.ahead]) (by simp) ?_
        cases failed <;> simp [hpc, Pc.left, harmed]
      · rcases hwhere with hpc | hin
        · simp only [State.raise, hpc]
          exact h.down_disarm hpc harmed _
        · exact h.down_raise hinv hin (.inl rfl) _
  · unfold State.alarm at hne
    rw [if_neg harmed] at hne
    exact absurd rfl hne

theorem interrupt (h : s.Bounded plan n) (hne : s.interrupt ≠ s) : Down plan n s s.interrupt := by
  unfold State.interrupt at hne ⊢
  split
  · rename_i hended
    rw [if_pos hended] at hne
    exact absurd rfl hne
  · rename_i hpc
    exact h.down_exited (not_or.mp hpc) rfl rfl rfl (Nat.le_refl _) (unfinished_terminateAll _ _)

theorem exit (h : s.Bounded plan n) (p : Nat) (hne : { s with procs := s.procs.set p .exited } ≠ s) :
    Down plan n s { s with procs := s.procs.set p .exited } := by
  have hlt : unfinished (s.procs.set p .exited) < unfinished s.procs := by
    refine unfinished_exit fun heq => hne ?_
    rw [heq]
  refine ⟨⟨h.plan, h.simulators, h.index, h.done⟩, ?_⟩
  exact Nat.add_lt_add_left hlt _

theorem step (h : s.Bounded plan n) (hinv : s.Inv plan) (a : Act) (hne : s.step manual a ≠ s) :
    Down plan n s (s.step manual a) := by
  cases a with
  | next o => exact h.next hinv o hne
  | alarm caught => exact h.alarm hinv caught hne
  | interrupt => exact h.interrupt hne
  | exit p => exact h.exit p hne

end Bounded

/-! ### At rest -/

/-- Neither a statement nor the alarm can do anything. -/
def Rests (manual : Bool) (s : State) : Prop :=
  (∀ o, s.next manual o = s) ∧ ∀ caught, s.alarm caught = s

theorem ends_of_rests (h : s.Inv plan) (hb : s.Bounded plan n) (htimeout : ∀ t ∈ plan, t.runTimeout ≠ 0)
    (hrests : s.Rests manual) : s.pc = .done ∨ s.pc = .exited := by
  have hat := h.pc
  have hidle : ¬ Down plan n s (s.next manual .good) := by
    rw [hrests.1 .good]
    exact fun hdown => Nat.lt_irrefl _ hdown.2
  have hnext := congrArg State.pc (hrests.1 .good)
  cases hpc : s.pc with rw [hpc] at hat
  | done => exact .inl rfl
  | exited => exact .inr rfl
  | next => exact absurd (hb.down_next hpc .good) hidle
  | cancel b r => exact absurd (hb.down_cancel h hpc .good) hidle
  | cleanUp i e => exact absurd (hb.down_cleanUp hpc .good) hidle
  | compare =>
    obtain ⟨t, rest, hplan⟩ := List.exists_cons_of_ne_nil hat.2
    simp [State.next, hpc, State.report, hplan] at hnext
  | wait i =>
    -- The simulators need not end: the alarm is set.
    obtain ⟨⟨⟨hplan, -⟩, hhandler, -, harmed⟩, -⟩ := hat
    obtain ⟨t, rest, hrest⟩ := List.exists_cons_of_ne_nil hplan
    obtain ⟨label, hlabel⟩ := Option.isSome_iff_exists.mp hhandler
    have hmem : t ∈ plan := hb.plan.subset (by rw [hrest]; exact List.mem_cons_self)
    have harmed : s.armed = true := by simpa [harmed, seconds, hrest] using htimeout t hmem
    have halarm := congrArg State.pc (hrests.2 false)
    simp [State.alarm, harmed, hlabel, hpc, State.raise] at halarm
  | enterTry b =>
    cases b with
    | build => simp [State.next, hpc] at hnext
    | launch => simp [State.next, hpc] at hnext
  | _ => simp [State.next, hpc] at hnext

end State

theorem tests_end (manual : Bool) (plan : List Test) (as : List Act)
    (hsteps : Run.Guarded (State.step manual) (start plan) as fun s a => s.step manual a ≠ s) :
    let n := (plan.map fun t => t.launches.length).sum
    let s := as.foldl (State.step manual) (start plan)
    as.length ≤ (plan.map fun t => t.launches.length * (2 * n + 15) + 10).sum + 1 ∧
      ((∀ t ∈ plan, t.runTimeout ≠ 0) → s.Rests manual →
        s.pc = .exited ∨ (s.pc = .done ∧ s.results.map Result.name = plan.map Test.name)) := by
  intro n s
  have hstep : ∀ (s : State) (a : Act), s.Inv plan ∧ s.Bounded plan n → s.step manual a ≠ s →
      ((s.step manual a).Inv plan ∧ (s.step manual a).Bounded plan n) ∧ (s.step manual a).work n < s.work n := by
    intro s a h hne
    obtain ⟨hbounded, hless⟩ := h.2.step h.1 a hne
    exact ⟨⟨h.1.step a, hbounded⟩, hless⟩
  obtain ⟨hlength, hinv, hbounded⟩ := Run.length_le_of_guarded (fun s : State => s.Inv plan ∧ s.Bounded plan n)
    ⟨State.inv_start plan, State.bounded_start plan⟩ hstep hsteps
  refine ⟨Nat.le_trans (Nat.le_of_add_right_le hlength) ?_, fun htimeout hrests => ?_⟩
  · have hwork : (start plan).work n = (plan.map (Test.cost n)).sum + 1 := by
      simp [State.work, start, State.later, Pc.left, State.unfinished]
    exact Nat.le_of_eq hwork
  · rcases State.ends_of_rests hinv hbounded htimeout hrests with hdone | hexited
    · have hnames := hinv.names
      rw [hbounded.done hdone, List.map_nil, List.append_nil] at hnames
      exact .inr ⟨hdone, hnames⟩
    · exact .inl hexited

/-- A launch whose simulator never ends: the alarm comes while it is waited for. -/
def hanging : List Act := List.replicate 14 (.next .good) ++ .alarm false :: List.replicate 5 (.next .good)

theorem tests_end_hanging :
    let s := hanging.foldl (State.step false) (start [{ name := "hello" }])
    s.procs = [.terminated] ∧ s.Rests false ∧
      (s.pc = .exited ∨ (s.pc = .done ∧ s.results.map Result.name = ["hello"])) := by
  have hsteps : Run.Guarded (State.step false) (start [{ name := "hello" }]) hanging
      fun s a => s.step false a ≠ s := by
    simp only [hanging, List.replicate, List.cons_append, List.nil_append, Run.guarded_cons, Run.guarded_nil, and_true]
    decide +kernel
  have hrests : (hanging.foldl (State.step false) (start [{ name := "hello" }])).Rests false :=
    ⟨fun _ => rfl, fun _ => rfl⟩
  exact ⟨by decide +kernel, hrests, (tests_end false [{ name := "hello" }] hanging hsteps).2 (by decide) hrests⟩

end Tester
end FireMarshal
