import FireMarshal.Lib.Run
import FireMarshal.Test.Timeout

/-! Tests with timeouts, in every interleaving with signals and simulators. -/

namespace FireMarshal
namespace Tester

/-! ### Simulators -/

structure Settles (procs procs' : List Proc) : Prop where
  length : procs'.length = procs.length
  running : ∀ p : Nat, procs'[p]? = some .running → procs[p]? = some .running
  exited : ∀ p : Nat, procs[p]? = some .exited → procs'[p]? = some .exited

theorem Settles.refl (procs : List Proc) : Settles procs procs := ⟨rfl, fun _ h => h, fun _ h => h⟩

theorem Settles.trans {procs₁ procs₂ procs₃ : List Proc} (h : Settles procs₁ procs₂) (h' : Settles procs₂ procs₃) :
    Settles procs₁ procs₃ :=
  ⟨h'.length.trans h.length, fun p hp => h.running p (h'.running p hp), fun p hp => h'.exited p (h.exited p hp)⟩

theorem settles_exit (procs : List Proc) (p : Nat) : Settles procs (procs.set p .exited) where
  length := List.length_set
  running q hq := by
    by_cases hpq : p = q
    · subst hpq
      simp [List.getElem?_set] at hq
    · rwa [List.getElem?_set_ne hpq] at hq
  exited q hq := by
    by_cases hpq : p = q
    · subst hpq
      have hlt := (List.getElem?_eq_some_iff.mp hq).1
      simp [hlt]
    · rwa [List.getElem?_set_ne hpq]

theorem settles_terminate (procs : List Proc) (p : Nat) : Settles procs (State.terminate procs p) := by
  unfold State.terminate
  split
  · rename_i hp
    refine ⟨List.length_set, fun q hq => ?_, fun q hq => ?_⟩
    · by_cases hpq : p = q
      · subst hpq
        exact hp
      · rwa [List.getElem?_set_ne hpq] at hq
    · by_cases hpq : p = q
      · subst hpq
        cases hp.symm.trans hq
      · rwa [List.getElem?_set_ne hpq]
  · exact .refl procs

theorem terminate_not_running (procs : List Proc) (p : Nat) : (State.terminate procs p)[p]? ≠ some .running := by
  unfold State.terminate
  split
  · intro h
    simp [List.getElem?_set] at h
  · assumption

theorem settles_terminateAll (ps : List Nat) (procs : List Proc) : Settles procs (ps.foldl State.terminate procs) := by
  induction ps generalizing procs with
  | nil => exact .refl procs
  | cons p ps ih => exact (settles_terminate procs p).trans (ih _)

theorem terminateAll_not_running {ps : List Nat} {p : Nat} (hp : p ∈ ps) (procs : List Proc) :
    (ps.foldl State.terminate procs)[p]? ≠ some .running := by
  induction ps generalizing procs with
  | nil => cases hp
  | cons q ps ih =>
    rcases List.mem_cons.mp hp with rfl | hp
    · exact fun h => terminate_not_running procs p ((settles_terminateAll ps _).running p h)
    · exact ih hp _

/-! ### Labels -/

def Known (label : String) : Prop := label ≠ "buildWorkload" ∧ label ≠ "launchWorkload"

def Exc.Known : Exc → Prop
  | .timeoutError label => Tester.Known label
  | _ => True

def Ended.Known : Ended → Prop
  | .raised e => e.Known
  | _ => True

def Ended.flawed : Ended → Bool
  | .good => false
  | _ => true

theorem known_launchJob (job : String) : Known ("launch job" ++ job) := by
  refine ⟨fun h => ?_, fun h => ?_⟩
  · have := congrArg (fun s : String => s.toList[0]?) h
    simp at this
  · have := congrArg (fun s : String => s.toList[6]?) h
    simp at this

theorem known_launches (t : Test) : ∀ label ∈ t.launches, Known label := by
  intro label hlabel
  unfold Test.launches at hlabel
  split at hlabel
  · obtain ⟨job, -, rfl⟩ := List.mem_map.mp hlabel
    exact known_launchJob job
  · obtain rfl := List.mem_singleton.mp hlabel
    exact ⟨by decide, by decide⟩

/-! ### The invariant -/

namespace State

variable {s : State} {manual : Bool} {plan : List Test}

def Quiet (s : State) : Prop := ∀ p ∈ s.jobProcs, s.procs[p]? ≠ some .running

def Calm (s : State) : Prop := s.armed = false ∧ s.flawed = false ∧ s.Quiet

def Testing (s : State) (b : Block) : Prop := s.plan ≠ [] ∧ (b = .launch → s.launches ≠ [])

/-- The handler of a block is there, and so is the alarm if there is a timeout. -/
def Watched (s : State) (b : Block) : Prop :=
  s.Testing b ∧ s.handler.isSome = true ∧ s.flawed = false ∧ s.armed = (s.seconds b != 0)

def At (s : State) : Pc → Prop
  | .next | .done => s.Calm
  | .compare => s.Calm ∧ s.plan ≠ []
  | .enter b => s.Calm ∧ s.Testing b
  | .arm b => s.Calm ∧ s.Testing b ∧ s.handler.isSome = true
  | .enterTry b => s.Watched b ∧ s.Quiet
  | .building failed => s.Testing .build ∧ s.handler.isSome = true ∧ s.flawed = failed ∧ s.Quiet
  | .select | .prepare | .popen | .logs | .outputs => s.Watched .launch ∧ s.Quiet
  | .append => s.Watched .launch ∧ s.Quiet ∧ 0 < s.procs.length
  | .wait i => s.Watched .launch ∧ ∀ p ∈ s.jobProcs.take i, s.procs[p]? = some .exited
  | .cleanUp i e =>
    s.Testing .launch ∧ s.handler.isSome = true ∧ s.flawed = true ∧ e.Known ∧
      (∀ p ∈ s.jobProcs.take i, s.procs[p]? ≠ some .running) ∧ (s.armed = true → s.Quiet)
  | .restore b r => s.Testing b ∧ s.handler.isSome = true ∧ s.flawed = r.flawed ∧ r.Known ∧ s.Quiet
  | .cancel b r => s.Testing b ∧ s.flawed = r.flawed ∧ r.Known ∧ s.Quiet
  | .exited => s.Quiet

/-- A test fails if and only if something was not good, and timeouts have labels that are not looked for. -/
def Fair (r : Result) : Prop :=
  (r.flawed = true ↔ ∃ e, r.verdict = .failure e) ∧
    ∀ label, r.verdict = .failure (some (.timeoutError label)) → Known label

structure Inv (plan : List Test) (s : State) : Prop where
  names : s.results.map Result.name ++ s.plan.map Test.name = plan.map Test.name
  results : ∀ r ∈ s.results, Fair r
  launches : ∀ label ∈ s.launches, Known label
  handler : ∀ label, s.handler = some label → Known label
  oldSignal : ∀ label, s.oldSignal = some label → Known label
  bound : ∀ p ∈ s.jobProcs, p < s.procs.length
  recorded : s.lost = false → ∀ p < s.procs.length, p ∈ s.jobProcs ∨ (s.pc = .append ∧ p + 1 = s.procs.length)
  pc : s.At s.pc

theorem inv_start (plan : List Test) : (start plan).Inv plan where
  names := rfl
  results := by simp [start]
  launches := by simp [start]
  handler := by simp [start]
  oldSignal := by simp [start]
  bound := by simp [start]
  recorded := by simp [start]
  pc := ⟨rfl, rfl, by simp [Quiet, start]⟩

/-! ### Moves -/

namespace Inv

theorem move (h : s.Inv plan) (pc : Pc) (flawed armed lost : Bool)
    (hlost : lost = false → s.lost = false ∧ s.pc ≠ .append)
    (hat : State.At { s with pc, flawed, armed, lost } pc) : State.Inv plan { s with pc, flawed, armed, lost } where
  names := h.names
  results := h.results
  launches := h.launches
  handler := h.handler
  oldSignal := h.oldSignal
  bound := h.bound
  recorded hl p hp := by
    obtain ⟨hlost, hpc⟩ := hlost hl
    exact (h.recorded hlost p hp).imp id fun hlast => absurd hlast.1 hpc
  pc := hat

theorem goto (h : s.Inv plan) (hpc : s.pc ≠ .append) (pc : Pc) (hat : s.At pc) : State.Inv plan { s with pc } :=
  h.move pc s.flawed s.armed s.lost (fun hlost => ⟨hlost, hpc⟩) (by cases pc <;> exact hat)

theorem report (h : s.Inv plan) (hpc : s.pc ≠ .append) {flawed armed : Bool} (hplan : s.plan ≠ []) (hquiet : s.Quiet)
    (harmed : armed = false) {v : Verdict} (hv : flawed = true ↔ ∃ e, v = .failure e)
    (hlabel : ∀ e, v = .failure (some e) → e.Known) : State.Inv plan ({ s with flawed, armed }.report v) := by
  obtain ⟨t, rest, hrest⟩ := List.exists_cons_of_ne_nil hplan
  have hnames := h.names
  simp only [State.report, hrest] at hnames ⊢
  exact {
    names := by simpa using hnames
    results := by
      intro r hr
      rcases List.mem_append.mp hr with hr | hr
      · exact h.results r hr
      · obtain rfl := List.mem_singleton.mp hr
        exact ⟨hv, fun label hfail => hlabel _ hfail⟩
    launches := by simp
    handler := h.handler
    oldSignal := h.oldSignal
    bound := h.bound
    recorded := fun hlost p hp => (h.recorded hlost p hp).imp id fun hlast => absurd hlast.1 hpc
    pc := ⟨harmed, rfl, hquiet⟩ }

theorem failed (h : s.Inv plan) (hpc : s.pc ≠ .append) {armed : Bool} (hplan : s.plan ≠ []) (hquiet : s.Quiet)
    (harmed : armed = false) {e : Exc} (he : e.Known) :
    State.Inv plan ({ s with flawed := true, armed }.report (.failure (some e))) := by
  refine h.report hpc hplan hquiet harmed ⟨fun _ => ⟨_, rfl⟩, fun _ => rfl⟩ fun e' he' => ?_
  cases he'
  exact he

/-- A statement that may raise an exception of its own, where the alarm may be set. -/
def Throws : Pc → Prop
  | .next | .building _ | .select | .prepare | .popen | .logs | .outputs => True
  | _ => False

theorem raise (h : s.Inv plan) {armed : Bool} {e : Exc} (he : e.Known) (hquiet : ∀ i e, s.pc = .cleanUp i e → s.Quiet)
    (harmed : armed = false ∨ Throws s.pc) : State.Inv plan ({ s with armed }.raise e) := by
  have hat := h.pc
  have hmove : ∀ pc, s.pc ≠ .append → State.At { s with pc, flawed := true, armed } pc →
      State.Inv plan { s with pc, flawed := true, armed } := fun pc hpc hat =>
    h.move pc true armed s.lost (fun hlost => ⟨hlost, hpc⟩) hat
  have hfailed : s.pc ≠ .append → ¬ Throws s.pc → s.plan ≠ [] → s.Quiet →
      State.Inv plan ({ s with flawed := true, armed }.report (.failure (some e))) := fun hpc hnot hplan hquiet =>
    h.failed hpc hplan hquiet (harmed.resolve_right hnot) he
  cases hpc : s.pc with (rw [hpc] at hat harmed hfailed; simp only [State.raise])
  | building failed => exact hmove _ (by simp [hpc]) ⟨hat.1, hat.2.1, rfl, he, hat.2.2.2⟩
  | prepare | popen | logs => exact hmove _ (by simp [hpc]) ⟨hat.1.1, hat.1.2.1, rfl, he, by simp, fun _ => hat.2⟩
  | wait i =>
    obtain rfl := harmed.resolve_right id
    exact hmove _ (by simp [hpc]) ⟨hat.1.1, hat.1.2.1, rfl, he, by simp, fun h => absurd h (by simp)⟩
  | append =>
    exact h.move _ true armed true (fun h => absurd h (by simp))
      ⟨hat.1.1, hat.1.2.1, rfl, he, by simp, fun _ => hat.2.1⟩
  | select | outputs => exact hmove _ (by simp [hpc]) ⟨hat.1.1, hat.1.2.1, rfl, he, hat.2⟩
  | cleanUp i e' => exact hmove _ (by simp [hpc]) ⟨hat.1, hat.2.1, rfl, he, hquiet i e' hpc⟩
  | enterTry b => exact hfailed nofun id hat.1.1.1 hat.2
  | restore b r => exact hfailed nofun id hat.1.1 hat.2.2.2.2
  | cancel b r => exact hfailed nofun id hat.1.1 hat.2.2.2
  | compare => exact hfailed nofun id hat.2 hat.1.2.2
  | next | done => exact hmove _ (by simp [hpc]) hat.2.2
  | enter b => exact hfailed nofun id hat.2.1 hat.1.2.2
  | arm b => exact hfailed nofun id hat.2.1.1 hat.1.2.2
  | exited => exact hmove _ (by simp [hpc]) hat

theorem throw (h : s.Inv plan) (hthrows : Throws s.pc) : State.Inv plan (s.raise .other) := by
  refine h.raise trivial (fun i e hpc => ?_) (.inr hthrows)
  rw [hpc] at hthrows
  cases hthrows

theorem cancels (h : s.Inv plan) (harmed : s.armed = true) (hhandler : s.handler = none) :
    (∃ b r, s.pc = .cancel b r) ∨ s.pc = .exited := by
  have hat := h.pc
  have hnone : ¬ s.handler.isSome = true := by simp [hhandler]
  cases hpc : s.pc with rw [hpc] at hat
  | cancel b r => exact .inl ⟨b, r, rfl⟩
  | exited => exact .inr rfl
  | next | done => cases harmed.symm.trans hat.1
  | compare | enter b | arm b => cases harmed.symm.trans hat.1.1
  | building failed | cleanUp i e | restore b r => exact absurd hat.2.1 hnone
  | enterTry b | select | prepare | popen | append | logs | outputs | wait i => exact absurd hat.1.2.1 hnone

theorem alarm_exited (h : s.Inv plan) {caught : Bool} (hexited : (s.alarm caught).pc = .exited) :
    (∃ b r, s.pc = .cancel b r) ∨ s.pc = .exited := by
  unfold State.alarm at hexited
  split at hexited
  case isFalse => exact .inr hexited
  case isTrue harmed =>
    cases hhandler : s.handler with
    | none => exact h.cancels harmed hhandler
    | some label =>
      have hat := h.pc
      cases hpc : s.pc with rw [hpc] at hat
      | cancel b r => exact .inl ⟨b, r, rfl⟩
      | exited => exact .inr rfl
      | next | done => cases harmed.symm.trans hat.1
      | enter b | arm b | enterTry b | restore b r | compare =>
        simp only [hhandler, hpc, State.raise, State.report] at hexited
        split at hexited <;> cases hexited
      | building failed => cases caught <;> simp [hhandler, hpc, State.raise] at hexited
      | select | prepare | popen | append | logs | outputs | wait i | cleanUp i e =>
        simp [hhandler, hpc, State.raise] at hexited

theorem alarm (h : s.Inv plan) (caught : Bool) : State.Inv plan (s.alarm caught) := by
  unfold State.alarm
  split
  case isFalse => exact h
  case isTrue harmed =>
    have hat := h.pc
    cases hhandler : s.handler with
    | none =>
      obtain ⟨hpc, hquiet⟩ : s.pc ≠ .append ∧ s.Quiet := by
        rcases h.cancels harmed hhandler with ⟨b, r, hpc⟩ | hpc
        · rw [hpc] at hat
          exact ⟨by simp [hpc], hat.2.2.2⟩
        · rw [hpc] at hat
          exact ⟨by simp [hpc], hat⟩
      have hmove := h.move .exited s.flawed false s.lost (fun hlost => ⟨hlost, hpc⟩) hquiet
      rwa [hhandler] at hmove
    | some label =>
      have hquiet : ∀ i e, s.pc = .cleanUp i e → s.Quiet := fun i e hpc => by
        rw [hpc] at hat
        exact hat.2.2.2.2.2 harmed
      have hknown : (Exc.timeoutError label).Known := h.handler label hhandler
      have hraise := h.raise hknown hquiet (.inl rfl)
      rw [hhandler] at hraise
      dsimp only
      split
      · rename_i hpc
        rw [hpc] at hat
        have hmove := h.move (.building true) true false s.lost (fun hlost => ⟨hlost, by simp [hpc]⟩)
          ⟨hat.1, hat.2.1, rfl, hat.2.2.2⟩
        rwa [hhandler] at hmove
      · exact hraise

theorem settle (h : s.Inv plan) {procs : List Proc} (hs : Settles s.procs procs) :
    State.Inv plan { s with procs } where
  names := h.names
  results := h.results
  launches := h.launches
  handler := h.handler
  oldSignal := h.oldSignal
  bound p hp := hs.length ▸ h.bound p hp
  recorded hlost p hp := by
    rw [hs.length] at hp ⊢
    exact h.recorded hlost p hp
  pc := by
    have hat := h.pc
    have hquiet : s.Quiet → State.Quiet { s with procs } := fun hq p hp hr => hq p hp (hs.running p hr)
    have hexited : ∀ i, (∀ p ∈ s.jobProcs.take i, s.procs[p]? = some .exited) →
        ∀ p ∈ s.jobProcs.take i, procs[p]? = some .exited := fun i hall p hp => hs.exited p (hall p hp)
    have hended : ∀ i, (∀ p ∈ s.jobProcs.take i, s.procs[p]? ≠ some .running) →
        ∀ p ∈ s.jobProcs.take i, procs[p]? ≠ some .running := fun i hall p hp hr => hall p hp (hs.running p hr)
    change State.At { s with procs } s.pc
    cases hpc : s.pc with rw [hpc] at hat
    | next | done => exact ⟨hat.1, hat.2.1, hquiet hat.2.2⟩
    | compare | enter b | arm b => exact ⟨⟨hat.1.1, hat.1.2.1, hquiet hat.1.2.2⟩, hat.2⟩
    | enterTry b | select | prepare | popen | logs | outputs => exact ⟨hat.1, hquiet hat.2⟩
    | append => exact ⟨hat.1, hquiet hat.2.1, hs.length ▸ hat.2.2⟩
    | building failed => exact ⟨hat.1, hat.2.1, hat.2.2.1, hquiet hat.2.2.2⟩
    | wait i => exact ⟨hat.1, hexited i hat.2⟩
    | cleanUp i e =>
      obtain ⟨htesting, hhandler, hflawed, he, hall, hq⟩ := hat
      exact ⟨htesting, hhandler, hflawed, he, hended i hall, fun ha => hquiet (hq ha)⟩
    | restore b r => exact ⟨hat.1, hat.2.1, hat.2.2.1, hat.2.2.2.1, hquiet hat.2.2.2.2⟩
    | cancel b r => exact ⟨hat.1, hat.2.1, hat.2.2.1, hquiet hat.2.2.2⟩
    | exited => exact hquiet hat

theorem interrupt (h : s.Inv plan) : State.Inv plan s.interrupt := by
  unfold State.interrupt
  split
  · exact h
  · have hsettled := h.settle (settles_terminateAll s.jobProcs s.procs)
    refine hsettled.move .exited s.flawed s.armed _ (fun hlost => ?_) fun p hp => terminateAll_not_running hp s.procs
    simpa using hlost

/-! ### Statements -/

theorem known_label (h : s.Inv plan) (b : Block) : Known (s.label b) := by
  cases b with
  | build =>
    rw [State.label]
    exact ⟨by decide, by decide⟩
  | launch =>
    rw [State.label]
    cases hl : s.launches with
    | nil => exact ⟨by decide, by decide⟩
    | cons label launches => exact h.launches label (by simp [hl])

theorem setHandler (h : s.Inv plan) (hpc : s.pc ≠ .append) {handler oldSignal : Option String} {pc : Pc}
    (hh : ∀ label, handler = some label → Known label) (ho : ∀ label, oldSignal = some label → Known label)
    (hat : State.At { s with handler, oldSignal, pc } pc) : State.Inv plan { s with handler, oldSignal, pc } where
  names := h.names
  results := h.results
  launches := h.launches
  handler := hh
  oldSignal := ho
  bound := h.bound
  recorded hlost p hp := (h.recorded hlost p hp).imp id fun hlast => absurd hlast.1 hpc
  pc := hat

theorem setLaunches (h : s.Inv plan) (hpc : s.pc ≠ .append) {launches : List String} {pc : Pc} {armed : Bool}
    (hl : ∀ label ∈ launches, Known label) (hat : State.At { s with launches, pc, armed } pc) :
    State.Inv plan { s with launches, pc, armed } where
  names := h.names
  results := h.results
  launches := hl
  handler := h.handler
  oldSignal := h.oldSignal
  bound := h.bound
  recorded hlost p hp := (h.recorded hlost p hp).imp id fun hlast => absurd hlast.1 hpc
  pc := hat

theorem next_test (h : s.Inv plan) (hpc : s.pc = .next) (o : Outcome) : State.Inv plan (s.next manual o) := by
  have hat := h.pc
  rw [hpc] at hat
  simp only [State.next, hpc]
  split
  · exact h.goto (by simp [hpc]) _ hat
  · rename_i t rest hplan
    have hne : s.plan ≠ [] := by simp [hplan]
    split
    · exact h.report (by simp [hpc]) hne hat.2.2 hat.1 (by simp [hat.2.1]) (by simp)
    · split
      · exact h.throw (by rw [hpc]; trivial)
      · split
        · exact h.goto (by simp [hpc]) _ ⟨hat, hne⟩
        · exact h.setLaunches (by simp [hpc]) (known_launches t) ⟨hat, hne, by simp⟩

theorem popen (h : s.Inv plan) (hpc : s.pc = .popen) :
    State.Inv plan { s with pc := .append, procs := s.procs ++ [.running] } where
  names := h.names
  results := h.results
  launches := h.launches
  handler := h.handler
  oldSignal := h.oldSignal
  bound p hp := by
    have := h.bound p hp
    simp only [List.length_append, List.length_singleton]
    omega
  recorded hlost p hp := by
    simp only [List.length_append, List.length_singleton] at hp ⊢
    by_cases hlast : p = s.procs.length
    · exact .inr ⟨trivial, by omega⟩
    · exact .inl ((h.recorded hlost p (by omega)).resolve_right (by simp [hpc]))
  pc := by
    have hat := h.pc
    rw [hpc] at hat
    refine ⟨hat.1, fun p hp hr => hat.2 p hp ?_, by simp⟩
    rwa [List.getElem?_append_left (h.bound p hp)] at hr

theorem append (h : s.Inv plan) (hpc : s.pc = .append) :
    State.Inv plan { s with pc := .wait 0, jobProcs := s.jobProcs ++ [s.procs.length - 1] } where
  names := h.names
  results := h.results
  launches := h.launches
  handler := h.handler
  oldSignal := h.oldSignal
  bound p hp := by
    have hat := h.pc
    rw [hpc] at hat
    have hpos : 0 < s.procs.length := hat.2.2
    rcases List.mem_append.mp hp with hp | hp
    · exact h.bound p hp
    · obtain rfl := List.mem_singleton.mp hp
      change s.procs.length - 1 < s.procs.length
      omega
  recorded hlost p hp := by
    refine .inl (List.mem_append.mpr ?_)
    rcases h.recorded hlost p hp with hmem | ⟨-, hlast⟩
    · exact .inl hmem
    · exact .inr (List.mem_singleton.mpr (by omega))
  pc := by
    have hat := h.pc
    rw [hpc] at hat
    exact ⟨hat.1, by simp⟩

theorem wait (h : s.Inv plan) {i : Nat} (hpc : s.pc = .wait i) (o : Outcome) : State.Inv plan (s.next manual o) := by
  have hat := h.pc
  rw [hpc] at hat
  simp only [State.next, hpc]
  split
  · rename_i hend
    refine h.goto (by simp [hpc]) _ ⟨hat.1, fun p hp hr => ?_⟩
    rw [List.getElem?_eq_none_iff] at hend
    have hexited := hat.2 p (by rwa [List.take_of_length_le hend])
    cases hexited.symm.trans hr
  · rename_i p hp
    split
    · rename_i hexited
      refine h.goto (by simp [hpc]) _ ⟨hat.1, fun q hq => ?_⟩
      rw [List.take_add_one, hp, Option.toList_some] at hq
      rcases List.mem_append.mp hq with hq | hq
      · exact hat.2 q hq
      · rwa [List.mem_singleton.mp hq]
    · exact h

theorem cleanUp (h : s.Inv plan) {i : Nat} {e : Exc} (hpc : s.pc = .cleanUp i e) (o : Outcome) :
    State.Inv plan (s.next manual o) := by
  have hat := h.pc
  rw [hpc] at hat
  obtain ⟨htesting, hhandler, hflawed, he, hall, hquiet⟩ := hat
  simp only [State.next, hpc]
  split
  · rename_i hend
    rw [List.getElem?_eq_none_iff] at hend
    refine h.goto (by simp [hpc]) _ ⟨htesting, hhandler, hflawed, he, fun p hp => hall p ?_⟩
    rwa [List.take_of_length_le hend]
  · rename_i p hp
    have hsettles := settles_terminate s.procs p
    refine (h.settle hsettles).goto (by simp [hpc]) _
      ⟨htesting, hhandler, hflawed, he, fun q hq => ?_, fun ha q hq hr => hquiet ha q hq (hsettles.running q hr)⟩
    rw [List.take_add_one, hp, Option.toList_some] at hq
    rcases List.mem_append.mp hq with hq | hq
    · exact fun hr => hall q hq (hsettles.running q hr)
    · rw [List.mem_singleton.mp hq]
      exact terminate_not_running s.procs p

theorem proceed (h : s.Inv plan) (hpc : s.pc ≠ .append) {launches : List String} (hl : ∀ label ∈ launches, Known label)
    (hplan : s.plan ≠ []) (hflawed : s.flawed = false) (hquiet : s.Quiet) :
    State.Inv plan (State.proceed { s with armed := false, launches }) := by
  unfold State.proceed
  refine h.setLaunches hpc hl ?_
  dsimp only
  split
  · exact ⟨⟨rfl, hflawed, hquiet⟩, hplan⟩
  · rename_i hne
    exact ⟨⟨rfl, hflawed, hquiet⟩, hplan, fun _ => hne⟩

theorem cancel (h : s.Inv plan) {b : Block} {r : Ended} (hpc : s.pc = .cancel b r) (o : Outcome) :
    State.Inv plan (s.next manual o) := by
  have hat := h.pc
  rw [hpc] at hat
  obtain ⟨⟨hplan, -⟩, hflawed, hknown, hquiet⟩ := hat
  have hpc' : s.pc ≠ .append := by simp [hpc]
  simp only [State.next, hpc]
  cases r with
  | good =>
    cases b with
    | build =>
      have hproceed := h.proceed hpc' h.launches hplan hflawed hquiet
      rwa [hpc] at hproceed
    | launch =>
      have hproceed := h.proceed hpc' (fun l hl => h.launches l (List.mem_of_mem_tail hl)) hplan hflawed hquiet
      rwa [hpc] at hproceed
  | bad =>
    have hflawed : s.flawed = true := hflawed
    have hfailed := h.failed (e := .testFailure) hpc' hplan hquiet rfl trivial
    rw [hpc, ← hflawed] at hfailed
    cases b with
    | build => exact hfailed
    | launch => exact hfailed
  | raised e =>
    have hflawed : s.flawed = true := hflawed
    have hfailed := h.failed hpc' hplan hquiet rfl hknown
    rw [hpc, ← hflawed] at hfailed
    cases b with
    | build => exact hfailed
    | launch => exact hfailed

theorem next (h : s.Inv plan) (o : Outcome) : State.Inv plan (s.next manual o) := by
  have hat := h.pc
  cases hpc : s.pc with rw [hpc] at hat
  | next => exact h.next_test hpc o
  | enter b =>
    simp only [State.next, hpc]
    refine h.setHandler (by simp [hpc]) (fun label hl => ?_) h.handler ⟨hat.1, hat.2, rfl⟩
    obtain rfl := Option.some.inj hl
    exact h.known_label b
  | arm b =>
    simp only [State.next, hpc]
    exact h.move _ s.flawed _ s.lost (fun hlost => ⟨hlost, by simp [hpc]⟩)
      ⟨⟨hat.2.1, hat.2.2, hat.1.2.1, rfl⟩, hat.1.2.2⟩
  | enterTry b =>
    obtain ⟨⟨htesting, hhandler, hflawed, harmed⟩, hquiet⟩ := hat
    cases b with
    | build =>
      simp only [State.next, hpc]
      exact h.goto (by simp [hpc]) _ ⟨htesting, hhandler, hflawed, hquiet⟩
    | launch =>
      simp only [State.next, hpc]
      exact h.goto (by simp [hpc]) _ ⟨⟨htesting, hhandler, hflawed, harmed⟩, hquiet⟩
  | building failed =>
    obtain ⟨htesting, hhandler, hflawed, hquiet⟩ := hat
    simp only [State.next, hpc]
    cases o with
    | good =>
      refine h.goto (by simp [hpc]) _ ⟨htesting, hhandler, ?_, ?_, hquiet⟩
      · cases failed <;> exact hflawed
      · cases failed <;> trivial
    | bad =>
      exact h.move _ true s.armed s.lost (fun hlost => ⟨hlost, by simp [hpc]⟩)
        ⟨htesting, hhandler, rfl, trivial, hquiet⟩
    | raised => exact h.throw (by rw [hpc]; trivial)
  | select =>
    simp only [State.next, hpc]
    split
    · exact h.goto (by simp [hpc]) _ hat
    · exact h.throw (by rw [hpc]; trivial)
  | prepare =>
    simp only [State.next, hpc]
    cases o with
    | good => exact h.goto (by simp [hpc]) _ hat
    | bad => exact h.goto (by simp [hpc]) _ ⟨hat.1, by simp⟩
    | raised => exact h.throw (by rw [hpc]; trivial)
  | popen =>
    simp only [State.next, hpc]
    split
    · exact h.popen hpc
    · exact h.throw (by rw [hpc]; trivial)
  | append =>
    simp only [State.next, hpc]
    exact h.append hpc
  | wait i => exact h.wait hpc o
  | logs =>
    simp only [State.next, hpc]
    split
    · exact h.goto (by simp [hpc]) _ hat
    · exact h.throw (by rw [hpc]; trivial)
  | cleanUp i e => exact h.cleanUp hpc o
  | outputs =>
    obtain ⟨⟨htesting, hhandler, hflawed, -⟩, hquiet⟩ := hat
    simp only [State.next, hpc]
    split
    · exact h.goto (by simp [hpc]) _ ⟨htesting, hhandler, hflawed, trivial, hquiet⟩
    · exact h.throw (by rw [hpc]; trivial)
  | restore b r =>
    simp only [State.next, hpc]
    exact h.setHandler (by simp [hpc]) h.oldSignal h.oldSignal ⟨hat.1, hat.2.2⟩
  | cancel b r => exact h.cancel hpc o
  | compare =>
    obtain ⟨⟨harmed, hflawed, hquiet⟩, hplan⟩ := hat
    have hpc' : s.pc ≠ .append := by simp [hpc]
    simp only [State.next, hpc]
    cases o with
    | good => exact h.report hpc' hplan hquiet harmed (by simp [hflawed]) (by simp)
    | bad =>
      have hreport := h.report (v := .failure none) hpc' hplan hquiet harmed ⟨fun _ => ⟨_, rfl⟩, fun _ => rfl⟩ (by simp)
      rwa [hpc] at hreport
    | raised => exact h.raise trivial (by simp [hpc]) (.inl harmed)
  | done | exited =>
    simp only [State.next, hpc]
    exact h

theorem step (h : s.Inv plan) (a : Act) : State.Inv plan (s.step manual a) := by
  cases a with
  | next o => exact h.next o
  | alarm caught => exact h.alarm caught
  | interrupt => exact h.interrupt
  | exit p => exact h.settle (settles_exit s.procs p)

end Inv

theorem inv_always (manual : Bool) (plan : List Test) (as : List Act) :
    Run.Always (State.step manual) (start plan) as (State.Inv plan) :=
  Run.always_of_step (inv_start plan) fun _ a h => h.step a

/-- The program is busy with a simulator: it has started one, waits for them or terminates them. -/
def Launching (s : State) : Prop :=
  s.pc = .append ∨ (∃ i, s.pc = .wait i) ∨ ∃ i e, s.pc = .cleanUp i e

theorem Inv.quiet (h : s.Inv plan) (hl : ¬ s.Launching) : s.Quiet := by
  have hat := h.pc
  cases hpc : s.pc with rw [hpc] at hat
  | append => exact absurd (.inl hpc) hl
  | wait i => exact absurd (.inr (.inl ⟨i, hpc⟩)) hl
  | cleanUp i e => exact absurd (.inr (.inr ⟨i, e, hpc⟩)) hl
  | next | done => exact hat.2.2
  | compare | enter b | arm b => exact hat.1.2.2
  | enterTry b | select | prepare | popen | logs | outputs => exact hat.2
  | building failed | cancel b r => exact hat.2.2.2
  | restore b r => exact hat.2.2.2.2
  | exited => exact hat

theorem Inv.exitCode (h : s.Inv plan) : s.exitCode = 1 ↔ ∃ r ∈ s.results, r.flawed = true := by
  simp only [State.exitCode, List.any_eq_true]
  constructor
  · intro hcode
    split at hcode
    · rename_i hfailed
      obtain ⟨r, hr, hverdict⟩ := hfailed
      refine ⟨r, hr, (h.results r hr).1.mpr ?_⟩
      split at hverdict
      · rename_i e he
        exact ⟨e, he⟩
      · cases hverdict
    · cases hcode
  · rintro ⟨r, hr, hflawed⟩
    obtain ⟨e, he⟩ := (h.results r hr).1.mp hflawed
    exact if_pos ⟨r, hr, by rw [he]⟩

end State

end Tester
end FireMarshal
