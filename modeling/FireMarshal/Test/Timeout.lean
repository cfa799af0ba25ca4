import Mathlib.Data.List.Basic

/-! Tests with timeouts: the loop of `marshal test` over its configurations (`marshal`), `testWorkload` and `timeout`
(`wlutil/test.py`), and the simulators that `launchWorkload` starts and waits for (`wlutil/launch.py`).

SIGALRM may come between any two statements while the alarm is set, SIGINT at any time, and a simulator may end at any
time. What a statement comes to is left open: it is good or bad, or raises an exception. Once marshal exits nothing is
modelled. `lost` and `flawed` are not in the source. -/

namespace FireMarshal
namespace Tester

structure Test where
  name : String
  /-- There is the option 'testing', and in it 'refDir'. -/
  testing : Bool := true
  refDir : Bool := true
  jobs : Option (List String) := none
  buildTimeout : Nat := 2400
  runTimeout : Nat := 2400
deriving DecidableEq, Repr

def Test.launches (t : Test) : List String :=
  match t.jobs with
  | some jobs => jobs.map ("launch job" ++ ·)
  | none => ["launch"]

inductive Exc where
  | timeoutError (label : String)
  | testFailure
  | other
deriving DecidableEq, Repr

inductive Verdict where
  | success
  /-- Without an exception, the output does not match the reference. -/
  | failure (e : Option Exc)
  | skip
deriving DecidableEq, Repr

/-- What `testWorkload` logs for a timeout. -/
def timeoutMessage (cfgName label : String) : String :=
  if label = "buildWorkload" then "Test " ++ cfgName ++ " failure: timeout while building"
  else if label = "launchWorkload" then "Test " ++ cfgName ++ " failure: timeout while running"
  else "Internal tester error: timeout from unrecognized function: " ++ label

inductive Outcome where
  | good
  | bad
  | raised
deriving DecidableEq, Repr

inductive Proc where
  | running
  | terminated
  | exited
deriving DecidableEq, Repr

/-- The blocks of `testWorkload` with a timeout. -/
inductive Block where
  | build
  | launch
deriving DecidableEq, Repr

/-- How a block ended; a build may return an error. -/
inductive Ended where
  | good
  | bad
  | raised (e : Exc)
deriving DecidableEq, Repr

inductive Pc where
  | next
  /-- At `signal.signal` in `timeout`. -/
  | enter (b : Block)
  | arm (b : Block)
  | enterTry (b : Block)
  /-- In `buildWorkload`, which takes an exception in a task for a failure of the task. -/
  | building (failed : Bool)
  /-- In `launchWorkload`, before `try`. -/
  | select
  | prepare
  | popen
  | append
  | wait (i : Nat)
  | logs
  /-- In `cleanUpSubProcesses`, at the i-th of the processes, with the exception that is raised again. -/
  | cleanUp (i : Nat) (e : Exc)
  | outputs
  /-- At `signal.signal` in `finally`. -/
  | restore (b : Block) (r : Ended)
  | cancel (b : Block) (r : Ended)
  | compare
  | done
  | exited
deriving DecidableEq, Repr

structure Result where
  name : String
  verdict : Verdict
  flawed : Bool
deriving DecidableEq, Repr

structure State where
  /-- The configurations that are left; the first one is tested. -/
  plan : List Test
  results : List Result := []
  pc : Pc := .next
  /-- The launches that are left; the first one is under way. -/
  launches : List String := []
  /-- The label in the handler of SIGALRM, unless it is the default one. -/
  handler : Option String := none
  oldSignal : Option String := none
  armed : Bool := false
  procs : List Proc := []
  jobProcs : List Nat := []
  /-- A signal came when a simulator had been started and was not in `jobProcs` yet. -/
  lost : Bool := false
  /-- In this test something was not good, or there was a timeout. -/
  flawed : Bool := false
deriving DecidableEq, Repr

namespace State

def label (s : State) : Block → String
  | .build => "build"
  | .launch => s.launches.headD ""

def seconds (s : State) : Block → Nat
  | .build => (s.plan.head?.map Test.buildTimeout).getD 0
  | .launch => (s.plan.head?.map Test.runTimeout).getD 0

def report (s : State) (v : Verdict) : State :=
  match s.plan with
  | [] => s
  | t :: plan =>
    { s with plan, results := s.results ++ [⟨t.name, v, s.flawed⟩], flawed := false, pc := .next, launches := [] }

/-- Where the program goes on after an exception. -/
def raise (s : State) (e : Exc) : State :=
  let s := { s with flawed := true }
  match s.pc with
  | .building _ => { s with pc := .restore .build (.raised e) }
  | .prepare | .popen | .wait _ | .logs => { s with pc := .cleanUp 0 e }
  | .append => { s with pc := .cleanUp 0 e, lost := true }
  | .select | .outputs | .cleanUp _ _ => { s with pc := .restore .launch (.raised e) }
  -- The handler is not put back.
  | .enter _ | .arm _ | .enterTry _ | .restore _ _ | .cancel _ _ | .compare => s.report (.failure (some e))
  | .next | .done | .exited => { s with pc := .exited }

def terminate (procs : List Proc) (p : Nat) : List Proc :=
  if procs[p]? = some .running then procs.set p .terminated else procs

def proceed (s : State) : State := { s with pc := if s.launches = [] then .compare else .enter .launch }

/-- The next statement, which comes to `o`. -/
def next (manual : Bool) (s : State) (o : Outcome) : State :=
  match s.pc with
  | .next =>
    match s.plan with
    | [] => { s with pc := .done }
    | t :: _ =>
      if ¬ t.testing then s.report .skip
      else if ¬ t.refDir then s.raise .other
      else if manual then { s with pc := .compare }
      else { s with pc := .enter .build, launches := t.launches }
  | .enter b => { s with oldSignal := s.handler, handler := some (s.label b), pc := .arm b }
  | .arm b => { s with armed := s.seconds b != 0, pc := .enterTry b }
  | .enterTry .build => { s with pc := .building false }
  | .enterTry .launch => { s with pc := .select }
  | .building failed =>
    match o with
    | .raised => s.raise .other
    | .good => { s with pc := .restore .build (if failed then .bad else .good) }
    | .bad => { s with pc := .restore .build .bad, flawed := true }
  | .select => if o = .good then { s with pc := .prepare } else s.raise .other
  | .prepare =>
    match o with
    | .good => { s with pc := .popen }
    -- The option 'launch' is false.
    | .bad => { s with pc := .wait 0 }
    | .raised => s.raise .other
  | .popen => if o = .good then { s with pc := .append, procs := s.procs ++ [.running] } else s.raise .other
  | .append => { s with pc := .wait 0, jobProcs := s.jobProcs ++ [s.procs.length - 1] }
  | .wait i =>
    match s.jobProcs[i]? with
    | none => { s with pc := .logs }
    | some p => if s.procs[p]? = some .exited then { s with pc := .wait (i + 1) } else s
  | .logs => if o = .good then { s with pc := .outputs } else s.raise .other
  | .cleanUp i e =>
    match s.jobProcs[i]? with
    | none => { s with pc := .restore .launch (.raised e) }
    | some p => { s with pc := .cleanUp (i + 1) e, procs := terminate s.procs p }
  | .outputs => if o = .good then { s with pc := .restore .launch .good } else s.raise .other
  | .restore b r => { s with handler := s.oldSignal, pc := .cancel b r }
  | .cancel b r =>
    let s := { s with armed := false }
    match b, r with
    | .build, .good => s.proceed
    | .launch, .good => { s with launches := s.launches.tail }.proceed
    | _, .bad => s.report (.failure (some .testFailure))
    | _, .raised e => s.report (.failure (some e))
  | .compare =>
    match o with
    | .good => s.report .success
    | .bad => { s with flawed := true }.report (.failure none)
    | .raised => s.raise .other
  | .done | .exited => s

/-- SIGALRM. An exception in a build may be caught there. -/
def alarm (s : State) (caught : Bool) : State :=
  if s.armed then
    let s := { s with armed := false }
    match s.handler with
    | none => { s with pc := .exited }
    | some label =>
      match s.pc, caught with
      | .building _, true => { s with pc := .building true, flawed := true }
      | _, _ => s.raise (.timeoutError label)
  else s

/-- SIGINT: `sigIntHandler` (`wlutil/wlutil.py`) calls `cleanUpSubProcesses` and exits. -/
def interrupt (s : State) : State :=
  if s.pc = .done ∨ s.pc = .exited then s
  else
    { s with
      pc := .exited
      procs := s.jobProcs.foldl terminate s.procs
      lost := s.lost || s.pc = .append }

end State

inductive Act where
  | next (o : Outcome)
  | alarm (caught : Bool)
  | interrupt
  | exit (p : Nat)
deriving DecidableEq, Repr

def State.step (manual : Bool) (s : State) : Act → State
  | .next o => s.next manual o
  | .alarm caught => s.alarm caught
  | .interrupt => s.interrupt
  | .exit p => { s with procs := s.procs.set p .exited }

def start (plan : List Test) : State := { plan }

/-- The exit code of `marshal test`, at the end of its loop. -/
def State.exitCode (s : State) : Nat :=
  if s.results.any fun r => match r.verdict with
    | .failure _ => true
    | _ => false
  then 1 else 0

end Tester
end FireMarshal
