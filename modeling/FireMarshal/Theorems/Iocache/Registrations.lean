import FireMarshal.Lib.Run
import FireMarshal.Iocache.Library

/-! Event contexts of several processes. The device has one `ev_ctx` for all of them, which every registration
    replaces and every close of the device empties. -/

namespace FireMarshal.Iocache

namespace Eventfds

variable {s : Eventfds}

theorem evCtx_put (s : Eventfds) (old : Option EventfdCtx) : (s.put old).evCtx = s.evCtx := by
  unfold put
  split
  · rfl
  · split <;> rfl

theorem evCtx_release (s : Eventfds) : s.release.evCtx = none := evCtx_put _ _

theorem evCtx_setEventfd (s : Eventfds) (arg : EfdArg) : (s.setEventfd arg).2.evCtx = match arg with
    | .valid ctx => some ctx
    | .clear => none
    | _ => s.evCtx := by
  cases arg with
  | unreadable | invalid _ => rfl
  | clear => exact evCtx_put _ _
  | valid ctx => exact evCtx_put _ _

theorem evCtx_releases {n : Nat} (h : n ≠ 0) (s : Eventfds) : (release^[n] s).evCtx = none := by
  obtain ⟨m, rfl⟩ := Nat.exists_eq_succ_of_ne_zero h
  rw [Function.iterate_succ_apply']
  exact evCtx_release _

end Eventfds

namespace Sys

variable {s : Sys} {ev : SysEvent}

/-- The process whose registration an event changes, and what the event leaves in `ev_ctx`. -/
def sets (s : Sys) : SysEvent → Option (Task × Option EventfdCtx)
  | .setEventfd p (.valid ctx) => if s.dev.CanIoctl p then some (p, some ctx) else none
  | .setEventfd p .clear => if s.dev.CanIoctl p then some (p, none) else none
  | .ring (.close p) => if s.dev.HasOpen p then some (p, none) else none
  | .ring (.exit p) => if s.dev.HasOpen p then some (p, none) else none
  | _ => none

theorem step_of_sets_none (h : s.sets ev = none) :
    (s.step ev).ev.evCtx = s.ev.evCtx ∧ (s.step ev).registered = s.registered := by
  cases ev with
  | ring e =>
    cases e with
    | close p =>
      have hp : ¬ s.dev.HasOpen p := by simpa [sets] using h
      simp [step, closes, hp]
    | exit p =>
      have hp : ¬ s.dev.HasOpen p := by simpa [sets] using h
      simp [step, closes, hp, List.count_eq_zero_of_not_mem hp]
    | _ => exact ⟨rfl, rfl⟩
  | setEventfd p arg =>
    by_cases hp : s.dev.CanIoctl p
    · cases arg with
      | valid ctx => simp [sets, hp] at h
      | clear => simp [sets, hp] at h
      | unreadable | invalid _ => simp [step, hp, Eventfds.evCtx_setEventfd]
    · simp [step, hp]

theorem step_of_sets_some {p : Task} {new : Option EventfdCtx} (h : s.sets ev = some (p, new)) :
    (s.step ev).ev.evCtx = new ∧ (s.step ev).registered = Function.update s.registered p new := by
  cases ev with
  | ring e =>
    cases e with
    | close q =>
      simp only [sets, Option.ite_none_right_eq_some, Option.some.injEq, Prod.mk.injEq] at h
      obtain ⟨hq, rfl, rfl⟩ := h
      simp [step, closes, hq, Eventfds.evCtx_release]
    | exit q =>
      simp only [sets, Option.ite_none_right_eq_some, Option.some.injEq, Prod.mk.injEq] at h
      obtain ⟨hq, rfl, rfl⟩ := h
      have hcount : s.dev.files.count q ≠ 0 := Nat.ne_of_gt (List.count_pos_iff.mpr hq)
      simp [step, closes, hq, Eventfds.evCtx_releases hcount]
    | _ => cases h
  | setEventfd q arg =>
    cases arg with
    | unreadable | invalid _ => cases h
    | clear =>
      simp only [sets, Option.ite_none_right_eq_some, Option.some.injEq, Prod.mk.injEq] at h
      obtain ⟨hq, rfl, rfl⟩ := h
      simp [step, hq, Eventfds.evCtx_setEventfd]
    | valid ctx =>
      simp only [sets, Option.ite_none_right_eq_some, Option.some.injEq, Prod.mk.injEq] at h
      obtain ⟨hq, rfl, rfl⟩ := h
      simp [step, hq, Eventfds.evCtx_setEventfd]

/-! ### Runs -/

/-- What a process has registered is the context of the device. -/
def Kept (s : Sys) : Prop := ∀ p ctx, s.registered p = some ctx → s.ev.evCtx = some ctx

/-- Where an event of a process sets `ev_ctx`, no other process has a registration, or it is of the same context. -/
def Alone (s : Sys) (ev : SysEvent) : Prop :=
  ∀ p new, s.sets ev = some (p, new) → ∀ q, q ≠ p → s.registered q = none ∨ s.registered q = new

theorem Kept.step (h : Kept s) (halone : s.Alone ev) : Kept (s.step ev) := by
  intro q ctx hq
  cases hsets : s.sets ev with
  | none =>
    obtain ⟨hctx, hregistered⟩ := step_of_sets_none hsets
    rw [hctx]
    exact h q ctx (hregistered ▸ hq)
  | some c =>
    obtain ⟨p, new⟩ := c
    obtain ⟨hctx, hregistered⟩ := step_of_sets_some hsets
    rw [hregistered, Function.update_apply] at hq
    rw [hctx]
    split at hq
    · exact hq
    · next hne =>
      rcases halone p new hsets q hne with hnone | hsame
      · rw [hnone] at hq
        cases hq
      · rw [← hsame, hq]

theorem Kept.not_step (halone : ¬ s.Alone ev) : ¬ Kept (s.step ev) := by
  intro hkept
  refine halone fun p new hsets q hne => ?_
  obtain ⟨hctx, hregistered⟩ := step_of_sets_some hsets
  cases hq : s.registered q with
  | none => exact .inl rfl
  | some ctx =>
    right
    rw [← hctx]
    refine (hkept q ctx ?_).symm
    rw [hregistered, Function.update_of_ne hne]
    exact hq

end Sys

/-- Exactly the runs in which no event disturbs the registration of another process keep all registrations. -/
theorem registrations_kept_iff (rxBase txBase : Nat → BitVec 64) (evs : List SysEvent) :
    Run.Always Sys.step (Sys.probe rxBase txBase) evs Sys.Kept ↔
      Run.Guarded Sys.step (Sys.probe rxBase txBase) evs Sys.Alone := by
  have h0 : Sys.Kept (Sys.probe rxBase txBase) := fun p ctx hp => by cases hp
  exact Run.always_iff_guarded h0 (fun _ _ h => h.step) (fun _ h => h) fun _ _ _ => Sys.Kept.not_step

/-- A second process takes over the context of the device when it registers its own, and empties it when it closes
    the device without having registered one. -/
theorem registration_lost :
    ¬ Run.Always Sys.step (Sys.probe (fun _ => 0) fun _ => 0)
      [.ring (.spawn 1 0), .ring (.openDev 1), .setEventfd 1 (.valid 7), .ring (.spawn 2 0), .ring (.openDev 2),
        .setEventfd 2 (.valid 8)] Sys.Kept ∧
    ¬ Run.Always Sys.step (Sys.probe (fun _ => 0) fun _ => 0)
      [.ring (.spawn 1 0), .ring (.openDev 1), .setEventfd 1 (.valid 7), .ring (.spawn 2 0), .ring (.openDev 2),
        .ring (.close 2)] Sys.Kept := by
  constructor
  · intro h
    exact absurd (h _ (List.prefix_refl _) 1 7 (by decide +kernel)) (by decide +kernel)
  · intro h
    exact absurd (h _ (List.prefix_refl _) 1 7 (by decide +kernel)) (by decide +kernel)

end FireMarshal.Iocache
