import FireMarshal.Lib.Run
import FireMarshal.Iocache.Eventfd

/-! References to event contexts. A reference that the driver has taken is that of `ev_ctx`, or one that a single
    call holds: one that is to be put in, or one that it took out. -/

namespace FireMarshal.Iocache

def EvPc.held : EvPc → List EventfdCtx
  | .locking new => new.toList
  | .putting old => old.toList

namespace EvCalls

variable {s : EvCalls} {t : Task}

def inFlight (s : EvCalls) : List EventfdCtx := s.calls.flatMap fun c => c.2.held

structure Inv (s : EvCalls) : Prop where
  threads : s.calls.keys.Nodup
  refs : s.ev.taken.Perm (s.ev.evCtx.toList ++ s.inFlight)
  once : s.ev.overput = false

/-! ### Steps -/

theorem Inv.enter {new : Option EventfdCtx} (h : Inv s) : Inv (s.enter t new) := by
  unfold EvCalls.enter
  split
  · exact h
  · next hidle =>
    have hnew : t ∉ s.calls.keys := fun hmem => hidle (Dict.mem_keys_iff.mp hmem)
    refine ⟨List.nodup_cons.mpr ⟨hnew, h.threads⟩, ?_, ?_⟩
    · cases new with
      | none => exact h.refs
      | some ctx => exact (h.refs.cons ctx).trans List.perm_middle.symm
    · cases new <;> exact h.once

theorem inFlight_perm {pc : EvPc} (h : Inv s) (hpc : s.calls.lookup t = some pc) :
    s.inFlight.Perm (pc.held ++ (s.calls.filter fun (u, _) => u != t).flatMap fun c => c.2.held) := by
  have hperm := (Dict.perm_of_lookup h.threads hpc).flatMap_right fun c => c.2.held
  rwa [List.flatMap_cons] at hperm

theorem threads_filter (h : Inv s) : Dict.keys (s.calls.filter fun (u, _) => u != t) |>.Nodup :=
  h.threads.sublist (List.filter_sublist.map _)

theorem Inv.exchange (h : Inv s) : Inv (s.step (.exchange t)) := by
  simp only [EvCalls.step]
  split
  · next new hpc =>
    refine ⟨List.nodup_cons.mpr ⟨by simp, threads_filter h⟩, ?_, h.once⟩
    -- The call holds what was in `ev_ctx`, which holds what the call had.
    exact (h.refs.trans ((inFlight_perm h hpc).append_left _)).trans (List.perm_append_comm_assoc ..)
  · exact h

theorem Inv.put (h : Inv s) : Inv (s.step (.put t)) := by
  simp only [EvCalls.step]
  split
  · next old hpc =>
    have hrefs := h.refs.trans ((inFlight_perm h hpc).append_left _)
    cases old with
    | none => exact ⟨threads_filter h, hrefs, h.once⟩
    | some ctx =>
      have hperm := hrefs.trans List.perm_middle
      have hmem : ctx ∈ s.ev.taken := hperm.mem_iff.mpr List.mem_cons_self
      simp only [Eventfds.put, if_pos hmem]
      refine ⟨threads_filter h, ?_, h.once⟩
      have herase := hperm.erase ctx
      rwa [List.erase_cons_head] at herase
  · exact h

theorem Inv.step (h : Inv s) (ev : EvEvent) : Inv (s.step ev) := by
  cases ev with
  | setEventfd t arg =>
    cases arg with
    | unreadable | invalid _ => exact h
    | clear => exact h.enter
    | valid ctx => exact h.enter
  | release t => exact h.enter
  | exchange t => exact h.exchange
  | put t => exact h.put

/-! ### Calls that no other one overlaps -/

theorem filter_idle (h : s.calls.hasKey t = false) : (s.calls.filter fun (u, _) => u != t) = s.calls := by
  refine List.filter_eq_self.mpr fun c hc => ?_
  rw [bne_iff_ne]
  rintro rfl
  have hkey : s.calls.hasKey c.1 = true := Dict.mem_keys_iff.mp (List.mem_map.mpr ⟨c, hc, rfl⟩)
  rw [h] at hkey
  cases hkey

theorem enter_steps (new : Option EventfdCtx) (h : s.calls.hasKey t = false) :
    ((s.enter t new).step (.exchange t)).step (.put t) =
      { s with ev := { new.elim s.ev s.ev.fdget with evCtx := new }.put s.ev.evCtx } := by
  have hctx : (new.elim s.ev s.ev.fdget).evCtx = s.ev.evCtx := by cases new <;> rfl
  have hself : ∀ pc : EvPc, List.lookup t ((t, pc) :: s.calls) = some pc := fun pc => by simp
  have hfilter : ∀ pc : EvPc, (((t, pc) :: s.calls).filter fun (u, _) => u != t) = s.calls := fun pc => by
    rw [List.filter_cons_of_neg (by simp), filter_idle h]
  simp only [enter, h, Bool.false_eq_true, if_false, EvCalls.step, hself, hfilter, Eventfds.exchange, hctx]

/-- A call of `SET_EVENTFD` in steps. -/
theorem setEventfd_steps (arg : EfdArg) (h : s.calls.hasKey t = false) :
    ((s.step (.setEventfd t arg)).step (.exchange t)).step (.put t) = { s with ev := (s.ev.setEventfd arg).2 } := by
  have hnone : s.calls.lookup t = none := Dict.lookup_of_not_hasKey (by simp [h])
  cases arg with
  | unreadable | invalid _ => simp only [EvCalls.step, hnone, Eventfds.setEventfd]
  | clear => exact enter_steps none h
  | valid ctx => exact enter_steps (some ctx) h

theorem release_steps (h : s.calls.hasKey t = false) :
    ((s.step (.release t)).step (.exchange t)).step (.put t) = { s with ev := s.ev.release } := enter_steps none h

/-! ### Runs -/

/-- No reference is lost, none is put twice, and the context of the device is one that the driver has a reference
    of. When no call is in progress, this reference is the only one. -/
structure Accounted (s : EvCalls) : Prop where
  refs : s.ev.taken.Perm (s.ev.evCtx.toList ++ s.inFlight)
  once : s.ev.overput = false
  live : ∀ ctx, s.ev.evCtx = some ctx → ctx ∈ s.ev.taken
  quiet : s.calls = [] → s.ev.taken.length = if s.ev.evCtx.isSome then 1 else 0

theorem Inv.accounted (h : Inv s) : Accounted s := by
  refine ⟨h.refs, h.once, fun ctx hctx => ?_, fun hquiet => ?_⟩
  · rw [h.refs.mem_iff, hctx]
    exact List.mem_append_left _ (List.mem_singleton.mpr rfl)
  · rw [h.refs.length_eq, inFlight, hquiet]
    cases s.ev.evCtx <;> rfl

end EvCalls

/-- In every run of calls of `SET_EVENTFD` and releases that overlap in any way. -/
theorem eventfds_accounted (evs : List EvEvent) : Run.Always EvCalls.step {} evs EvCalls.Accounted := by
  have h0 : EvCalls.Inv {} := ⟨List.nodup_nil, .nil, rfl⟩
  exact (Run.always_of_step h0 fun _ ev h => h.step ev).mono fun _ h => h.accounted

end FireMarshal.Iocache
