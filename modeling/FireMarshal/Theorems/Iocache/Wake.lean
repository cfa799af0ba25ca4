import FireMarshal.Theorems.Iocache.Rows

/-! `PROC_PTR` registers and the processes they name. `FREE_RING` clears the pointer of a row, but neither
    `iocache_misc_release` nor the exit of a process does; so the pointers name live owners exactly in the runs in
    which no process exits while a row names it. -/

namespace FireMarshal.Iocache
namespace Dev

variable {s t : Dev} {p : Task}

/-- Each row with a pointer names a live process that reserved it, and the interrupt handler wakes live
    processes only. -/
structure RowsLive (s : Dev) : Prop where
  rows : ∀ row, InRange row → s.procPtr row ≠ 0 → s.procPtr row ∈ s.alive ∧ (s.procPtr row, row) ∈ s.held
  wakes : ∀ cpu count mask, ∀ p ∈ (s.isrRx cpu count mask).2, p ∈ s.alive

structure PtrInv (s : Dev) : Prop where
  alive_ne : ∀ p ∈ s.alive, p ≠ 0
  rows : ∀ row, InRange row → s.procPtr row ≠ 0 → s.procPtr row ∈ s.alive ∧ (s.procPtr row, row) ∈ s.held

theorem mem_isrLoop {mask : BitVec 64} {rows : List Nat} {count : Nat} (h : p ∈ isrLoop s mask rows count) :
    p ≠ 0 ∧ ∃ i ∈ rows, p = s.procPtr (BitVec.ofNat 32 i) := by
  induction rows generalizing count with
  | nil => cases h
  | cons i rows ih =>
    have later : ∀ {c}, p ∈ isrLoop s mask rows c → p ≠ 0 ∧ ∃ j ∈ i :: rows, p = s.procPtr (BitVec.ofNat 32 j) := by
      intro c hc
      obtain ⟨hne, j, hj, hp⟩ := ih hc
      exact ⟨hne, j, List.mem_cons_of_mem _ hj, hp⟩
    simp only [isrLoop] at h
    split at h
    · cases h
    · split at h
      · split at h
        · exact later h
        · next hne =>
          rcases List.mem_cons.mp h with rfl | h
          · exact ⟨hne, i, List.mem_cons_self, rfl⟩
          · exact later h
      · exact later h

theorem PtrInv.rowsLive (h : PtrInv s) : RowsLive s := by
  refine ⟨h.rows, fun cpu count mask p hp => ?_⟩
  obtain ⟨hne, i, hi, rfl⟩ := mem_isrLoop hp
  exact (h.rows _ (inRange_ofNat (List.mem_range.mp hi)) hne).1

theorem PtrInv.of_kept (h : PtrInv s) (halive : ∀ p ∈ t.alive, p ≠ 0)
    (hrow : ∀ row, InRange row → t.procPtr row ≠ 0 →
      t.procPtr row = s.procPtr row ∧ (s.procPtr row ∈ s.alive → s.procPtr row ∈ t.alive) ∧
        ((s.procPtr row, row) ∈ s.held → (s.procPtr row, row) ∈ t.held)) : PtrInv t := by
  refine ⟨halive, fun row hr hne => ?_⟩
  obtain ⟨heq, ha, hh⟩ := hrow row hr hne
  rw [heq] at hne ⊢
  obtain ⟨hal, hheld⟩ := h.rows row hr hne
  exact ⟨ha hal, hh hheld⟩

/-- The condition on a step of a run: a process that exits is named by no row. -/
def ExitsUnnamed (s : Dev) : Event → Prop
  | .exit p => p ∈ s.alive → ∀ row, InRange row → s.procPtr row ≠ p
  | _ => True

theorem PtrInv.step {ev : Event} (h : PtrInv s) (hev : s.ExitsUnnamed ev) : PtrInv (s.step ev) := by
  rcases s.step_cases ev with hs | ⟨p, pid, rfl, hne, hnew⟩ | ⟨p, rfl⟩ | ⟨p, row, cpu, copyOut, rfl, hcan⟩ |
    ⟨p, rfl, hcan⟩
  · refine h.of_kept (by rw [hs.alive]; exact h.alive_ne) fun row hr _ => ⟨hs.procPtr row hr, ?_, ?_⟩
    · rw [hs.alive]
      exact id
    · rw [hs.held]
      exact id
  · rw [Dev.step, if_neg (not_or.mpr ⟨hne, hnew⟩)]
    refine h.of_kept (fun q hq => ?_) fun row _ _ => ⟨rfl, List.mem_cons_of_mem _, id⟩
    rcases List.mem_cons.mp hq with rfl | hq
    · exact hne
    · exact h.alive_ne q hq
  · refine h.of_kept (fun q hq => h.alive_ne q (List.mem_filter.mp hq).1) fun row hr hptr => ?_
    -- The row does not name the process, so it keeps its owner.
    have hother : s.procPtr row ≠ p := fun heq => hev (heq ▸ (h.rows row hr hptr).1) row hr heq
    exact ⟨rfl, fun ha => List.mem_filter.mpr ⟨ha, by simpa using hother⟩,
      fun hh => List.mem_filter.mpr ⟨hh, by simpa using hother⟩⟩
  · rw [Dev.step, if_pos hcan]
    have halive : (s.reserveRing p row cpu true copyOut).2.alive = s.alive := by rw [reserveRing_snd]
    have hheld : (s.reserveRing p row cpu true copyOut).2.held = (p, row) :: s.held := by rw [reserveRing_snd]
    refine ⟨halive ▸ h.alive_ne, fun row' hr hptr => ?_⟩
    rw [procPtr_reserveRing] at hptr ⊢
    rw [halive, hheld]
    split
    · next heq => exact ⟨hcan.1, heq ▸ List.mem_cons_self⟩
    · next hother =>
      rw [if_neg hother] at hptr
      obtain ⟨ha, hh⟩ := h.rows row' hr hptr
      exact ⟨ha, List.mem_cons_of_mem _ hh⟩
  · rw [Dev.step, if_pos hcan]
    refine h.of_kept h.alive_ne fun row hr hptr => ?_
    rw [procPtr_freeRing] at hptr ⊢
    split at hptr
    · exact absurd rfl hptr
    · next hother =>
      refine ⟨if_neg hother, id, fun hh => List.mem_filter.mpr ⟨hh, ?_⟩⟩
      simp [hother]

theorem PtrInv.not_rowsLive {ev : Event} (h : PtrInv s) (hev : ¬ s.ExitsUnnamed ev) : ¬ RowsLive (s.step ev) := by
  intro hlive
  cases ev with
  | exit p =>
    refine hev fun hp row hr heq => ?_
    have hptr : (s.step (.exit p)).procPtr row = p := heq
    have hmem := (hlive.rows row hr (hptr ▸ h.alive_ne p hp)).1
    rw [hptr] at hmem
    have := (List.mem_filter.mp hmem).2
    simp at this
  | _ => exact hev trivial

theorem ptrInv_probe {rxBase txBase : Nat → BitVec 64} : PtrInv (probe rxBase txBase) := by
  have hs := SameRows.probe rxBase txBase
  refine ⟨fun p hp => ?_, fun row hr hne => absurd (hs.procPtr row hr) hne⟩
  rw [hs.alive] at hp
  cases hp

end Dev

theorem rowsLive_iff_exitsUnnamed (rxBase txBase : Nat → BitVec 64) (evs : List Event) :
    Run.Always Dev.step (Dev.probe rxBase txBase) evs Dev.RowsLive ↔
      Run.Guarded Dev.step (Dev.probe rxBase txBase) evs Dev.ExitsUnnamed :=
  Run.always_iff_guarded Dev.ptrInv_probe (fun _ _ h => h.step) (fun _ h => h.rowsLive) fun _ _ h => h.not_rowsLive

theorem exit_leaves_pointer : ¬ Run.Always Dev.step (Dev.probe (fun _ => 0) fun _ => 0)
    [.spawn 1 0, .openDev 1, .reserveRing 1 0 0 true true, .exit 1] Dev.RowsLive := by
  intro h
  have hlive := h _ (List.prefix_refl _)
  have hmem := (hlive.rows 0 (by decide) (by decide +kernel)).1
  exact absurd hmem (by decide +kernel)

end FireMarshal.Iocache
