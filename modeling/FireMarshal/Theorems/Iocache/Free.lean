import FireMarshal.Theorems.Iocache.Rows

/-! Freeing of rows. `FREE_RING` takes its row from `current->iocache_id`, which starts with what the kernel puts
    there and is not reset; so a call stays with the rows of its caller exactly if the caller has not freed the row
    that it reserved last. -/

namespace FireMarshal.Iocache

/-- The registers that `RESERVE_RING` sets and `FREE_RING` clears. -/
def Field.IsOwner (f : Field) : Prop := f = .enabled ∨ f = .procCpu ∨ f = .procPtr

instance (f : Field) : Decidable f.IsOwner := inferInstanceAs (Decidable (_ ∨ _))

namespace Dev

variable {s : Dev} {p : Task} {row : CInt} {f : Field}

theorem regs_freeRing : (s.freeRing p).regs (reg row f) =
    if row = s.iocacheId p ∧ f.IsOwner then 0 else s.regs (reg row f) := by
  simp only [freeRing, iowrite, Function.update_apply, reg_eq_iff, Field.IsOwner]
  by_cases hrow : row = s.iocacheId p
  · cases f <;> simp [hrow]
  · simp [hrow]

/-- The registers of the row are as a call that frees it leaves them. -/
def Cleared (s : Dev) (row : CInt) : Prop := ∀ f : Field, f.IsOwner → s.regs (reg row f) = 0

/-- A call of `FREE_RING` changes a row only if its caller reserved it and has not freed it since. -/
def FreeOk (s : Dev) (p : Task) : Prop :=
  ∀ row (f : Field), f.IsOwner → (s.freeRing p).regs (reg row f) ≠ s.regs (reg row f) → (p, row) ∈ s.held

theorem freeOk_iff : s.FreeOk p ↔ (p, s.iocacheId p) ∈ s.held ∨ s.Cleared (s.iocacheId p) := by
  constructor
  · intro h
    by_contra hno
    obtain ⟨hheld, hcleared⟩ := not_or.mp hno
    refine hcleared fun f hf => ?_
    by_contra hne
    refine hheld (h _ f hf ?_)
    rw [regs_freeRing, if_pos ⟨rfl, hf⟩]
    exact fun h0 => hne h0.symm
  · intro h row f hf hne
    rw [regs_freeRing] at hne
    split at hne
    · next hrow =>
      obtain ⟨rfl, -⟩ := hrow
      rcases h with hheld | hcleared
      · exact hheld
      · exact absurd (hcleared f hf).symm hne
    · exact absurd rfl hne

/-- What a call of `FREE_RING` does in a run, and the condition on it. -/
def FreesOk (s : Dev) : Event → Prop
  | .freeRing p => s.CanIoctl p → s.FreeOk p
  | _ => True

def FreesMay (s : Dev) : Event → Prop
  | .freeRing p => s.CanIoctl p → (p, s.iocacheId p) ∈ s.held ∨ s.Cleared (s.iocacheId p)
  | _ => True

theorem freesOk_iff {ev : Event} : s.FreesOk ev ↔ s.FreesMay ev := by
  cases ev with
  | freeRing p => exact imp_congr_right fun _ => freeOk_iff
  | _ => exact Iff.rfl

end Dev

theorem freeRing_iff_may (rxBase txBase : Nat → BitVec 64) (evs : List Event) :
    Run.Guarded Dev.step (Dev.probe rxBase txBase) evs Dev.FreesOk ↔
      Run.Guarded Dev.step (Dev.probe rxBase txBase) evs Dev.FreesMay := by
  constructor
  · exact fun h pre ev hpre => Dev.freesOk_iff.mp (h pre ev hpre)
  · exact fun h pre ev hpre => Dev.freesOk_iff.mpr (h pre ev hpre)

/-- A process that never reserved a row frees row 0 of another one; one that frees twice frees the row that another
    process reserved in between. -/
theorem freeRing_unchecked :
    ¬ Run.Guarded Dev.step (Dev.probe (fun _ => 0) fun _ => 0)
      [.spawn 1 0, .openDev 1, .reserveRing 1 0 0 true true, .spawn 2 0, .openDev 2, .freeRing 2] Dev.FreesOk ∧
    ¬ Run.Guarded Dev.step (Dev.probe (fun _ => 0) fun _ => 0)
      [.spawn 1 0, .openDev 1, .spawn 2 0, .openDev 2, .reserveRing 1 3 0 true true, .freeRing 1,
        .reserveRing 2 3 0 true true, .freeRing 1] Dev.FreesOk := by
  constructor
  · intro h
    have hok := h [.spawn 1 0, .openDev 1, .reserveRing 1 0 0 true true, .spawn 2 0, .openDev 2] _
      (List.prefix_refl _) (by decide +kernel)
    exact absurd (hok 0 .enabled (.inl rfl) (by decide +kernel)) (by decide +kernel)
  · intro h
    have hok := h [.spawn 1 0, .openDev 1, .spawn 2 0, .openDev 2, .reserveRing 1 3 0 true true, .freeRing 1,
      .reserveRing 2 3 0 true true] _ (List.prefix_refl _) (by decide +kernel)
    exact absurd (hok 3 .enabled (.inl rfl) (by decide +kernel)) (by decide +kernel)

end FireMarshal.Iocache
