import Mathlib.Algebra.Ring.Int.Defs
import FireMarshal.Lib.Run
import FireMarshal.Iocache.Driver

/-! The registers of the row table: different fields of different rows lie at different addresses, for every
    `int` row, and the table holds exactly those of the rows `0 .. 63`. -/

namespace FireMarshal.Iocache

theorem Field.off_lt (f : Field) : f.off < 0x100 := by cases f <;> decide

theorem Field.off_injective {f g : Field} (h : f.off = g.off) : f = g := by
  cases f <;> cases g <;> first | rfl | cases h

theorem toNat_reg (row : CInt) (f : Field) :
    ((reg row f).toNat : Int) = (0x300 + row.toInt * 0x100 + f.off) % 2 ^ 64 := by
  have hf := f.off_lt
  have hrow : ((row.signExtend 64).toNat : Int) = row.toInt % 2 ^ 64 := by
    rw [BitVec.signExtend, BitVec.toNat_ofInt]
    omega
  rw [reg, BitVec.toNat_add, BitVec.toNat_add, BitVec.toNat_mul, BitVec.toNat_ofNat, BitVec.toNat_ofNat,
    BitVec.toNat_ofNat]
  omega

theorem reg_eq_iff {row row' : CInt} {f g : Field} : reg row f = reg row' g ↔ row = row' ∧ f = g := by
  constructor
  · intro h
    have heq := congrArg (fun a => (a.toNat : Int)) h
    simp only [toNat_reg] at heq
    have hf := f.off_lt
    have hg := g.off_lt
    have h1 := BitVec.toInt_lt (x := row)
    have h2 := BitVec.le_toInt (x := row)
    have h3 := BitVec.toInt_lt (x := row')
    have h4 := BitVec.le_toInt (x := row')
    have hrow : row.toInt = row'.toInt := by omega
    exact ⟨BitVec.eq_of_toInt_eq hrow, Field.off_injective (by omega)⟩
  · rintro ⟨rfl, rfl⟩
    rfl

theorem inTable_reg_iff {row : CInt} {f : Field} : InTable (reg row f) ↔ InRange row := by
  have heq := toNat_reg row f
  have hf := f.off_lt
  have h1 := BitVec.toInt_lt (x := row)
  have h2 := BitVec.le_toInt (x := row)
  simp only [InTable, InRange, cacheEntryCount]
  omega

theorem inRange_ofNat {i : Nat} (h : i < cacheEntryCount) : InRange (BitVec.ofNat 32 i) := by
  have hlt : i < 64 := h
  have hint : (BitVec.ofNat 32 i).toInt = i := by
    rw [BitVec.toInt_ofNat', Int.bmod_eq_of_le] <;> omega
  rw [InRange, hint, cacheEntryCount]
  omega

theorem not_inTable_of_lt {a : Addr} (h : a.toNat < 0x300) : ¬ InTable a := fun ha => by
  have := ha.1
  omega

namespace Dev

variable {s : Dev} {p : Task} {row : CInt}

/-! ### Writes -/

theorem regs_iowrite_reg {row' : CInt} {f g : Field} {v : BitVec 64} :
    (s.iowrite (reg row' f) v).regs (reg row g) = if row = row' ∧ g = f then v else s.regs (reg row g) := by
  simp only [iowrite, Function.update_apply, reg_eq_iff]

theorem regs_iowrite_of_lt {a : Addr} {v : BitVec 64} {f : Field} (ha : a.toNat < 0x300) (hrow : InRange row) :
    (s.iowrite a v).regs (reg row f) = s.regs (reg row f) := by
  refine Function.update_of_ne ?_ _ _
  rintro rfl
  exact not_inTable_of_lt ha (inTable_reg_iff.mpr hrow)

theorem regIntmaskRx_lt {cpu : Nat} (h : cpu < numCpus) : (regIntmaskRx cpu).toNat < 0x300 := by
  have hlt : cpu < 4 := h
  simp only [regIntmaskRx, BitVec.toNat_ofNat]
  omega

theorem regIntmaskTxcomp_lt {cpu : Nat} (h : cpu < numCpus) : (regIntmaskTxcomp cpu).toNat < 0x300 := by
  have hlt : cpu < 4 := h
  simp only [regIntmaskTxcomp, BitVec.toNat_ofNat]
  omega

/-! ### Pointers -/

theorem procPtr_iowrite_reg {row' : CInt} {f : Field} {v : BitVec 64} :
    (s.iowrite (reg row' f) v).procPtr row = if row = row' ∧ f = .procPtr then v else s.procPtr row := by
  simp only [procPtr, regs_iowrite_reg, eq_comm (a := Field.procPtr)]

theorem procPtr_iowrite_of_lt {a : Addr} {v : BitVec 64} (ha : a.toNat < 0x300) (hrow : InRange row) :
    (s.iowrite a v).procPtr row = s.procPtr row := regs_iowrite_of_lt ha hrow

/-- The registers after the three writes of a call that reserves a row. -/
def reservedRegs (s : Dev) (p : Task) (row : CInt) (cpu : BitVec 32) : Addr → BitVec 64 :=
  Function.update (Function.update (Function.update s.regs (reg row .enabled) 1)
    (reg row .procCpu) (cpu.setWidth 64)) (reg row .procPtr) p

theorem reserveRing_fst {cpu : BitVec 32} {copyIn copyOut : Bool} :
    (s.reserveRing p row cpu copyIn copyOut).1 = if copyIn && copyOut then 0 else -efault := by
  cases copyIn <;> cases copyOut <;> rfl

theorem reserveRing_snd {cpu : BitVec 32} {copyOut : Bool} :
    (s.reserveRing p row cpu true copyOut).2 = { s with
      regs := s.reservedRegs p row cpu
      iocacheId := Function.update s.iocacheId p row
      held := (p, row) :: s.held
      written := reg row .procPtr :: reg row .procCpu :: reg row .enabled :: s.written } := by
  cases copyOut <;> rfl

theorem procPtr_reserveRing {row' : CInt} {cpu : BitVec 32} {copyOut : Bool} :
    (s.reserveRing p row' cpu true copyOut).2.procPtr row = if row = row' then p else s.procPtr row := by
  rw [reserveRing_snd]
  simp only [procPtr, reservedRegs, Function.update_apply, reg_eq_iff, and_true, reduceCtorEq, and_false, if_false]

theorem procPtr_freeRing :
    (s.freeRing p).procPtr row = if row = s.iocacheId p then 0 else s.procPtr row := by
  have hregs : (s.freeRing p).procPtr row =
      (((s.iowrite (reg (s.iocacheId p) .enabled) 0).iowrite (reg (s.iocacheId p) .procCpu) 0).iowrite
        (reg (s.iocacheId p) .procPtr) 0).procPtr row := rfl
  rw [hregs, procPtr_iowrite_reg, procPtr_iowrite_reg, procPtr_iowrite_reg]
  simp

/-! ### Steps -/

structure SameRows (s t : Dev) : Prop where
  alive : t.alive = s.alive
  held : t.held = s.held
  procPtr : ∀ row, InRange row → t.procPtr row = s.procPtr row

namespace SameRows

theorem refl (s : Dev) : SameRows s s := ⟨rfl, rfl, fun _ _ => rfl⟩

theorem trans {t u : Dev} (h₁ : SameRows s t) (h₂ : SameRows t u) : SameRows s u :=
  ⟨h₂.alive.trans h₁.alive, h₂.held.trans h₁.held,
    fun row hrow => (h₂.procPtr row hrow).trans (h₁.procPtr row hrow)⟩

theorem iowrite_reg (s : Dev) {row : CInt} {f : Field} (hf : f ≠ .procPtr) (v : BitVec 64) :
    SameRows s (s.iowrite (reg row f) v) := by
  refine ⟨rfl, rfl, fun row' _ => ?_⟩
  rw [procPtr_iowrite_reg]
  exact if_neg fun h => hf h.2

theorem iowrite_of_lt (s : Dev) {a : Addr} (ha : a.toNat < 0x300) (v : BitVec 64) : SameRows s (s.iowrite a v) :=
  ⟨rfl, rfl, fun _ hrow => procPtr_iowrite_of_lt ha hrow⟩

theorem foldl {α : Type} {f : Dev → α → Dev} {xs : List α} (h : ∀ x ∈ xs, ∀ s, SameRows s (f s x)) (s : Dev) :
    SameRows s (xs.foldl f s) := by
  induction xs generalizing s with
  | nil => exact refl s
  | cons x xs ih => exact (h x List.mem_cons_self s).trans (ih (fun y hy => h y (List.mem_cons_of_mem _ hy)) _)

theorem populateRow {rxBase txBase : Nat → BitVec 64} (s : Dev) (i : Nat) :
    SameRows s (s.populateRow rxBase txBase i) := by
  refine (iowrite_reg s ?_ _).trans ((iowrite_reg _ ?_ _).trans ((iowrite_reg _ ?_ _).trans
    ((iowrite_reg _ ?_ _).trans (iowrite_reg _ ?_ _)))) <;> decide

theorem setIntmasks (s : Dev) {cpu : Nat} (hcpu : cpu < 4) : SameRows s (s.setIntmasks cpu) :=
  (iowrite_of_lt s (regIntmaskRx_lt hcpu) _).trans (iowrite_of_lt _ (regIntmaskTxcomp_lt hcpu) _)

theorem probe (rxBase txBase : Nat → BitVec 64) : SameRows reset (Dev.probe rxBase txBase) :=
  (foldl (fun _ hcpu s => setIntmasks s (List.mem_range.mp hcpu)) _).trans (foldl (fun i _ s => populateRow s i) _)

end SameRows

theorem step_cases (s : Dev) (ev : Event) : SameRows s (s.step ev) ∨
    (∃ p id, ev = .spawn p id ∧ p ≠ 0 ∧ p ∉ s.alive) ∨ (∃ p, ev = .exit p) ∨
    (∃ p row cpu copyOut, ev = .reserveRing p row cpu true copyOut ∧ s.CanIoctl p) ∨
    (∃ p, ev = .freeRing p ∧ s.CanIoctl p) := by
  cases ev with
  | spawn p id =>
    by_cases h : p = 0 ∨ p ∈ s.alive
    · simp only [step, if_pos h]
      exact .inl (.refl s)
    · exact .inr (.inl ⟨p, id, rfl, fun h0 => h (.inl h0), fun ha => h (.inr ha)⟩)
  | openDev p =>
    refine .inl ?_
    simp only [step]
    split
    · exact ⟨rfl, rfl, fun _ _ => rfl⟩
    · exact .refl s
  | close p => exact .inl ⟨rfl, rfl, fun _ _ => rfl⟩
  | exit p => exact .inr (.inr (.inl ⟨p, rfl⟩))
  | reserveRing p row cpu copyIn copyOut =>
    by_cases h : s.CanIoctl p
    · cases copyIn with
      | false =>
        simp only [step, if_pos h]
        exact .inl (.refl s)
      | true => exact .inr (.inr (.inr (.inl ⟨p, row, cpu, copyOut, rfl, h⟩)))
    · simp only [step, if_neg h]
      exact .inl (.refl s)
  | freeRing p =>
    by_cases h : s.CanIoctl p
    · exact .inr (.inr (.inr (.inr ⟨p, rfl, h⟩)))
    · simp only [step, if_neg h]
      exact .inl (.refl s)
  | waitReady p =>
    refine .inl ?_
    simp only [step]
    split
    · exact .iowrite_reg s (by decide) _
    · exact .refl s
  | timeout p =>
    refine .inl ?_
    simp only [step, timeoutCb]
    split
    · split
      · exact .refl s
      · exact .iowrite_reg s (by decide) _
    · exact .refl s
  | isrRx cpu count mask =>
    exact .inl (.iowrite_of_lt s (by decide) _)

end Dev
end FireMarshal.Iocache
