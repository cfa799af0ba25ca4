import FireMarshal.Theorems.Iocache.Rows

/-! Reservations of rows. `RESERVE_RING` checks neither its row nor the owner of the row, and has its whole
    effect before the copy to the process can fail; so a call behaves exactly if its arguments already do. -/

namespace FireMarshal.Iocache
namespace Dev

variable {s t : Dev} {p : Task} {row : CInt} {cpu : BitVec 32} {copyIn copyOut : Bool}

/-! ### One call -/

/-- The call fails and changes neither the table nor a task's `iocache_id`. -/
structure Refused (s t : Dev) (ret : Int) : Prop where
  error : ret < 0
  regs : ∀ a, InTable a → t.regs a = s.regs a
  ids : t.iocacheId = s.iocacheId

/-- The call succeeds on a row that no other process had, and `p` is its only owner. -/
structure Granted (s t : Dev) (ret : Int) (p : Task) (row : CInt) : Prop where
  ok : ret = 0
  inRange : InRange row
  free : ∀ q, (q, row) ∈ s.held → q = p
  owner : ∀ q, (q, row) ∈ t.held ↔ q = p
  named : t.procPtr row = p

def Confined (s t : Dev) : Prop := ∃ new, t.written = new ++ s.written ∧ ∀ a ∈ new, InTable a

def ReserveOk (s : Dev) (p : Task) (row : CInt) (cpu : BitVec 32) (copyIn copyOut : Bool) : Prop :=
  let r := s.reserveRing p row cpu copyIn copyOut
  (Refused s r.2 r.1 ∨ Granted s r.2 r.1 p row) ∧ Confined s r.2

structure AlreadySet (s : Dev) (p : Task) (row : CInt) (cpu : BitVec 32) : Prop where
  enabled : s.regs (reg row .enabled) = 1
  procCpu : s.regs (reg row .procCpu) = cpu.setWidth 64
  procPtr : s.procPtr row = p
  id : s.iocacheId p = row

/-- The copy from the process fails, or the row is in the table and either no other process holds it and the
    copy to the process succeeds, or that copy fails but the call has nothing to change. -/
def MayReserve (s : Dev) (p : Task) (row : CInt) (cpu : BitVec 32) (copyIn copyOut : Bool) : Prop :=
  copyIn = false ∨ InRange row ∧
    (copyOut = true ∧ (∀ q, (q, row) ∈ s.held → q = p) ∨ copyOut = false ∧ AlreadySet s p row cpu)

theorem confined_reserveRing_iff : Confined s (s.reserveRing p row cpu true copyOut).2 ↔ InRange row := by
  rw [reserveRing_snd]
  constructor
  · rintro ⟨new, hnew, hall⟩
    have heq : new = [reg row .procPtr, reg row .procCpu, reg row .enabled] :=
      List.append_cancel_right (hnew.symm.trans rfl)
    exact inTable_reg_iff.mp (hall _ (heq ▸ List.mem_cons_self))
  · intro hrow
    refine ⟨[reg row .procPtr, reg row .procCpu, reg row .enabled], rfl, fun a ha => ?_⟩
    simp only [List.mem_cons, List.not_mem_nil, or_false] at ha
    rcases ha with rfl | rfl | rfl <;> exact inTable_reg_iff.mpr hrow

theorem AlreadySet.regs_eq (h : AlreadySet s p row cpu) : s.reservedRegs p row cpu = s.regs := by
  have hptr : s.regs (reg row .procPtr) = p := h.procPtr
  rw [reservedRegs, ← h.enabled, Function.update_eq_self, ← h.procCpu, Function.update_eq_self]
  simp only [← hptr, Function.update_eq_self]

theorem refused_reserveRing_iff (hrow : InRange row) :
    Refused s (s.reserveRing p row cpu true false).2 (s.reserveRing p row cpu true false).1 ↔
      AlreadySet s p row cpu := by
  rw [reserveRing_snd, reserveRing_fst]
  constructor
  · rintro ⟨-, hregs, hids⟩
    have hkept := fun f => hregs (reg row f) (inTable_reg_iff.mpr hrow)
    simp only [reservedRegs, Function.update_apply, reg_eq_iff, true_and] at hkept
    exact ⟨(hkept .enabled).symm, (hkept .procCpu).symm, (hkept .procPtr).symm, (congrFun hids p).symm.trans (by simp)⟩
  · intro h
    refine ⟨by decide, fun a _ => congrFun h.regs_eq a, ?_⟩
    simp only [← h.id, Function.update_eq_self]

theorem granted_reserveRing_iff (hrow : InRange row) :
    Granted s (s.reserveRing p row cpu true true).2 (s.reserveRing p row cpu true true).1 p row ↔
      ∀ q, (q, row) ∈ s.held → q = p := by
  constructor
  · exact fun h => h.free
  · intro h
    refine ⟨by rw [reserveRing_fst]; rfl, hrow, h, fun q => ?_, by rw [procPtr_reserveRing, if_pos rfl]⟩
    rw [reserveRing_snd]
    constructor
    · intro hq
      rcases List.mem_cons.mp hq with heq | hq
      · exact congrArg Prod.fst heq
      · exact h q hq
    · rintro rfl
      exact List.mem_cons_self

theorem reserveOk_iff : s.ReserveOk p row cpu copyIn copyOut ↔ s.MayReserve p row cpu copyIn copyOut := by
  cases copyIn with
  | false => exact ⟨fun _ => .inl rfl, fun _ => ⟨.inl ⟨(by decide : -efault < 0), fun _ _ => rfl, rfl⟩, [], rfl, by simp⟩⟩
  | true =>
    simp only [ReserveOk, MayReserve, confined_reserveRing_iff, Bool.true_eq_false, false_or, and_comm (b := InRange row)]
    refine and_congr_right fun hrow => ?_
    cases copyOut with
    | false =>
      have hno : ¬ Granted s (s.reserveRing p row cpu true false).2 (s.reserveRing p row cpu true false).1 p row :=
        fun h => absurd h.ok (by rw [reserveRing_fst]; decide)
      simp only [refused_reserveRing_iff hrow, hno, or_false, Bool.false_eq_true, false_and, true_and, false_or]
    | true =>
      have hno : ¬ Refused s (s.reserveRing p row cpu true true).2 (s.reserveRing p row cpu true true).1 :=
        fun h => absurd h.error (by rw [reserveRing_fst]; decide)
      simp only [granted_reserveRing_iff hrow, hno, false_or, Bool.true_eq_false, false_and, true_and, or_false]

/-! ### Owners over a run -/

def Exclusive (s : Dev) : Prop := ∀ p q row, (p, row) ∈ s.held → (q, row) ∈ s.held → p = q

structure OwnInv (s : Dev) : Prop where
  alive_ne : ∀ p ∈ s.alive, p ≠ 0
  held_alive : ∀ p row, (p, row) ∈ s.held → p ∈ s.alive
  named : ∀ p row, (p, row) ∈ s.held → InRange row ∧ (s.procPtr row = p ∨ s.procPtr row = 0)
  exclusive : s.Exclusive

/-- What a call of `RESERVE_RING` does in a run, and the condition on it. -/
def CallsOk (s : Dev) : Event → Prop
  | .reserveRing p row cpu copyIn copyOut => s.CanIoctl p → s.ReserveOk p row cpu copyIn copyOut
  | _ => True

def CallsMay (s : Dev) : Event → Prop
  | .reserveRing p row cpu copyIn copyOut => s.CanIoctl p → s.MayReserve p row cpu copyIn copyOut
  | _ => True

theorem callsOk_iff {ev : Event} : s.CallsOk ev ↔ s.CallsMay ev := by
  cases ev with
  | reserveRing p row cpu copyIn copyOut => exact imp_congr_right fun _ => reserveOk_iff
  | _ => exact Iff.rfl

theorem OwnInv.free_of_mayReserve (h : OwnInv s) (hp : p ∈ s.alive) (hmay : s.MayReserve p row cpu true copyOut) :
    InRange row ∧ ∀ q, (q, row) ∈ s.held → q = p := by
  rcases hmay with hno | ⟨hrow, ⟨-, hfree⟩ | ⟨-, hset⟩⟩
  · cases hno
  · exact ⟨hrow, hfree⟩
  · refine ⟨hrow, fun q hq => ?_⟩
    -- The pointer of the row names the caller, so every owner is the caller.
    have hptr := (h.named q row hq).2
    rw [hset.procPtr] at hptr
    rcases hptr with hpq | h0
    · exact hpq.symm
    · exact absurd h0 (h.alive_ne p hp)

theorem OwnInv.step {ev : Event} (h : OwnInv s) (hev : s.CallsMay ev) : OwnInv (s.step ev) := by
  rcases s.step_cases ev with hs | ⟨p, pid, rfl, hne, hnew⟩ | ⟨p, rfl⟩ | ⟨p, row, cpu, copyOut, rfl, hcan⟩ |
    ⟨p, rfl, hcan⟩
  · refine ⟨by rw [hs.alive]; exact h.alive_ne, by rw [hs.alive, hs.held]; exact h.held_alive, fun q row hq => ?_,
      by rw [Exclusive, hs.held]; exact h.exclusive⟩
    rw [hs.held] at hq
    obtain ⟨hrow, hptr⟩ := h.named q row hq
    exact ⟨hrow, by rw [hs.procPtr row hrow]; exact hptr⟩
  · rw [Dev.step, if_neg (not_or.mpr ⟨hne, hnew⟩)]
    refine ⟨fun q hq => ?_, fun q row hq => List.mem_cons_of_mem _ (h.held_alive q row hq), h.named, h.exclusive⟩
    rcases List.mem_cons.mp hq with rfl | hq
    · exact hne
    · exact h.alive_ne q hq
  · refine ⟨fun q hq => h.alive_ne q (List.mem_filter.mp hq).1, fun q row hq => ?_,
      fun q row hq => h.named q row (List.mem_filter.mp hq).1,
      fun q q' row hq hq' => h.exclusive q q' row (List.mem_filter.mp hq).1 (List.mem_filter.mp hq').1⟩
    obtain ⟨hq, hother⟩ := List.mem_filter.mp hq
    exact List.mem_filter.mpr ⟨h.held_alive q row hq, hother⟩
  · obtain ⟨hrow, hfree⟩ := h.free_of_mayReserve hcan.1 (hev hcan)
    rw [Dev.step, if_pos hcan]
    have halive : (s.reserveRing p row cpu true copyOut).2.alive = s.alive := by rw [reserveRing_snd]
    have hheld : (s.reserveRing p row cpu true copyOut).2.held = (p, row) :: s.held := by rw [reserveRing_snd]
    -- On the row, the caller is the only owner; the owners of other rows are as before.
    have howner : ∀ q row', (q, row') ∈ (p, row) :: s.held → row' = row ∧ q = p ∨ row' ≠ row ∧ (q, row') ∈ s.held := by
      intro q row' hq
      rcases List.mem_cons.mp hq with heq | hold
      · exact .inl ⟨congrArg Prod.snd heq, congrArg Prod.fst heq⟩
      · by_cases hr : row' = row
        · exact .inl ⟨hr, hfree q (hr ▸ hold)⟩
        · exact .inr ⟨hr, hold⟩
    refine ⟨halive ▸ h.alive_ne, fun q row' hq => ?_, fun q row' hq => ?_, fun q q' row' hq hq' => ?_⟩
    · rw [halive]
      rw [hheld] at hq
      rcases howner q row' hq with ⟨-, rfl⟩ | ⟨-, hq⟩
      · exact hcan.1
      · exact h.held_alive q row' hq
    · rw [hheld] at hq
      rw [procPtr_reserveRing]
      rcases howner q row' hq with ⟨rfl, rfl⟩ | ⟨hr, hq⟩
      · exact ⟨hrow, .inl (if_pos rfl)⟩
      · rw [if_neg hr]
        exact h.named q row' hq
    · rw [hheld] at hq hq'
      rcases howner q row' hq with ⟨hr, rfl⟩ | ⟨hr, hq⟩ <;> rcases howner q' row' hq' with ⟨hr', rfl⟩ | ⟨hr', hq'⟩
      · rfl
      · exact absurd hr hr'
      · exact absurd hr' hr
      · exact h.exclusive q q' row' hq hq'
  · rw [Dev.step, if_pos hcan]
    refine ⟨h.alive_ne, fun q row hq => h.held_alive q row (List.mem_filter.mp hq).1, fun q row hq => ?_,
      fun q q' row hq hq' => h.exclusive q q' row (List.mem_filter.mp hq).1 (List.mem_filter.mp hq').1⟩
    obtain ⟨hrow, hptr⟩ := h.named q row (List.mem_filter.mp hq).1
    rw [procPtr_freeRing]
    split
    · exact ⟨hrow, .inr rfl⟩
    · exact ⟨hrow, hptr⟩

theorem ownInv_probe {rxBase txBase : Nat → BitVec 64} : OwnInv (probe rxBase txBase) := by
  have hs := SameRows.probe rxBase txBase
  have hnone : ∀ q row, (q, row) ∉ (probe rxBase txBase).held := fun q row hq => by
    rw [hs.held] at hq
    cases hq
  refine ⟨fun p hp => ?_, fun q row hq => absurd hq (hnone q row), fun q row hq => absurd hq (hnone q row),
    fun q _ row hq => absurd hq (hnone q row)⟩
  rw [hs.alive] at hp
  cases hp

end Dev

/-- In exactly the runs whose calls of `RESERVE_RING` all meet the condition, every call is refused without
    effect or grants the row to its caller alone, writes only to the table, and no two processes own one row. -/
theorem reserveRing_iff_may (rxBase txBase : Nat → BitVec 64) (evs : List Event) :
    Run.Guarded Dev.step (Dev.probe rxBase txBase) evs Dev.CallsOk ∧
        Run.Always Dev.step (Dev.probe rxBase txBase) evs Dev.Exclusive ↔
      Run.Guarded Dev.step (Dev.probe rxBase txBase) evs Dev.CallsMay := by
  constructor
  · exact fun h pre ev hpre => Dev.callsOk_iff.mp (h.1 pre ev hpre)
  · intro h
    refine ⟨fun pre ev hpre => Dev.callsOk_iff.mpr (h pre ev hpre), ?_⟩
    exact (Run.always_of_guarded Dev.ownInv_probe (fun _ _ hinv => hinv.step) h).mono fun _ hinv => hinv.exclusive

/-- A second process reserves a row that has an owner; row `-3` writes to the interrupt masks. -/
theorem reserveRing_unchecked :
    ¬ Run.Guarded Dev.step (Dev.probe (fun _ => 0) fun _ => 0)
      [.spawn 1 0, .openDev 1, .spawn 2 0, .openDev 2, .reserveRing 1 3 0 true true, .reserveRing 2 3 0 true true]
      Dev.CallsOk ∧
    ¬ Run.Guarded Dev.step (Dev.probe (fun _ => 0) fun _ => 0)
      [.spawn 1 0, .openDev 1, .reserveRing 1 (-3) 0 true true] Dev.CallsOk := by
  constructor
  · intro h
    have hok := h [.spawn 1 0, .openDev 1, .spawn 2 0, .openDev 2, .reserveRing 1 3 0 true true] _
      (List.prefix_refl _) (by decide +kernel)
    rcases Dev.reserveOk_iff.mp hok with hno | ⟨-, ⟨-, hfree⟩ | ⟨hno, -⟩⟩
    · cases hno
    · exact absurd (hfree 1 (by decide +kernel)) (by decide)
    · cases hno
  · intro h
    have hok := h [.spawn 1 0, .openDev 1] _ (List.prefix_refl _) (by decide +kernel)
    exact absurd (Dev.confined_reserveRing_iff.mp hok.2) (by decide)

end FireMarshal.Iocache
