import Mathlib.Data.List.Basic
import FireMarshal.Iocache.Driver

/-! The wake-up loop of `iocache_isr_rx`. Its count is not decremented for a row without a process, so it never falls
    below the number of rows that are still to come in the mask, and the loop leaves rows out only if the mask has none
    of them. -/

namespace FireMarshal.Iocache
namespace Dev

def Kicked (s : Dev) (mask : BitVec 64) (i : Nat) : Prop :=
  mask.getLsbD i = true ∧ s.procPtr (BitVec.ofNat 32 i) ≠ 0

instance (s : Dev) (mask : BitVec 64) (i : Nat) : Decidable (s.Kicked mask i) := inferInstanceAs (Decidable (_ ∧ _))

/-- The rows for which the loop wakes a process, and those that it does not come to. -/
def isrRows (s : Dev) (mask : BitVec 64) : List Nat → Nat → List Nat × List Nat
  | [], _ => ([], [])
  | i :: rows, count =>
    if count = 0 then ([], i :: rows)
    else if mask.getLsbD i then
      if s.procPtr (BitVec.ofNat 32 i) = 0 then isrRows s mask rows count
      else
        let r := isrRows s mask rows (count - 1)
        (i :: r.1, r.2)
    else isrRows s mask rows count

variable {s : Dev} {mask : BitVec 64} {rows : List Nat} {count : Nat}

theorem isrLoop_eq_map (s : Dev) (mask : BitVec 64) (rows : List Nat) (count : Nat) :
    isrLoop s mask rows count = (isrRows s mask rows count).1.map fun i => s.procPtr (BitVec.ofNat 32 i) := by
  induction rows generalizing count with
  | nil => rfl
  | cons i rows ih =>
    simp only [isrLoop, isrRows]
    split
    · rfl
    · split
      · split
        · exact ih count
        · rw [ih (count - 1), List.map_cons]
      · exact ih count

theorem isrRows_spec (h : rows.countP (mask.getLsbD ·) ≤ count) :
    (isrRows s mask rows count).1 = rows.filter (fun i => s.Kicked mask i) ∧
      ∀ i ∈ (isrRows s mask rows count).2, mask.getLsbD i = false := by
  induction rows generalizing count with
  | nil => exact ⟨rfl, fun i hi => absurd hi List.not_mem_nil⟩
  | cons i rows ih =>
    rw [isrRows]
    split_ifs with hzero hbit hnull
    · -- The count is used up, so no bit is left.
      rw [hzero, Nat.le_zero, List.countP_eq_zero] at h
      refine ⟨(List.filter_eq_nil_iff.mpr fun j hj hkicked => ?_).symm, fun j hj => by simpa using h j hj⟩
      exact h j hj (of_decide_eq_true hkicked).1
    · rw [List.countP_cons_of_pos hbit] at h
      rw [List.filter_cons_of_neg (by simp [Kicked, hnull])]
      exact ih (Nat.le_of_succ_le h)
    · have hkicked : s.Kicked mask i := ⟨hbit, hnull⟩
      rw [List.countP_cons_of_pos hbit] at h
      rw [List.filter_cons_of_pos (by simpa using hkicked)]
      obtain ⟨hwoken, hleft⟩ := ih (Nat.le_sub_one_of_lt h)
      exact ⟨congrArg (i :: ·) hwoken, hleft⟩
    · rw [List.countP_cons_of_neg hbit] at h
      rw [List.filter_cons_of_neg (by simp [Kicked, hbit])]
      exact ih h

/-- What the loop should do with the rows of the table: it wakes the process of every row that is kicked, once for the
    row, and comes to all rows but some that are not kicked. -/
structure WakesKicked (s : Dev) (mask : BitVec 64) (woken : List Task) (rows left : List Nat) : Prop where
  woken_eq : woken = rows.map fun i => s.procPtr (BitVec.ofNat 32 i)
  mem_rows : ∀ i, i ∈ rows ↔ i < cacheEntryCount ∧ s.Kicked mask i
  once : rows.Nodup
  /-- A process is woken as often as a row of its own is kicked. -/
  count_task : ∀ p, woken.count p = rows.countP fun i => s.procPtr (BitVec.ofNat 32 i) == p
  not_kicked : ∀ i ∈ left, ¬s.Kicked mask i

theorem wakesKicked_isrRows (h : (List.range cacheEntryCount).countP (mask.getLsbD ·) ≤ count) :
    s.WakesKicked mask (isrLoop s mask (List.range cacheEntryCount) count)
      (isrRows s mask (List.range cacheEntryCount) count).1 (isrRows s mask (List.range cacheEntryCount) count).2 := by
  obtain ⟨hrows, hleft⟩ := isrRows_spec (s := s) h
  have hwoken := isrLoop_eq_map s mask (List.range cacheEntryCount) count
  refine ⟨hwoken, fun i => ?_, ?_, fun p => ?_, fun i hi hkicked => ?_⟩
  · rw [hrows, List.mem_filter, List.mem_range, decide_eq_true_iff]
  · rw [hrows]
    exact List.nodup_range.filter _
  · rw [hwoken, List.count, List.countP_map]
    rfl
  · exact absurd hkicked.1 (by rw [hleft i hi]; decide)

end Dev

theorem isrRx_wakes (s : Dev) (cpu count : BitVec 32) (mask : BitVec 64)
    (h : count.toNat = (List.range 64).countP (mask.getLsbD ·)) :
    s.WakesKicked mask (s.isrRx cpu count mask).2 (s.isrRows mask (List.range cacheEntryCount) count.toNat).1
      (s.isrRows mask (List.range cacheEntryCount) count.toNat).2 :=
  Dev.wakesKicked_isrRows (Nat.le_of_eq h.symm)

def kickedDev : Dev :=
  { Dev.reset with
    regs := fun a => if a = reg 0 .procPtr then 0x1000#64 else if a = reg 3 .procPtr then 0x2000#64 else 0#64 }

theorem isrRx_wakes_two :
    (kickedDev.isrRx 0 3 0b1011).2 = [0x1000#64, 0x2000#64] ∧
      ∀ i ∈ (kickedDev.isrRows 0b1011 (List.range cacheEntryCount) 3).2, ¬kickedDev.Kicked 0b1011 i := by
  have h := isrRx_wakes kickedDev 0 3 0b1011 (by decide)
  exact ⟨h.woken_eq.trans (by decide), h.not_kicked⟩

end FireMarshal.Iocache
