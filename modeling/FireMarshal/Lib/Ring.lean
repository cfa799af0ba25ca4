import Mathlib.Logic.Function.Basic
import Mathlib.Data.List.Basic
import Mathlib.Tactic.Common

/-! Circular queues. A ring keeps its elements in slots `0 .. n - 1`, between the slot `tail` of the
    oldest element and the free slot `head`. One slot always stays free, so that `head = tail` means
    empty. The lemmas say what a push at `head` and a pop at `tail` do to the queued elements. -/

namespace Ring

variable {α : Type} {n head tail : Nat}

def count (n head tail : Nat) : Nat := (head + n - tail) % n

/-- The elements between `tail` and `head`, oldest first. -/
def queued (n : Nat) (slots : Nat → α) (head tail : Nat) : List α :=
  (List.range (count n head tail)).map fun i => slots ((tail + i) % n)

theorem count_of_le (hh : head < n) (h : tail ≤ head) : count n head tail = head - tail := by
  unfold count
  rw [show head + n - tail = head - tail + n by omega, Nat.add_mod_right]
  exact Nat.mod_eq_of_lt (by omega)

theorem count_of_lt (ht : tail < n) (h : head < tail) : count n head tail = head + n - tail :=
  Nat.mod_eq_of_lt (by omega)

theorem next_of_ne_last (h : head + 1 ≠ n) (hh : head < n) : (head + 1) % n = head + 1 :=
  Nat.mod_eq_of_lt (by omega)

theorem next_of_last (h : head + 1 = n) : (head + 1) % n = 0 := by rw [h, Nat.mod_self]

@[simp] theorem length_queued (slots : Nat → α) : (queued n slots head tail).length = count n head tail := by
  simp [queued]

theorem count_self (ht : tail < n) : count n tail tail = 0 := by
  rw [count_of_le ht (Nat.le_refl _), Nat.sub_self]

theorem count_eq_zero_iff (hh : head < n) (ht : tail < n) : count n head tail = 0 ↔ head = tail := by
  rcases Nat.lt_or_ge head tail with h | h
  · rw [count_of_lt ht h]
    omega
  · rw [count_of_le hh h]
    omega

theorem next_eq_tail_iff (hh : head < n) (ht : tail < n) :
    (head + 1) % n = tail ↔ count n head tail + 1 = n := by
  by_cases hlast : head + 1 = n
  · rw [next_of_last hlast, count_of_le hh (by omega)]
    omega
  · rw [next_of_ne_last hlast hh]
    rcases Nat.lt_or_ge head tail with h | h
    · rw [count_of_lt ht h]
      omega
    · rw [count_of_le hh h]
      omega

theorem count_lt (hh : head < n) : count n head tail < n := Nat.mod_lt _ (by omega)

theorem count_eq (ht : tail ≤ n) : count n head tail = (head + (n - tail)) % n := by
  rw [count, Nat.add_sub_assoc ht]

theorem count_add_head {k : Nat} (ht : tail < n) (h : count n head tail + k < n) :
    count n ((head + k) % n) tail = count n head tail + k := by
  have hle : tail ≤ n := Nat.le_of_lt ht
  calc count n ((head + k) % n) tail = (head + k + (n - tail)) % n := by rw [count_eq hle, Nat.mod_add_mod]
    _ = (count n head tail + k) % n := by rw [count_eq hle, Nat.mod_add_mod, Nat.add_right_comm]
    _ = count n head tail + k := Nat.mod_eq_of_lt h

theorem count_next_head (hh : head < n) (ht : tail < n) (hfull : (head + 1) % n ≠ tail) :
    count n ((head + 1) % n) tail = count n head tail + 1 := by
  have hlt : count n head tail < n := count_lt hh
  rw [ne_eq, next_eq_tail_iff hh ht] at hfull
  exact count_add_head ht (by omega)

theorem count_advance {k : Nat} (ht : tail < n) (hk : k < n) : count n ((tail + k) % n) tail = k := by
  rw [count_add_head ht (by rw [count_self ht]; omega), count_self ht, Nat.zero_add]

theorem slot_count (hh : head < n) (ht : tail < n) : (tail + count n head tail) % n = head := by
  rcases Nat.lt_or_ge head tail with h | h
  · rw [count_of_lt ht h, show tail + (head + n - tail) = head + n by omega, Nat.add_mod_right,
      Nat.mod_eq_of_lt hh]
  · rw [count_of_le hh h, show tail + (head - tail) = head by omega, Nat.mod_eq_of_lt hh]

theorem count_add_tail {k : Nat} (hh : head < n) (ht : tail < n) (hk : k ≤ count n head tail) :
    count n head ((tail + k) % n) + k = count n head tail := by
  have hlt : count n head tail < n := count_lt hh
  -- From the new tail on, the head is as many slots away as are left.
  have hhead : ((tail + k) % n + (count n head tail - k)) % n = head := by
    rw [Nat.mod_add_mod, show tail + k + (count n head tail - k) = tail + count n head tail by omega, slot_count hh ht]
  have hcount := count_advance (Nat.mod_lt (tail + k) (by omega)) (by omega : count n head tail - k < n)
  rw [hhead] at hcount
  omega

theorem count_next_tail (hh : head < n) (ht : tail < n) (hne : head ≠ tail) :
    count n head tail = count n head ((tail + 1) % n) + 1 := by
  have hpos := (count_eq_zero_iff hh ht).not.mpr hne
  exact (count_add_tail hh ht (by omega)).symm

theorem slot_ne_head (hh : head < n) (ht : tail < n) {i : Nat} (hi : i < count n head tail) :
    (tail + i) % n ≠ head := by
  rcases Nat.lt_or_ge head tail with h | h
  · rw [count_of_lt ht h] at hi
    rcases Nat.lt_or_ge (tail + i) n with hw | hw
    · rw [Nat.mod_eq_of_lt hw]
      omega
    · rw [Nat.mod_eq_sub_mod hw, Nat.mod_eq_of_lt (by omega)]
      omega
  · rw [count_of_le hh h] at hi
    rw [Nat.mod_eq_of_lt (by omega)]
    omega

theorem queued_self (slots : Nat → α) (ht : tail < n) : queued n slots tail tail = [] := by
  simp [queued, count_self ht]

theorem queued_eq_nil_iff {slots : Nat → α} (hh : head < n) (ht : tail < n) :
    queued n slots head tail = [] ↔ head = tail := by
  rw [← List.length_eq_zero_iff, length_queued, count_eq_zero_iff hh ht]

theorem queued_push {slots : Nat → α} (hh : head < n) (ht : tail < n) (hfull : (head + 1) % n ≠ tail) (x : α) :
    queued n (Function.update slots head x) ((head + 1) % n) tail = queued n slots head tail ++ [x] := by
  unfold queued
  rw [count_next_head hh ht hfull, List.range_succ, List.map_append]
  congr 1
  · refine List.map_congr_left fun i hi => ?_
    rw [Function.update_of_ne (slot_ne_head hh ht (List.mem_range.mp hi))]
  · simp [slot_count hh ht]

theorem queued_pop {slots : Nat → α} (hh : head < n) (ht : tail < n) (hne : head ≠ tail) :
    queued n slots head tail = slots tail :: queued n slots head ((tail + 1) % n) := by
  unfold queued
  rw [count_next_tail hh ht hne, List.range_succ_eq_map, List.map_cons, List.map_map, Nat.add_zero,
    Nat.mod_eq_of_lt ht]
  congr 1
  refine List.map_congr_left fun i _ => ?_
  show slots ((tail + (i + 1)) % n) = slots (((tail + 1) % n + i) % n)
  rw [Nat.mod_add_mod, Nat.add_right_comm, Nat.add_assoc]

/-! ### Stretches -/

theorem queued_append {slots : Nat → α} {mid : Nat} (hm : mid < n) (ht : tail < n)
    (h : count n head tail = count n mid tail + count n head mid) :
    queued n slots head tail = queued n slots mid tail ++ queued n slots head mid := by
  unfold queued
  rw [h, List.range_add, List.map_append, List.map_map]
  congr 1
  refine List.map_congr_left fun i _ => ?_
  show slots ((tail + (count n mid tail + i)) % n) = slots ((mid + i) % n)
  rw [← Nat.add_assoc, Nat.add_mod, slot_count hm ht, Nat.add_mod_mod]

/-- The elements of `k` slots in a row, from slot `i` on. -/
def stretch (slots : Nat → α) (i k : Nat) : List α := (List.range k).map fun j => slots (i + j)

@[simp] theorem length_stretch (slots : Nat → α) (i k : Nat) : (stretch slots i k).length = k := by simp [stretch]

theorem stretch_cons (slots : Nat → α) (i k : Nat) : stretch slots i (k + 1) = slots i :: stretch slots (i + 1) k := by
  simp only [stretch, List.range_succ_eq_map, List.map_cons, List.map_map, Nat.add_zero]
  congr 1
  refine List.map_congr_left fun j _ => ?_
  show slots (i + (j + 1)) = slots (i + 1 + j)
  rw [Nat.add_assoc i 1 j, Nat.add_comm 1 j]

theorem stretch_update (slots : Nat → α) (i k : Nat) (x : α) :
    stretch (Function.update slots (i + k) x) i (k + 1) = stretch slots i k ++ [x] := by
  rw [stretch, List.range_succ, List.map_append, List.map_singleton, Function.update_self]
  congr 1
  refine List.map_congr_left fun j hj => Function.update_of_ne ?_ _ _
  have := List.mem_range.mp hj
  omega

theorem queued_eq_stretch {slots : Nat → α} (h : tail + count n head tail ≤ n) :
    queued n slots head tail = stretch slots tail (count n head tail) := by
  refine List.map_congr_left fun i hi => ?_
  have hi := List.mem_range.mp hi
  rw [Nat.mod_eq_of_lt (by omega)]

/-- Slots `i .. i + k - 1` are overwritten with slots `j .. j + k - 1` of another array. -/
def copy (dst : Nat → α) (i : Nat) (src : Nat → α) (j k : Nat) : Nat → α :=
  fun a => if i ≤ a ∧ a < i + k then src (j + (a - i)) else dst a

theorem copy_add {dst src : Nat → α} {i j k l : Nat} (h : l < k) : copy dst i src j k (i + l) = src (j + l) := by
  rw [copy, if_pos (by omega), Nat.add_sub_cancel_left]

theorem stretch_copy {dst src : Nat → α} {i j k : Nat} : stretch (copy dst i src j k) i k = stretch src j k :=
  List.map_congr_left fun _ hl => copy_add (List.mem_range.mp hl)

end Ring
