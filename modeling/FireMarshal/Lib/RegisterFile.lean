import Mathlib.Algebra.Ring.Nat
import Mathlib.Logic.Function.Basic
import Mathlib.Tactic.Common

/-! Registers in byte memory. A layout gives each register a bank, an address and a width, and the accesses are
    little-endian. Where any two registers are apart or in the same place, the memory holds the last value of every
    register after a write if and only if the write repeats the values of the others in its place. -/

namespace RegisterFile

/-- The `w` bytes from `a` on are those of `v`, the least one first. -/
def store (m : Nat → UInt8) (a w v : Nat) : Nat → UInt8 :=
  fun x => if a ≤ x ∧ x < a + w then UInt8.ofNat (v / 256 ^ (x - a)) else m x

def load (m : Nat → UInt8) : Nat → Nat → Nat
  | _, 0 => 0
  | a, w + 1 => (m a).toNat + 256 * load m (a + 1) w

section Access

variable {m m' : Nat → UInt8} {a a' w w' v : Nat}

theorem load_congr (h : ∀ i, i < w → m (a + i) = m' (a + i)) : load m a w = load m' a w := by
  induction w generalizing a with
  | zero => rfl
  | succ w ih =>
    have hhead : m a = m' a := h 0 w.succ_pos
    have htail : load m (a + 1) w = load m' (a + 1) w := by
      refine ih fun i hi => ?_
      rw [Nat.add_right_comm]
      exact h (i + 1) (Nat.succ_lt_succ hi)
    rw [load, load, hhead, htail]

theorem load_digits (h : ∀ i, i < w → m (a + i) = UInt8.ofNat (v / 256 ^ i)) : load m a w = v % 256 ^ w := by
  induction w generalizing a v with
  | zero => rw [load, pow_zero, Nat.mod_one]
  | succ w ih =>
    have hhead : (m a).toNat = v % 256 := by
      rw [show m a = UInt8.ofNat v by simpa using h 0 w.succ_pos, UInt8.toNat_ofNat']
    have htail : load m (a + 1) w = v / 256 % 256 ^ w := by
      refine ih fun i hi => ?_
      rw [Nat.add_right_comm, Nat.div_div_eq_div_mul, ← pow_succ']
      exact h (i + 1) (Nat.succ_lt_succ hi)
    rw [load, hhead, htail, pow_succ', Nat.mod_mul]

theorem load_store : load (store m a w v) a w = v % 256 ^ w := by
  refine load_digits fun i hi => ?_
  rw [store, if_pos ⟨Nat.le_add_right a i, Nat.add_lt_add_left hi a⟩, Nat.add_sub_cancel_left]

theorem load_store_of_apart (h : a' + w' ≤ a ∨ a + w ≤ a') : load (store m a w v) a' w' = load m a' w' := by
  refine load_congr fun i hi => ?_
  rw [store, if_neg]
  rintro ⟨hle, hlt⟩
  rcases h with h | h <;> omega

theorem apart_of_stride {k i i' : Nat} (hw : a + w ≤ k) (hw' : a' + w' ≤ k)
    (h : i = i' → a' + w' ≤ a ∨ a + w ≤ a') : i' * k + a' + w' ≤ i * k + a ∨ i * k + a + w ≤ i' * k + a' := by
  rcases Nat.lt_trichotomy i i' with hlt | heq | hlt
  · have := Nat.mul_le_mul_right k hlt
    rw [Nat.succ_mul] at this
    omega
  · have := h heq
    rw [heq]
    omega
  · have := Nat.mul_le_mul_right k hlt
    rw [Nat.succ_mul] at this
    omega

end Access

/-- Where the registers `R` are in the banks `B` of the memory. -/
structure Layout (R B : Type) where
  bank : R → B
  addr : R → Nat
  width : R → Nat

namespace Layout

variable {R B : Type} {L : Layout R B} {r r' : R}

def read (L : Layout R B) (m : B → Nat → UInt8) (r : R) : Nat := load (m (L.bank r)) (L.addr r) (L.width r)

def write [DecidableEq B] (L : Layout R B) (m : B → Nat → UInt8) (r : R) (v : Nat) : B → Nat → UInt8 :=
  Function.update m (L.bank r) (store (m (L.bank r)) (L.addr r) (L.width r) v)

def Alias (L : Layout R B) (r r' : R) : Prop := L.bank r = L.bank r' ∧ L.addr r = L.addr r' ∧ L.width r = L.width r'

def Apart (L : Layout R B) (r r' : R) : Prop :=
  L.bank r ≠ L.bank r' ∨ L.addr r' + L.width r' ≤ L.addr r ∨ L.addr r + L.width r ≤ L.addr r'

theorem Apart.symm (h : L.Apart r r') : L.Apart r' r := by
  rcases h with h | h | h
  · exact .inl h.symm
  · exact .inr (.inr h)
  · exact .inr (.inl h)

theorem Apart.not_alias (h : L.Apart r r') (hw : 0 < L.width r) : ¬L.Alias r r' := by
  rintro ⟨hbank, haddr, hwidth⟩
  rcases h with h | h | h
  · exact h hbank
  · omega
  · omega

variable [DecidableEq B]

theorem read_write_of_alias {m : B → Nat → UInt8} {v : Nat} (h : L.Alias r r') :
    L.read (L.write m r v) r' = v % 256 ^ L.width r := by
  obtain ⟨hbank, haddr, hwidth⟩ := h
  rw [read, write, ← hbank, ← haddr, ← hwidth, Function.update_self, load_store]

theorem read_write_of_apart {m : B → Nat → UInt8} {v : Nat} (h : L.Apart r r') :
    L.read (L.write m r v) r' = L.read m r' := by
  rw [read, write, read]
  rcases eq_or_ne (L.bank r') (L.bank r) with hbank | hbank
  · rw [hbank, Function.update_self, load_store_of_apart (h.resolve_left (not_not.mpr hbank.symm))]
  · rw [Function.update_of_ne hbank]

/-- The memory, and beside it the last value written to each register. -/
structure State (R B : Type) where
  mem : B → Nat → UInt8
  last : R → Nat

variable [DecidableEq R]

def step (L : Layout R B) (s : State R B) (a : R × Nat) : State R B :=
  ⟨L.write s.mem a.1 a.2, Function.update s.last a.1 (a.2 % 256 ^ L.width a.1)⟩

def ReadsBack (L : Layout R B) (s : State R B) : Prop := ∀ r, L.read s.mem r = s.last r

/-- The write gives the other registers in its place the value that they have. -/
def Harmless (L : Layout R B) (s : State R B) (a : R × Nat) : Prop :=
  ∀ r, r ≠ a.1 → L.Alias a.1 r → s.last r = a.2 % 256 ^ L.width a.1

theorem readsBack_step_iff {s : State R B} {a : R × Nat} (hL : ∀ r r', r ≠ r' → L.Alias r r' ∨ L.Apart r r')
    (hs : L.ReadsBack s) : L.ReadsBack (L.step s a) ↔ L.Harmless s a := by
  constructor
  · intro h r hne halias
    have hr : L.read (L.write s.mem a.1 a.2) r = Function.update s.last a.1 (a.2 % 256 ^ L.width a.1) r := h r
    rw [read_write_of_alias halias, Function.update_of_ne hne] at hr
    exact hr.symm
  · intro h r
    change L.read (L.write s.mem a.1 a.2) r = Function.update s.last a.1 (a.2 % 256 ^ L.width a.1) r
    rcases eq_or_ne r a.1 with rfl | hne
    · rw [read_write_of_alias ⟨rfl, rfl, rfl⟩, Function.update_self]
    · rw [Function.update_of_ne hne]
      rcases hL a.1 r hne.symm with halias | hapart
      · rw [read_write_of_alias halias, h r hne halias]
      · rw [read_write_of_apart hapart, hs r]

end Layout

end RegisterFile
