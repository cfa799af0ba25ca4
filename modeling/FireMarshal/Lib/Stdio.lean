import Mathlib.Algebra.Ring.Nat
import Mathlib.Data.List.Basic
import Mathlib.Tactic.Common

/-! Hexadecimal input and output of the C library: `%x` with a field width and literal characters in `sscanf`, and `%x`
    with a minimal width in `snprintf`. A string is the list of its bytes before the zero that ends it. -/

namespace Stdio

def isSpace (c : UInt8) : Bool := c.toNat = 32 || (9 ≤ c.toNat && c.toNat ≤ 13)

def hexVal (c : UInt8) : Option Nat :=
  if 48 ≤ c.toNat ∧ c.toNat ≤ 57 then some (c.toNat - 48)
  else if 65 ≤ c.toNat ∧ c.toNat ≤ 70 then some (c.toNat - 55)
  else if 97 ≤ c.toNat ∧ c.toNat ≤ 102 then some (c.toNat - 87)
  else none

def isHex (c : UInt8) : Bool := (hexVal c).isSome

def digit (c : UInt8) : Nat := (hexVal c).getD 0

def isX (c : UInt8) : Bool := c.toNat = 120 || c.toNat = 88

def toLower (c : UInt8) : UInt8 := if 65 ≤ c.toNat ∧ c.toNat ≤ 90 then UInt8.ofNat (c.toNat + 32) else c

/-! ### sscanf -/

/-- Why `sscanf` stops before the end of its format: the string ends, or does not match. -/
inductive Failure where
  | input
  | matching
  deriving DecidableEq, Repr

inductive Directive where
  | literal (c : UInt8)
  | hex (width : Nat)
  deriving DecidableEq, Repr

def digits (width : Nat) (input : List UInt8) : List UInt8 := (input.take width).takeWhile isHex

def value (ds : List UInt8) : Nat := ds.foldl (fun n d => 16 * n + digit d) 0

/-- The result of `strtoul` for a sign and the digits after it. -/
def strtoul (neg : Bool) (ds : List UInt8) : BitVec 64 :=
  if value ds < 2 ^ 64 then
    if neg then -BitVec.ofNat 64 (value ds) else BitVec.ofNat 64 (value ds)
  else BitVec.allOnes 64

/-- The conversion of up to `width` digits to an `unsigned int`, and the input after them. -/
def bareNumber (neg : Bool) (width : Nat) (input : List UInt8) : Except Failure (BitVec 32 × List UInt8) :=
  let ds := digits width input
  if ds = [] then .error .matching else .ok ((strtoul neg ds).setWidth 32, input.drop ds.length)

/-- The conversion after the sign. That no digit follows a `0x` is a matching failure in the C standard, while some
    libraries (`lone`) take the `0x` for a zero. -/
def number (lone neg : Bool) (width : Nat) (input : List UInt8) : Except Failure (BitVec 32 × List UInt8) :=
  match input with
  | z :: x :: rest =>
    if 2 ≤ width ∧ z = 48 ∧ isX x = true then
      if lone = true ∧ digits (width - 2) rest = [] then .ok (0#32, rest) else bareNumber neg (width - 2) rest
    else bareNumber neg width (z :: x :: rest)
  | input => bareNumber neg width input

/-- `%x` with a width. The sign counts for the width, the blanks before it do not. -/
def scanHex (lone : Bool) (width : Nat) (input : List UInt8) : Except Failure (BitVec 32 × List UInt8) :=
  match input.dropWhile isSpace with
  | [] => .error .input
  | c :: rest =>
    if c = 45 then number lone true (width - 1) rest
    else if c = 43 then number lone false (width - 1) rest
    else number lone false width (c :: rest)

def scanLiteral (c : UInt8) : List UInt8 → Except Failure (List UInt8)
  | [] => .error .input
  | d :: rest => if d = c then .ok rest else .error .matching

/-- The values that are assigned, and how the scan failed. -/
def scan (lone : Bool) : List Directive → List UInt8 → List (BitVec 32) × Option Failure
  | [], _ => ([], none)
  | .literal c :: ds, input =>
    match scanLiteral c input with
    | .error e => ([], some e)
    | .ok rest => scan lone ds rest
  | .hex w :: ds, input =>
    match scanHex lone w input with
    | .error e => ([], some e)
    | .ok (v, rest) => (v :: (scan lone ds rest).1, (scan lone ds rest).2)

/-- The result of `sscanf`, and the values that are assigned. -/
def sscanf (lone : Bool) (format : List Directive) (input : List UInt8) : Int × List (BitVec 32) :=
  match scan lone format input with
  | ([], some .input) => (-1, [])
  | (values, _) => (values.length, values)

/-! ### snprintf -/

def hexDigit (v : Nat) : UInt8 := UInt8.ofNat (if v < 10 then 48 + v else 87 + v)

def hexDigits : Nat → Nat → List UInt8
  | 0, _ => []
  | fuel + 1, v => if v < 16 then [hexDigit v] else hexDigits fuel (v / 16) ++ [hexDigit (v % 16)]

/-- `%x` of a 64-bit number, with zeros before it up to the width. -/
def formatHex (width : Nat) (v : BitVec 64) : List UInt8 :=
  List.replicate (width - (hexDigits 16 v.toNat).length) 48 ++ hexDigits 16 v.toNat

def snprintf (buf : List UInt8) (size : Nat) (text : List UInt8) : List UInt8 :=
  if size = 0 then buf
  else
    let written := text.take (size - 1) ++ [0]
    written ++ buf.drop written.length

/-! ### Digits -/

section Digits

variable {c d e x : UInt8} {v : Nat}

theorem isHex_iff : isHex c = true ↔
    (48 ≤ c.toNat ∧ c.toNat ≤ 57) ∨ (65 ≤ c.toNat ∧ c.toNat ≤ 70) ∨ (97 ≤ c.toNat ∧ c.toNat ≤ 102) := by
  rw [isHex, hexVal]
  split_ifs <;> simp_all

theorem digit_lt (c : UInt8) : digit c < 16 := by
  rw [digit, hexVal]
  split_ifs <;> simp <;> omega

theorem hexDigit_digit (h : isHex c = true) : hexDigit (digit c) = toLower c := by
  apply UInt8.toNat_inj.mp
  have hc := c.toNat_lt
  rw [isHex_iff] at h
  rw [hexDigit, digit, hexVal, toLower]
  split_ifs <;> simp at * <;> omega

theorem isHex_hexDigit (h : v < 16) : isHex (hexDigit v) = true := by
  rw [isHex_iff, hexDigit]
  split_ifs <;> simp <;> omega

theorem digit_hexDigit : v < 16 → digit (hexDigit v) = v := by
  have h : ∀ v, v < 16 → digit (hexDigit v) = v := by decide
  exact h v

theorem isHex_ne (h : isHex c = true) : isSpace c = false ∧ c ≠ 45 ∧ c ≠ 43 := by
  rw [isHex_iff] at h
  refine ⟨?_, ?_, ?_⟩
  · rw [isSpace, Bool.or_eq_false_iff, Bool.and_eq_false_iff]
    simp only [decide_eq_false_iff_not]
    omega
  · rintro rfl
    exact absurd h (by decide)
  · rintro rfl
    exact absurd h (by decide)

theorem isHex_eq_false_of_isX (h : isX c = true) : isHex c = false := by
  rw [isX, Bool.or_eq_true, decide_eq_true_iff, decide_eq_true_iff] at h
  rw [← Bool.not_eq_true, isHex_iff]
  omega

end Digits

/-! ### Numbers of two digits -/

theorem value_one (d : UInt8) : value [d] = digit d := by simp [value]

theorem value_two (d e : UInt8) : value [d, e] = 16 * digit d + digit e := by simp [value]

def IsGroup (g : List UInt8) : Prop := 1 ≤ g.length ∧ g.length ≤ 2 ∧ ∀ d ∈ g, isHex d = true

instance (g : List UInt8) : Decidable (IsGroup g) := inferInstanceAs (Decidable (_ ∧ _ ∧ _))

section Groups

variable {d e : UInt8} {g : List UInt8} {v : BitVec 64}

theorem isGroup_one (hd : isHex d = true) : IsGroup [d] := ⟨Nat.le_refl 1, Nat.le_succ 1, by simpa using hd⟩

theorem isGroup_two (hd : isHex d = true) (he : isHex e = true) : IsGroup [d, e] :=
  ⟨Nat.le_succ 1, Nat.le_refl 2, by simp [hd, he]⟩

theorem IsGroup.cases (h : IsGroup g) :
    (∃ d, g = [d] ∧ isHex d = true) ∨ ∃ d e, g = [d, e] ∧ isHex d = true ∧ isHex e = true := by
  obtain ⟨hpos, hle, hhex⟩ := h
  rcases g with _ | ⟨d, _ | ⟨e, _ | ⟨f, g⟩⟩⟩
  · simp at hpos
  · exact .inl ⟨d, rfl, hhex d (by simp)⟩
  · exact .inr ⟨d, e, rfl, hhex d (by simp), hhex e (by simp)⟩
  · simp at hle

theorem value_lt_of_isGroup (h : IsGroup g) : value g < 256 := by
  rcases h.cases with ⟨d, rfl, -⟩ | ⟨d, e, rfl, -, -⟩
  · have := digit_lt d
    rw [value_one]
    omega
  · have := digit_lt d
    have := digit_lt e
    rw [value_two]
    omega

theorem formatHex_two (h : v.toNat < 256) : formatHex 2 v = [hexDigit (v.toNat / 16), hexDigit (v.toNat % 16)] := by
  by_cases hv : v.toNat < 16
  · rw [formatHex, hexDigits, if_pos hv, Nat.div_eq_of_lt hv, Nat.mod_eq_of_lt hv]
    rfl
  · rw [formatHex, hexDigits, if_neg hv, hexDigits, if_pos (by omega)]
    rfl

theorem isGroup_formatHex (h : v.toNat < 256) : IsGroup (formatHex 2 v) := by
  rw [formatHex_two h]
  exact isGroup_two (isHex_hexDigit (by omega)) (isHex_hexDigit (by omega))

theorem value_formatHex (h : v.toNat < 256) : value (formatHex 2 v) = v.toNat := by
  rw [formatHex_two h, value_two, digit_hexDigit (by omega), digit_hexDigit (by omega)]
  omega

def padded (g : List UInt8) : List UInt8 := (List.replicate (2 - g.length) 48 ++ g).map toLower

theorem formatHex_value (hg : IsGroup g) (hv : v.toNat = value g) : formatHex 2 v = padded g := by
  rw [formatHex_two (hv ▸ value_lt_of_isGroup hg), hv]
  rcases hg.cases with ⟨d, rfl, hd⟩ | ⟨d, e, rfl, hd, he⟩
  · have := digit_lt d
    rw [value_one, Nat.div_eq_of_lt this, Nat.mod_eq_of_lt this, hexDigit_digit hd]
    rfl
  · have := digit_lt e
    rw [value_two, Nat.mul_add_div (by decide), Nat.mul_add_mod, Nat.div_eq_of_lt this, Nat.mod_eq_of_lt this,
      Nat.add_zero, hexDigit_digit hd, hexDigit_digit he]
    rfl

end Groups

end Stdio
