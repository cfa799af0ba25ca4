import Mathlib.Data.List.Basic
import Mathlib.Data.List.TakeWhile
import FireMarshal.Lib.Stdio

/-! What `sscanf` accepts for a format of fields `%2x` with a character between them. -/

namespace Stdio

/-! ### Fields of width two -/

/-- The items that `%2x` takes, with their values and what may follow. An item is as long as it can be: one digit is
    followed neither by a digit nor, after a zero, by an `x`. -/
inductive HexItem (lone : Bool) : List UInt8 → BitVec 32 → List UInt8 → Prop where
  | one {d rest} (hd : isHex d = true) (hend : ∀ c, rest.head? = some c → isHex c = false ∧ ¬(d = 48 ∧ isX c = true)) :
      HexItem lone [d] (BitVec.ofNat 32 (digit d)) rest
  | two {d e rest} (hd : isHex d = true) (he : isHex e = true) :
      HexItem lone [d, e] (BitVec.ofNat 32 (16 * digit d + digit e)) rest
  | plus {d rest} (hd : isHex d = true) : HexItem lone [43, d] (BitVec.ofNat 32 (digit d)) rest
  | minus {d rest} (hd : isHex d = true) : HexItem lone [45, d] (-BitVec.ofNat 32 (digit d)) rest
  | zeroX {x rest} (hlone : lone = true) (hx : isX x = true) : HexItem lone [48, x] 0#32 rest

/-- The front of a string, up to `rest`, that `%2x` converts. -/
def Field (lone : Bool) (s : List UInt8) (v : BitVec 32) (rest : List UInt8) : Prop :=
  ∃ blanks item, (∀ b ∈ blanks, isSpace b = true) ∧ s = blanks ++ item ++ rest ∧ HexItem lone item v rest

section Fields

variable {lone neg : Bool} {c d e x : UInt8} {v : BitVec 32} {s rest : List UInt8}

theorem strtoul_of_lt {ds : List UInt8} (h : value ds < 256) :
    (strtoul neg ds).setWidth 32 = if neg then -BitVec.ofNat 32 (value ds) else BitVec.ofNat 32 (value ds) := by
  rw [strtoul, if_pos (by omega)]
  cases neg with
  | false => simp
  | true => simp [BitVec.setWidth_neg_of_le]

theorem bareNumber_one (hd : isHex d = true) :
    bareNumber neg 1 (d :: rest) =
      .ok (if neg then -BitVec.ofNat 32 (digit d) else BitVec.ofNat 32 (digit d), rest) := by
  have hlt : value [d] < 256 := value_lt_of_isGroup (isGroup_one hd)
  simp [bareNumber, digits, hd, strtoul_of_lt hlt, value]

theorem bareNumber_two (hd : isHex d = true) (he : isHex e = true) :
    bareNumber false 2 (d :: e :: rest) = .ok (BitVec.ofNat 32 (16 * digit d + digit e), rest) := by
  have hlt : value [d, e] < 256 := value_lt_of_isGroup (isGroup_two hd he)
  simp [bareNumber, digits, hd, he, strtoul_of_lt hlt, value]

theorem bareNumber_two_of_end (hd : isHex d = true) (hend : ∀ c, rest.head? = some c → isHex c = false) :
    bareNumber false 2 (d :: rest) = .ok (BitVec.ofNat 32 (digit d), rest) := by
  have hlt : value [d] < 256 := value_lt_of_isGroup (isGroup_one hd)
  cases rest with
  | nil => simp [bareNumber, digits, hd, strtoul_of_lt hlt, value]
  | cons c rest => simp [bareNumber, digits, hd, hend c rfl, strtoul_of_lt hlt, value]

theorem bareNumber_error {width : Nat} (hd : isHex d = false) :
    bareNumber neg width (d :: rest) = .error .matching := by
  cases width with
  | zero => rfl
  | succ width => simp [bareNumber, digits, hd]

theorem number_one : number lone neg 1 s = bareNumber neg 1 s := by
  rcases s with _ | ⟨z, _ | ⟨x, rest⟩⟩
  · rfl
  · rfl
  · rw [number, if_neg (by omega)]

theorem number_two (h : ¬(d = 48 ∧ ∃ c, rest.head? = some c ∧ isX c = true)) :
    number lone false 2 (d :: rest) = bareNumber false 2 (d :: rest) := by
  cases rest with
  | nil => rfl
  | cons c rest =>
    rw [number, if_neg]
    rintro ⟨-, hd, hc⟩
    exact h ⟨hd, c, rfl, hc⟩

theorem HexItem.dropWhile {item : List UInt8} (h : HexItem lone item v rest) :
    (item ++ rest).dropWhile isSpace = item ++ rest := by
  cases h with
  | one hd => exact List.dropWhile_cons_of_neg (by simp [(isHex_ne hd).1])
  | two hd => exact List.dropWhile_cons_of_neg (by simp [(isHex_ne hd).1])
  | plus => rfl
  | minus => rfl
  | zeroX => rfl

theorem scanHex_of_field (h : Field lone s v rest) : scanHex lone 2 s = .ok (v, rest) := by
  obtain ⟨blanks, item, hblanks, rfl, hitem⟩ := h
  rw [scanHex, List.append_assoc, List.dropWhile_append_of_pos hblanks, hitem.dropWhile]
  cases hitem with
  | one hd hend =>
    obtain ⟨-, hminus, hplus⟩ := isHex_ne hd
    simp only [List.singleton_append, hminus, hplus, if_false]
    rw [number_two, bareNumber_two_of_end hd fun c hc => (hend c hc).1]
    rintro ⟨hzero, c, hc, hx⟩
    exact (hend c hc).2 ⟨hzero, hx⟩
  | two hd he =>
    obtain ⟨-, hminus, hplus⟩ := isHex_ne hd
    simp only [List.cons_append, List.nil_append, hminus, hplus, if_false]
    rw [number_two, bareNumber_two hd he]
    rintro ⟨-, c, hc, hx⟩
    obtain rfl := Option.some.inj hc
    rw [isHex_eq_false_of_isX hx] at he
    cases he
  | plus hd => exact number_one.trans (bareNumber_one hd)
  | minus hd => exact number_one.trans (bareNumber_one hd)
  | @zeroX x rest hlone hx =>
    change number lone false 2 (48 :: x :: rest) = _
    rw [number, if_pos ⟨Nat.le_refl 2, rfl, hx⟩, if_pos ⟨hlone, rfl⟩]

theorem of_number_one (h : number lone neg 1 s = .ok (v, rest)) :
    ∃ d, isHex d = true ∧ s = d :: rest ∧
      v = if neg then -BitVec.ofNat 32 (digit d) else BitVec.ofNat 32 (digit d) := by
  rw [number_one] at h
  cases s with
  | nil => cases h
  | cons d s =>
    cases hd : isHex d with
    | false =>
      rw [bareNumber_error hd] at h
      cases h
    | true =>
      rw [bareNumber_one hd] at h
      cases h
      exact ⟨d, hd, rfl, rfl⟩

theorem of_number_two (h : number lone false 2 (d :: s) = .ok (v, rest)) :
    ∃ item, d :: s = item ++ rest ∧ HexItem lone item v rest := by
  by_cases hx : d = 48 ∧ ∃ c, s.head? = some c ∧ isX c = true
  · -- The width is used up by the `0x`, so no digit can follow it.
    obtain ⟨rfl, c, hc, hx⟩ := hx
    obtain ⟨s, rfl⟩ : ∃ t, s = c :: t := ⟨s.tail, (List.cons_head?_tail hc).symm⟩
    rw [number, if_pos ⟨Nat.le_refl 2, rfl, hx⟩] at h
    cases lone with
    | false => cases h
    | true =>
      cases h
      exact ⟨[48, c], rfl, .zeroX rfl hx⟩
  · rw [number_two hx] at h
    cases hd : isHex d with
    | false =>
      rw [bareNumber_error hd] at h
      cases h
    | true =>
      by_cases hnext : ∃ e, s.head? = some e ∧ isHex e = true
      · obtain ⟨e, he, hhex⟩ := hnext
        obtain ⟨s, rfl⟩ : ∃ t, s = e :: t := ⟨s.tail, (List.cons_head?_tail he).symm⟩
        rw [bareNumber_two hd hhex] at h
        cases h
        exact ⟨[d, e], rfl, .two hd hhex⟩
      · have hend : ∀ c, s.head? = some c → isHex c = false := fun c hc =>
          Bool.eq_false_iff.mpr fun hhex => hnext ⟨c, hc, hhex⟩
        rw [bareNumber_two_of_end hd hend] at h
        cases h
        exact ⟨[d], rfl, .one hd fun c hc => ⟨hend c hc, fun hzero => hx ⟨hzero.1, c, hc, hzero.2⟩⟩⟩

theorem field_of_scanHex (h : scanHex lone 2 s = .ok (v, rest)) : Field lone s v rest := by
  refine ⟨s.takeWhile isSpace, ?_⟩
  have hs := List.takeWhile_append_dropWhile (p := isSpace) (l := s)
  have hblanks : ∀ b ∈ s.takeWhile isSpace, isSpace b = true := fun b => List.mem_takeWhile_imp
  rw [scanHex] at h
  generalize s.dropWhile isSpace = t at h hs
  cases t with
  | nil => cases h
  | cons c t =>
    have hitem : ∃ item, c :: t = item ++ rest ∧ HexItem lone item v rest := by
      simp only at h
      split_ifs at h with hminus hplus
      · obtain ⟨d, hd, rfl, rfl⟩ := of_number_one h
        exact ⟨[c, d], rfl, hminus ▸ .minus hd⟩
      · obtain ⟨d, hd, rfl, rfl⟩ := of_number_one h
        exact ⟨[c, d], rfl, hplus ▸ .plus hd⟩
      · exact of_number_two h
    obtain ⟨item, heq, hitem⟩ := hitem
    exact ⟨item, hblanks, by rw [List.append_assoc, ← heq, hs], hitem⟩

theorem scanHex_iff : scanHex lone 2 s = .ok (v, rest) ↔ Field lone s v rest := ⟨field_of_scanHex, scanHex_of_field⟩

end Fields

/-! ### Several fields -/

def separated (sep : UInt8) : Nat → List Directive
  | 0 => [.hex 2]
  | n + 1 => .hex 2 :: .literal sep :: separated sep n

def Fields (lone : Bool) (sep : UInt8) : List UInt8 → List (BitVec 32) → Prop
  | _, [] => False
  | s, [v] => ∃ rest, Field lone s v rest
  | s, v :: w :: vs => ∃ rest, Field lone s v (sep :: rest) ∧ Fields lone sep rest (w :: vs)

section Several

variable {lone : Bool} {sep : UInt8} {n : Nat} {s : List UInt8} {vs : List (BitVec 32)}

theorem scan_separated_iff (hlen : vs.length = n + 1) :
    (scan lone (separated sep n) s).1 = vs ↔ Fields lone sep s vs := by
  induction n generalizing s vs with
  | zero =>
    obtain ⟨v, rfl⟩ := List.length_eq_one_iff.mp hlen
    simp only [separated, scan, Fields, ← scanHex_iff]
    rcases scanHex lone 2 s with e | ⟨u, rest⟩
    · simp
    · simp
  | succ n ih =>
    obtain ⟨v, vs, rfl⟩ := List.exists_cons_of_length_eq_add_one hlen
    obtain ⟨w, vs, rfl⟩ := List.exists_cons_of_length_eq_add_one (Nat.succ.inj hlen)
    simp only [separated, scan, Fields, ← scanHex_iff, ← ih (Nat.succ.inj hlen)]
    -- The field fails, or the string ends after it, or a character follows that may be the separator.
    rcases scanHex lone 2 s with e | ⟨u, _ | ⟨c, rest⟩⟩
    · simp
    · simp [scanLiteral]
    · by_cases hc : c = sep
      · simp [scanLiteral, hc]
      · simp [scanLiteral, hc]

theorem sscanf_snd (lone : Bool) (format : List Directive) (s : List UInt8) :
    (sscanf lone format s).2 = (scan lone format s).1 := by
  rw [sscanf]
  split
  · rename_i h
    rw [h]
  · rename_i h
    rw [h]

theorem sscanf_fst_iff {format : List Directive} :
    (sscanf lone format s).1 = (n + 1 : Nat) ↔ (scan lone format s).1.length = n + 1 := by
  rw [sscanf]
  split
  · rename_i h
    rw [h]
    simp
    omega
  · rename_i h
    rw [h]
    exact Int.natCast_inj

theorem sscanf_of_fields (h : Fields lone sep s vs) (hlen : vs.length = n + 1) :
    sscanf lone (separated sep n) s = (((n + 1 : Nat) : Int), vs) := by
  have hscan := (scan_separated_iff hlen).mpr h
  exact Prod.ext (sscanf_fst_iff.mpr (by rw [hscan, hlen])) ((sscanf_snd _ _ _).trans hscan)

theorem fields_of_sscanf (h : (sscanf lone (separated sep n) s).1 = (n + 1 : Nat)) :
    ∃ vs, vs.length = n + 1 ∧ Fields lone sep s vs := by
  have hlen := sscanf_fst_iff.mp h
  exact ⟨_, hlen, (scan_separated_iff hlen).mp rfl⟩

theorem IsGroup.field {g rest : List UInt8} (h : IsGroup g)
    (hend : ∀ c, rest.head? = some c → isHex c = false ∧ isX c = false) :
    Field lone (g ++ rest) (BitVec.ofNat 32 (value g)) rest := by
  refine ⟨[], g, by simp, rfl, ?_⟩
  rcases h.cases with ⟨d, rfl, hd⟩ | ⟨d, e, rfl, hd, he⟩
  · rw [value_one]
    refine .one hd fun c hc => ⟨(hend c hc).1, ?_⟩
    rintro ⟨-, hx⟩
    rw [(hend c hc).2] at hx
    cases hx
  · rw [value_two]
    exact .two hd he

theorem fields_intercalate {gs : List (List UInt8)} (hsep : isHex sep = false ∧ isX sep = false) (hne : gs ≠ [])
    (h : ∀ g ∈ gs, IsGroup g) :
    Fields lone sep ([sep].intercalate gs) (gs.map fun g => BitVec.ofNat 32 (value g)) := by
  induction gs with
  | nil => exact absurd rfl hne
  | cons g gs ih =>
    have hg := h g List.mem_cons_self
    cases gs with
    | nil =>
      have hfield : Field lone (g ++ []) (BitVec.ofNat 32 (value g)) [] := hg.field (by simp)
      rw [List.append_nil] at hfield
      rw [List.intercalate_singleton]
      exact ⟨[], hfield⟩
    | cons g' gs =>
      rw [List.intercalate_cons_cons, List.append_assoc]
      refine ⟨_, hg.field fun c hc => ?_, ih (by simp) fun g hg => h g (List.mem_cons_of_mem _ hg)⟩
      obtain rfl := Option.some.inj hc
      exact hsep

theorem mem_intercalate {c : UInt8} {gs : List (List UInt8)} (h : c ∈ [sep].intercalate gs) : c = sep ∨ ∃ g ∈ gs, c ∈ g := by
  induction gs with
  | nil => cases h
  | cons g gs ih =>
    cases gs with
    | nil =>
      rw [List.intercalate_singleton] at h
      exact .inr ⟨g, List.mem_cons_self, h⟩
    | cons g' gs =>
      rw [List.intercalate_cons_cons, List.mem_append, List.mem_append, List.mem_singleton] at h
      rcases h with (h | h) | h
      · exact .inr ⟨g, List.mem_cons_self, h⟩
      · exact .inl h
      · rcases ih h with h | ⟨g, hg, hc⟩
        · exact .inl h
        · exact .inr ⟨g, List.mem_cons_of_mem _ hg, hc⟩

end Several

end Stdio
