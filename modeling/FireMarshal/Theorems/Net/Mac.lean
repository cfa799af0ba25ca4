import Mathlib.Data.List.Induction
import FireMarshal.Lib.StdioFields
import FireMarshal.Net.Mac
import FireMarshal.Net.FileTransfer

/-! MAC addresses and their texts. Reading a text back gives the address, and writing an address that was read gives the
    text in its usual form. But `sscanf` also reads texts that are no MAC addresses. -/

namespace FireMarshal.Mac

open Stdio
open FileTransfer (cString)

/-! ### The bytes of an address -/

def ofBytes (bytes : List Nat) : Nat := bytes.foldl (fun n b => 256 * n + b) 0

theorem toNat_shift_or {mac : BitVec 64} {b : BitVec 32} (hmac : mac.toNat < 2 ^ 56) (hb : b.toNat < 256) :
    (mac <<< 8 ||| (b &&& 0xff#32).setWidth 64).toNat = 256 * mac.toNat + b.toNat := by
  have hand : (b &&& 0xff#32).toNat = b.toNat := by
    rw [BitVec.toNat_and, show (0xff#32).toNat = 2 ^ 8 - 1 from rfl, Nat.and_two_pow_sub_one_eq_mod,
      Nat.mod_eq_of_lt hb]
  have hshift : (mac <<< 8).toNat = mac.toNat <<< 8 := by
    rw [BitVec.toNat_shiftLeft, Nat.shiftLeft_eq]
    exact Nat.mod_eq_of_lt (by omega)
  rw [BitVec.toNat_or, BitVec.toNat_setWidth, hand, hshift, Nat.mod_eq_of_lt (by omega),
    ← Nat.shiftLeft_add_eq_or_of_lt (by omega), Nat.shiftLeft_eq]
  omega

theorem ofBytes_concat (bytes : List Nat) (b : Nat) : ofBytes (bytes ++ [b]) = 256 * ofBytes bytes + b := by
  simp [ofBytes]

def bytesOf (n v : Nat) : List Nat := (List.range n).reverse.map fun k => v / 256 ^ k % 256

theorem lt_of_mem_bytesOf {n v b : Nat} (h : b ∈ bytesOf n v) : b < 256 := by
  obtain ⟨k, -, rfl⟩ := List.mem_map.mp h
  exact Nat.mod_lt _ (by decide)

theorem bytesOf_succ (n v : Nat) : bytesOf (n + 1) v = bytesOf n (v / 256) ++ [v % 256] := by
  rw [bytesOf, bytesOf, List.range_succ_eq_map, List.reverse_cons, ← List.map_reverse, List.map_append, List.map_map,
    List.map_singleton, pow_zero, Nat.div_one]
  congr 1
  refine List.map_congr_left fun k _ => ?_
  rw [Function.comp_apply, Nat.succ_eq_add_one, pow_succ', Nat.div_div_eq_div_mul]

theorem ofBytes_bytesOf (n v : Nat) : ofBytes (bytesOf n v) = v % 256 ^ n := by
  induction n generalizing v with
  | zero => exact (Nat.mod_one v).symm
  | succ n ih => rw [bytesOf_succ, ofBytes_concat, ih, pow_succ', Nat.mod_mul, Nat.add_comm]

theorem bytesOf_ofBytes {bytes : List Nat} (h : ∀ b ∈ bytes, b < 256) :
    bytesOf bytes.length (ofBytes bytes) = bytes := by
  induction bytes using List.reverseRecOn with
  | nil => rfl
  | append_singleton bytes b ih =>
    have hb : b < 256 := h b (by simp)
    rw [List.length_append, List.length_singleton, bytesOf_succ, ofBytes_concat, Nat.mul_add_div (by decide),
      Nat.mul_add_mod, Nat.div_eq_of_lt hb, Nat.mod_eq_of_lt hb, Nat.add_zero,
      ih fun b hmem => h b (List.mem_append_left _ hmem)]

theorem toNat_macOfBytes {bytes : List (BitVec 32)} (hlen : bytes.length ≤ 7) (hb : ∀ b ∈ bytes, b.toNat < 256) :
    (macOfBytes bytes).toNat = ofBytes (bytes.map (·.toNat)) ∧ (macOfBytes bytes).toNat < 256 ^ bytes.length := by
  induction bytes using List.reverseRecOn with
  | nil => exact ⟨rfl, by decide⟩
  | append_singleton bytes b ih =>
    have hshort : bytes.length ≤ 6 := by
      rw [List.length_append, List.length_singleton] at hlen
      exact Nat.le_of_succ_le_succ hlen
    have hlast : b.toNat < 256 := hb b (by simp)
    obtain ⟨heq, hlt⟩ := ih (by omega) fun b hmem => hb b (List.mem_append_left _ hmem)
    -- The bytes before the last one fit in 48 bits, so the shift loses none.
    have hpow : 256 ^ bytes.length ≤ 256 ^ 6 := Nat.pow_le_pow_right (by decide) hshort
    have hstep : (macOfBytes (bytes ++ [b])).toNat = 256 * (macOfBytes bytes).toNat + b.toNat := by
      rw [macOfBytes, List.foldl_concat]
      exact toNat_shift_or (by rw [macOfBytes] at hlt; omega) hlast
    refine ⟨?_, ?_⟩
    · rw [hstep, heq, List.map_append, List.map_singleton, ofBytes_concat]
    · rw [hstep, List.length_append, List.length_singleton, pow_succ]
      omega

theorem byte_eq (mac : BitVec 64) (k : Nat) :
    mac >>> (8 * k) &&& 0xff#64 = BitVec.ofNat 64 (mac.toNat / 256 ^ k % 256) := by
  apply BitVec.eq_of_toNat_eq
  rw [BitVec.toNat_and, show (0xff#64).toNat = 2 ^ 8 - 1 from rfl, Nat.and_two_pow_sub_one_eq_mod,
    BitVec.toNat_ushiftRight, Nat.shiftRight_eq_div_pow, pow_mul, BitVec.toNat_ofNat]
  exact (Nat.mod_eq_of_lt (Nat.lt_trans (Nat.mod_lt _ (by decide)) (by decide))).symm

theorem macGroups_eq (mac : BitVec 64) :
    macGroups mac = (bytesOf 6 mac.toNat).map fun b => formatHex 2 (BitVec.ofNat 64 b) := by
  have hshifts : [40, 32, 24, 16, 8, 0] = (List.range 6).reverse.map (8 * ·) := rfl
  rw [macGroups, hshifts, bytesOf, List.map_map, List.map_map]
  refine List.map_congr_left fun k _ => ?_
  rw [Function.comp_apply, Function.comp_apply, byte_eq]

theorem toNat_ofNat_byte {b : Nat} (h : b < 256) : (BitVec.ofNat 64 b).toNat = b :=
  Nat.mod_eq_of_lt (Nat.lt_trans h (by decide))

/-! ### MAC addresses -/

/-- Six groups of one or two digits, with single colons between them. -/
def IsMac (s : List UInt8) : Prop :=
  ∃ gs : List (List UInt8), gs.length = 6 ∧ (∀ g ∈ gs, IsGroup g) ∧ s = [58].intercalate gs

def ScansAsMac (lone : Bool) (s : List UInt8) : Prop := ∃ vs, vs.length = 6 ∧ Fields lone 58 s vs

variable {lone : Bool} {s : List UInt8} {gs : List (List UInt8)}

theorem macFormat_eq : macFormat = separated 58 5 := rfl

theorem macStrToUint64_of_fields {vs : List (BitVec 32)} (h : Fields lone 58 s vs) (hlen : vs.length = 6)
    (out : BitVec 64) : macStrToUint64 lone s out = (0, macOfBytes vs) := by
  rw [macStrToUint64, macFormat_eq, sscanf_of_fields h hlen]
  exact if_neg (not_not.mpr rfl)

theorem macStrToUint64_of_not_scans (h : ¬ScansAsMac lone s) (out : BitVec 64) :
    macStrToUint64 lone s out = (-1, out) := by
  rw [macStrToUint64, macFormat_eq]
  exact if_pos fun hcount => h (fields_of_sscanf hcount)

theorem fields_of_groups (hlen : gs.length = 6) (hgs : ∀ g ∈ gs, IsGroup g) :
    Fields lone 58 ([58].intercalate gs) (gs.map fun g => BitVec.ofNat 32 (value g)) := by
  refine fields_intercalate ⟨by decide, by decide⟩ ?_ hgs
  rintro rfl
  cases hlen

theorem IsMac.scans (h : IsMac s) (lone : Bool) : ScansAsMac lone s := by
  obtain ⟨gs, hlen, hgs, rfl⟩ := h
  exact ⟨_, by rw [List.length_map, hlen], fields_of_groups hlen hgs⟩

theorem macStrToUint64_of_groups (lone : Bool) (hlen : gs.length = 6) (hgs : ∀ g ∈ gs, IsGroup g) (out : BitVec 64) :
    ∃ mac, macStrToUint64 lone ([58].intercalate gs) out = (0, mac) ∧ mac.toNat = ofBytes (gs.map value) := by
  refine ⟨_, macStrToUint64_of_fields (fields_of_groups hlen hgs) (by rw [List.length_map, hlen]) out, ?_⟩
  have htoNat : ∀ g ∈ gs, (BitVec.ofNat 32 (value g)).toNat = value g := fun g hg => by
    rw [BitVec.toNat_ofNat, Nat.mod_eq_of_lt (Nat.lt_of_lt_of_le (value_lt_of_isGroup (hgs g hg)) (by decide))]
  rw [(toNat_macOfBytes (by rw [List.length_map, hlen]; decide) ?_).1, List.map_map]
  · exact congrArg ofBytes (List.map_congr_left htoNat)
  · intro b hb
    obtain ⟨g, hg, rfl⟩ := List.mem_map.mp hb
    rw [htoNat g hg]
    exact value_lt_of_isGroup (hgs g hg)

/-! ### Round trips -/

theorem IsMac.mem {c : UInt8} (h : IsMac s) (hc : c ∈ s) : c = 58 ∨ isHex c = true := by
  obtain ⟨gs, -, hgs, rfl⟩ := h
  rcases mem_intercalate hc with h | ⟨g, hg, hc⟩
  · exact .inl h
  · exact .inr ((hgs g hg).2.2 c hc)

theorem isGroup_of_mem_macGroups {mac : BitVec 64} {g : List UInt8} (h : g ∈ macGroups mac) : IsGroup g := by
  rw [macGroups_eq] at h
  obtain ⟨b, hb, rfl⟩ := List.mem_map.mp h
  refine isGroup_formatHex ?_
  rw [toNat_ofNat_byte (lt_of_mem_bytesOf hb)]
  exact lt_of_mem_bytesOf hb

theorem macGroups_value (mac : BitVec 64) : (macGroups mac).map value = bytesOf 6 mac.toNat := by
  rw [macGroups_eq, List.map_map]
  refine (List.map_congr_left fun b hb => ?_).trans (List.map_id _)
  have hlt := lt_of_mem_bytesOf hb
  rw [Function.comp_apply, value_formatHex (by rwa [toNat_ofNat_byte hlt]), toNat_ofNat_byte hlt, id_eq]

theorem macGroups_of_groups {mac : BitVec 64} (hlen : gs.length = 6) (hgs : ∀ g ∈ gs, IsGroup g)
    (hmac : mac.toNat = ofBytes (gs.map value)) : macGroups mac = gs.map padded := by
  have hbytes : bytesOf 6 mac.toNat = gs.map value := by
    rw [hmac, ← hlen, ← List.length_map (f := value)]
    refine bytesOf_ofBytes fun b hb => ?_
    obtain ⟨g, hg, rfl⟩ := List.mem_map.mp hb
    exact value_lt_of_isGroup (hgs g hg)
  rw [macGroups_eq, hbytes, List.map_map]
  refine List.map_congr_left fun g hg => ?_
  exact formatHex_value (hgs g hg) (toNat_ofNat_byte (value_lt_of_isGroup (hgs g hg)))

theorem length_macText (mac : BitVec 64) : (macText mac).length = 17 := by
  have hlen : ∀ k : Nat, (formatHex 2 (mac >>> k &&& 0xff#64)).length = 2 := fun k => by
    rw [formatHex_two (Nat.lt_of_le_of_lt Nat.and_le_right (by decide))]
    rfl
  simp only [macText, macGroups, List.map_cons, List.map_nil, List.intercalate_cons_cons, List.intercalate_singleton,
    List.length_append, List.length_singleton, hlen]

theorem zero_not_mem_macText (mac : BitVec 64) : 0 ∉ macText mac := by
  intro h
  have hmac : IsMac (macText mac) := ⟨macGroups mac, rfl, fun g => isGroup_of_mem_macGroups, rfl⟩
  rcases hmac.mem h with h | h
  · exact absurd h (by decide)
  · exact absurd h (by decide)

theorem cString_macUint64ToStr (mac : BitVec 64) (buf : List UInt8) {buflen : Nat} (h : 18 ≤ buflen) :
    cString (macUint64ToStr mac buf buflen) = macText mac := by
  have htake : (macText mac).take (buflen - 1) = macText mac :=
    List.take_of_length_le (by rw [length_macText]; omega)
  have hne : ∀ b ∈ macText mac, decide (b ≠ 0) = true := fun b hb =>
    decide_eq_true fun hzero => zero_not_mem_macText mac (hzero ▸ hb)
  rw [macUint64ToStr, if_neg (by omega), snprintf, if_neg (by omega), htake, cString]
  simp only [List.append_assoc]
  rw [List.takeWhile_append_of_pos hne]
  simp

/-- Reading a written address gives its lower 48 bits, and writing what was read of a MAC address gives its groups in two
    digits of lower case. -/
theorem mac_round_trips (lone : Bool) :
    (∀ (mac : BitVec 64) (buf : List UInt8) (buflen : Nat) (out : BitVec 64), 18 ≤ buflen →
      macStrToUint64 lone (cString (macUint64ToStr mac buf buflen)) out = (0, BitVec.ofNat 64 (mac.toNat % 2 ^ 48))) ∧
    (∀ gs : List (List UInt8), gs.length = 6 → (∀ g ∈ gs, IsGroup g) →
      ∀ (buf : List UInt8) (buflen : Nat) (out : BitVec 64), 18 ≤ buflen →
        (macStrToUint64 lone ([58].intercalate gs) out).1 = 0 ∧
        cString (macUint64ToStr (macStrToUint64 lone ([58].intercalate gs) out).2 buf buflen) =
          [58].intercalate (gs.map padded)) := by
  constructor
  · intro mac buf buflen out hlen
    have hgroups : (macGroups mac).length = 6 := rfl
    obtain ⟨mac', hread, hvalue⟩ := macStrToUint64_of_groups lone hgroups (fun g => isGroup_of_mem_macGroups) out
    rw [cString_macUint64ToStr mac buf hlen]
    refine hread.trans (congrArg (Prod.mk 0) (BitVec.eq_of_toNat_eq ?_))
    rw [hvalue, macGroups_value, ofBytes_bytesOf, BitVec.toNat_ofNat]
    omega
  · intro gs hlen hgs buf buflen out hbuf
    obtain ⟨mac, hread, hvalue⟩ := macStrToUint64_of_groups lone hlen hgs out
    rw [hread]
    refine ⟨rfl, ?_⟩
    rw [cString_macUint64ToStr mac buf hbuf, ← macGroups_of_groups hlen hgs hvalue]
    rfl

theorem mac_round_trips_buffer :
    macStrToUint64 false (cString (macUint64ToStr 0xff0c42a1a82de6 (List.replicate 18 0) 18)) 0 = (0, 0x0c42a1a82de6) ∧
    cString (macUint64ToStr (macStrToUint64 false ([58].intercalate [[48], [65], [51, 53], [54], [52, 68], [101, 50]]) 0).2
        (List.replicate 18 0) 18) =
      [58].intercalate [[48, 48], [48, 97], [51, 53], [48, 54], [52, 100], [101, 50]] :=
  ⟨(mac_round_trips false).1 _ _ 18 0 (Nat.le_refl 18),
    ((mac_round_trips false).2 _ rfl (by decide +kernel) _ 18 0 (Nat.le_refl 18)).2⟩

/-! ### What is accepted -/

/-- What `mac_str_to_uint64` and its caller should do with a text. -/
structure ReadsExactly (lone : Bool) (s : List UInt8) : Prop where
  accepts : IsMac s → ∀ out, (macStrToUint64 lone s out).1 = 0
  rejects : ¬IsMac s → ∀ out, macStrToUint64 lone s out = (-1, out)
  conn : ¬IsMac s → ∀ inetPton errno c protocol srcMacStr srcIpStr srcPort dstMacStr dstIpStr dstPort,
    srcMacStr = some s ∨ dstMacStr = some s →
    (connFromStringsMac lone inetPton errno c protocol srcMacStr srcIpStr srcPort dstMacStr dstIpStr dstPort) =
      ⟨-1, Errno.einval, c⟩

theorem connFromStringsMac_of_not_scans (h : ¬ScansAsMac lone s) {inetPton : List UInt8 → Option (BitVec 32)}
    {errno : Int} {c : Option ConnectionInfo} {protocol : BitVec 8} {srcPort dstPort : BitVec 16}
    {srcMacStr srcIpStr dstMacStr dstIpStr : Option (List UInt8)} (hs : srcMacStr = some s ∨ dstMacStr = some s) :
    connFromStringsMac lone inetPton errno c protocol srcMacStr srcIpStr srcPort dstMacStr dstIpStr dstPort =
      ⟨-1, Errno.einval, c⟩ := by
  have hmac := macStrToUint64_of_not_scans h 0#64
  unfold connFromStringsMac
  split
  · split
    · rcases hs with hs | hs
      · obtain rfl := Option.some.inj hs
        simp [hmac]
      · obtain rfl := Option.some.inj hs
        simp [hmac]
    · rfl
  · rfl

/-- A text is read as it should be, unless it is no MAC address and `sscanf` finds six fields in it. -/
theorem readsExactly_iff (lone : Bool) (s : List UInt8) :
    ReadsExactly lone s ↔ IsMac s ∨ ¬ScansAsMac lone s := by
  constructor
  · intro h
    by_cases hmac : IsMac s
    · exact .inl hmac
    · refine .inr fun ⟨vs, hlen, hfields⟩ => ?_
      have hrejects := h.rejects hmac 0#64
      rw [macStrToUint64_of_fields hfields hlen] at hrejects
      cases hrejects
  · intro h
    refine ⟨fun hmac out => ?_, fun hmac out => ?_, ?_⟩
    · obtain ⟨vs, hlen, hfields⟩ := hmac.scans lone
      rw [macStrToUint64_of_fields hfields hlen]
    · exact macStrToUint64_of_not_scans (h.resolve_left hmac) out
    · intro hmac _ _ _ _ _ _ _ _ _ _ hs
      exact connFromStringsMac_of_not_scans (h.resolve_left hmac) hs

def trailingText : List UInt8 := [48, 48, 58, 48, 97, 58, 51, 53, 58, 48, 54, 58, 52, 100, 58, 101, 50, 122, 122]

def signAndBlank : List UInt8 := [45, 49, 58, 48, 97, 58, 51, 53, 58, 48, 54, 58, 52, 100, 58, 32, 101, 50]

theorem macStrToUint64_reads_more :
    ¬IsMac trailingText ∧ (∀ lone, macStrToUint64 lone trailingText 0 = (0, 0x000a35064de2)) ∧
    ¬IsMac signAndBlank ∧ (∀ lone, macStrToUint64 lone signAndBlank 0 = (0, 0xff0a35064de2)) := by
  refine ⟨fun h => ?_, fun lone => ?_, fun h => ?_, fun lone => ?_⟩
  · exact absurd (h.mem (c := 122) (by decide)) (by decide)
  · cases lone <;> decide
  · exact absurd (h.mem (c := 45) (by decide)) (by decide)
  · cases lone <;> decide

end FireMarshal.Mac
