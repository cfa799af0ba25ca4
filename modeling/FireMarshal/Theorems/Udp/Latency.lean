import FireMarshal.Theorems.Udp.Loopback
import FireMarshal.Udp.Latency

/-! What the latency clients send. A client copies its packet with one `memcpy` to the TX tail, which after `k` packets is
    at `k` times their size modulo that of the ring. So if their size does not divide that of the ring, a packet goes
    around its end once as many as fit have been sent. -/

namespace FireMarshal.Udp

/-! ### The device does not move the TX tail -/

theorem Row.move_tx (s : Row) (d : DevMove) : (s.move d).txTail = s.txTail ∧ (s.move d).txSize = s.txSize := by
  cases d with
  | send k =>
    simp only [move]
    split <;> exact ⟨rfl, rfl⟩
  | deliver k =>
    simp only [move]
    split <;> exact ⟨rfl, rfl⟩

theorem Row.moves_tx (s : Row) (ms : List DevMove) : (s.moves ms).txTail = s.txTail ∧ (s.moves ms).txSize = s.txSize := by
  induction ms generalizing s with
  | nil => exact ⟨rfl, rfl⟩
  | cons d ms ih =>
    obtain ⟨htail, hsize⟩ := ih (s.move d)
    exact ⟨htail.trans (s.move_tx d).1, hsize.trans (s.move_tx d).2⟩

@[simp] theorem Row.moves_txTail (s : Row) (ms : List DevMove) : (s.moves ms).txTail = s.txTail := (s.moves_tx ms).1

@[simp] theorem Row.moves_txSize (s : Row) (ms : List DevMove) : (s.moves ms).txSize = s.txSize := (s.moves_tx ms).2

@[simp] theorem pollRx_txTail (row : Row) (target : BitVec 32) (polls : List (List DevMove)) :
    (pollRx row target polls).1.txTail = row.txTail := by
  induction polls generalizing row with
  | nil => rfl
  | cons ms polls ih =>
    simp only [pollRx]
    split
    · rw [ih, Row.moves_txTail]
    · exact row.moves_txTail ms

@[simp] theorem pollRx_txSize (row : Row) (target : BitVec 32) (polls : List (List DevMove)) :
    (pollRx row target polls).1.txSize = row.txSize := by
  induction polls generalizing row with
  | nil => rfl
  | cons ms polls ih =>
    simp only [pollRx]
    split
    · rw [ih, Row.moves_txSize]
    · exact row.moves_txSize ms

namespace Client

variable {s t : Client} {payload : Nat → UInt8} {payloadSize : BitVec 32}

/-! ### An iteration -/

structure Transmits (payload : Nat → UInt8) (payloadSize : BitVec 32) (s t : Client) : Prop where
  tail : t.row.txTail = (s.row.txTail + payloadSize) % s.row.txSize
  size : t.row.txSize = s.row.txSize
  written : t.written = s.written ++ List.range' s.row.txTail.toNat payloadSize.toNat
  frames : t.frames = s.frames ++ [frame s.row.txSize.toNat
    (Ring.copy s.txBuffer s.row.txTail.toNat payload 0 payloadSize.toNat) s.row.txTail.toNat payloadSize.toNat]

theorem transmits_iterate (s : Client) (payload : Nat → UInt8) (payloadSize : BitVec 32) (it : Iteration) :
    Transmits payload payloadSize s (s.iterate payload payloadSize it) := by
  cases it with
  | block env => constructor <;> simp [iterate, testUdpLatencyBlock, transmit]
  | poll env => constructor <;> simp [iterate, testUdpLatencyPoll, transmit]

/-- The packets are the payload, and nothing behind the ring is written. -/
structure Good (payload : Nat → UInt8) (payloadSize : BitVec 32) (s : Client) : Prop where
  frames : ∀ f ∈ s.frames, f = (List.range payloadSize.toNat).map payload
  bounds : ∀ x ∈ s.written, x < s.row.txSize.toNat

theorem frame_copy {n tail k : Nat} {mem : Nat → UInt8} (h : tail + k ≤ n) :
    frame n (Ring.copy mem tail payload 0 k) tail k = (List.range k).map payload := by
  refine List.map_congr_left fun i hi => ?_
  have hi := List.mem_range.mp hi
  rw [Nat.mod_eq_of_lt (by omega), Ring.copy_add hi, Nat.zero_add]

theorem good_iff_of_transmits (h : Transmits payload payloadSize s t) (hpos : 0 < payloadSize.toNat) :
    t.Good payload payloadSize ↔
      s.Good payload payloadSize ∧ s.row.txTail.toNat + payloadSize.toNat ≤ s.row.txSize.toNat := by
  constructor
  · intro hgood
    have hbounds := hgood.bounds
    rw [h.size, h.written] at hbounds
    refine ⟨⟨fun f hf => hgood.frames f ?_, fun x hx => hbounds x (List.mem_append_left _ hx)⟩, ?_⟩
    · rw [h.frames]
      exact List.mem_append_left _ hf
    · have hlast := hbounds (s.row.txTail.toNat + payloadSize.toNat - 1)
        (List.mem_append_right _ (List.mem_range'_1.mpr (by omega)))
      omega
  · rintro ⟨hgood, hfits⟩
    constructor
    · intro f hf
      rw [h.frames] at hf
      rcases List.mem_append.mp hf with hf | hf
      · exact hgood.frames f hf
      · rw [List.mem_singleton.mp hf]
        exact frame_copy hfits
    · intro x hx
      rw [h.written] at hx
      rw [h.size]
      rcases List.mem_append.mp hx with hx | hx
      · exact hgood.bounds x hx
      · have hx := List.mem_range'_1.mp hx
        omega

/-! ### Runs -/

theorem toNat_tail (h : Transmits payload payloadSize s t) (hmax : s.row.txSize.toNat ≤ 2 ^ 31)
    (htail : s.row.txTail.toNat < s.row.txSize.toNat) (hsize : payloadSize.toNat < s.row.txSize.toNat) :
    t.row.txTail.toNat = (s.row.txTail.toNat + payloadSize.toNat) % s.row.txSize.toNat := by
  rw [h.tail, BitVec.toNat_umod, BitVec.toNat_add, Nat.mod_eq_of_lt (by omega : _ < 2 ^ 32)]

theorem good_run_iff (its : List Iteration) (k : Nat) (hmax : s.row.txSize.toNat ≤ 2 ^ 31)
    (htail : s.row.txTail.toNat = k * payloadSize.toNat % s.row.txSize.toNat) (hpos : 0 < payloadSize.toNat)
    (hsize : payloadSize.toNat < s.row.txSize.toNat) :
    (its.foldl (iterate payload payloadSize) s).Good payload payloadSize ↔ s.Good payload payloadSize ∧
      ∀ j < its.length, (k + j) * payloadSize.toNat % s.row.txSize.toNat + payloadSize.toNat ≤ s.row.txSize.toNat := by
  induction its generalizing s k with
  | nil => exact ⟨fun h => ⟨h, by simp⟩, fun h => h.1⟩
  | cons it its ih =>
    have htrans := transmits_iterate s payload payloadSize it
    have hlt : s.row.txTail.toNat < s.row.txSize.toNat := by
      rw [htail]
      exact Nat.mod_lt _ (by omega)
    have hnext : (s.iterate payload payloadSize it).row.txTail.toNat =
        (k + 1) * payloadSize.toNat % (s.iterate payload payloadSize it).row.txSize.toNat := by
      rw [toNat_tail htrans hmax hlt hsize, htrans.size, htail, Nat.mod_add_mod, Nat.add_one_mul]
    rw [List.foldl_cons, ih (k + 1) (by rw [htrans.size]; exact hmax) hnext (by rw [htrans.size]; exact hsize),
      htrans.size, good_iff_of_transmits htrans hpos, htail, and_assoc, List.length_cons]
    refine and_congr_right fun _ => ?_
    constructor
    · rintro ⟨h0, h⟩ j hj
      cases j with
      | zero => exact h0
      | succ j =>
        rw [Nat.add_comm j, ← Nat.add_assoc]
        exact h j (by omega)
    · intro h
      refine ⟨h 0 (by omega), fun j hj => ?_⟩
      rw [Nat.add_assoc, Nat.add_comm 1]
      exact h (j + 1) (by omega)

end Client

theorem fits_iff {n p count : Nat} (hp : 0 < p) (hlt : p < n) :
    (∀ j < count, j * p % n + p ≤ n) ↔ p ∣ n ∨ count ≤ n / p := by
  constructor
  · intro h
    rcases Nat.lt_or_ge (n / p) count with hcount | hle
    · -- The first packet that does not fit as a whole.
      left
      have hfit := h (n / p) hcount
      have hdiv := Nat.div_add_mod' n p
      rw [Nat.dvd_iff_mod_eq_zero]
      by_contra hmod
      rw [Nat.mod_eq_of_lt (by omega)] at hfit
      have hrest := Nat.mod_lt n hp
      omega
    · exact .inr hle
  · rintro (⟨q, rfl⟩ | hle) j hj
    · rw [Nat.mul_comm j, Nat.mul_mod_mul_left]
      have hq : 0 < q := Nat.pos_of_ne_zero (by rintro rfl; omega)
      calc p * (j % q) + p = p * (j % q + 1) := (Nat.mul_succ _ _).symm
        _ ≤ p * q := Nat.mul_le_mul_left p (Nat.mod_lt j hq)
    · have hmul : (j + 1) * p ≤ n := (Nat.le_div_iff_mul_le hp).mp (by omega)
      rw [Nat.add_one_mul] at hmul
      rw [Nat.mod_eq_of_lt (by omega)]
      exact hmul

theorem latency_good_iff (row : Row) (hmax : row.txSize.toNat ≤ 2 ^ 31) (htail : row.txTail = 0) (txBuffer : Nat → UInt8)
    (payload : Nat → UInt8) (payloadSize : BitVec 32) (hpos : 0 < payloadSize.toNat)
    (hsize : payloadSize.toNat < row.txSize.toNat) (its : List Iteration) :
    (its.foldl (Client.iterate payload payloadSize) { row, txBuffer }).Good payload payloadSize ↔
      payloadSize.toNat ∣ row.txSize.toNat ∨ its.length ≤ row.txSize.toNat / payloadSize.toNat := by
  have hzero : row.txTail.toNat = 0 * payloadSize.toNat % row.txSize.toNat := by
    rw [htail, Nat.zero_mul, Nat.zero_mod]
    rfl
  rw [Client.good_run_iff (s := { row, txBuffer }) its 0 hmax hzero hpos hsize, ← fits_iff hpos hsize]
  simp only [Nat.zero_add]
  exact and_iff_right ⟨by simp, by simp⟩

theorem latency_good_default :
    ((List.replicate 128 (.block { before := 0, after := 1 })).foldl (Client.iterate mainPayload 1024)
      { row := openedRow, txBuffer := fun _ => 0 }).Good mainPayload 1024 :=
  (latency_good_iff openedRow (by decide) rfl _ mainPayload 1024 (by decide) (by decide) _).mpr (.inl (by decide))

def straddling : Client :=
  [.block { before := 0, after := 1 }, .block { before := 1, after := 2 }].foldl (Client.iterate mainPayload 4160)
    { row := openedRow, txBuffer := fun _ => 0 }

/-- Byte 4032 of the second packet is sent from position 0, where the first byte of the first packet still is, and byte
    8192 of the buffer is written. -/
theorem latency_straddles :
    (straddling.frames.getLast?.bind (·[4032]?)) = some 0 ∧ mainPayload 4032 = 192 ∧ 8192 ∈ straddling.written ∧
      ¬straddling.Good mainPayload 4160 := by
  have hwritten : 8192 ∈ straddling.written := by
    refine List.mem_append_right _ ?_
    exact List.mem_range'_1.mpr (by decide)
  exact ⟨by decide +kernel, by decide, hwritten, fun h => absurd (h.bounds 8192 hwritten) (by decide)⟩

end FireMarshal.Udp
