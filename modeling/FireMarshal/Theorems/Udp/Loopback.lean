import FireMarshal.Lib.Run
import FireMarshal.Udp.Exp

/-! The rings in the loopback test: whatever the device does between two accesses, `try_fill_tx` adds to the TX ring as
    many bytes as it returns and never fills it, and `drain_rx` returns as many bytes as it takes out of the RX ring. -/

namespace FireMarshal.Udp

/-- The sizes of the rings are at least 2 and fit an `int`, but for the largest, and the positions are below them. -/
structure Row.Valid (s : Row) : Prop where
  txSize : 2 ≤ s.txSize.toNat ∧ s.txSize.toNat ≤ 2 ^ 31
  rxSize : 2 ≤ s.rxSize.toNat ∧ s.rxSize.toNat ≤ 2 ^ 31
  txHead : s.txHead.toNat < s.txSize.toNat
  txTail : s.txTail.toNat < s.txSize.toNat
  rxHead : s.rxHead.toNat < s.rxSize.toNat
  rxTail : s.rxTail.toNat < s.rxSize.toNat

theorem toNat_ofNat_mod {n : BitVec 32} (a : Nat) (hn : 0 < n.toNat) :
    (BitVec.ofNat 32 (a % n.toNat)).toNat = a % n.toNat := by
  have hlt := n.isLt
  have hmod := Nat.mod_lt a hn
  rw [BitVec.toNat_ofNat, Nat.mod_eq_of_lt (by omega)]

/-! ### The device -/

structure Moved (s t : Row) (k j : Nat) : Prop where
  txTail : t.txTail = s.txTail
  txSize : t.txSize = s.txSize
  rxHead : t.rxHead = s.rxHead
  rxSize : t.rxSize = s.rxSize
  sent : t.sent = s.sent + k
  delivered : t.delivered = s.delivered + j
  txQueued : t.txQueued + k = s.txQueued
  rxQueued : t.rxQueued = s.rxQueued + j
  rxTail : t.rxTail.toNat = (s.rxTail.toNat + j) % s.rxSize.toNat
  valid : t.Valid

namespace Moved

variable {s t u : Row} {k j k' j' : Nat}

theorem refl (h : s.Valid) : Moved s s 0 0 :=
  ⟨rfl, rfl, rfl, rfl, rfl, rfl, rfl, rfl, (Nat.mod_eq_of_lt h.rxTail).symm, h⟩

theorem trans (h₁ : Moved s t k j) (h₂ : Moved t u k' j') : Moved s u (k + k') (j + j') where
  txTail := h₂.txTail.trans h₁.txTail
  txSize := h₂.txSize.trans h₁.txSize
  rxHead := h₂.rxHead.trans h₁.rxHead
  rxSize := h₂.rxSize.trans h₁.rxSize
  sent := by rw [h₂.sent, h₁.sent, Nat.add_assoc]
  delivered := by rw [h₂.delivered, h₁.delivered, Nat.add_assoc]
  txQueued := by rw [← h₁.txQueued, ← h₂.txQueued, Nat.add_assoc, Nat.add_comm k]
  rxQueued := by rw [h₂.rxQueued, h₁.rxQueued, Nat.add_assoc]
  rxTail := by rw [h₂.rxTail, h₁.rxTail, h₁.rxSize, Nat.mod_add_mod, Nat.add_assoc]
  valid := h₂.valid

theorem count_rxTail (hs : s.Valid) (h : Moved s t k j) :
    Ring.count s.rxSize.toNat t.rxTail.toNat s.rxTail.toNat = j := by
  have hlt : t.rxQueued < t.rxSize.toNat := Ring.count_lt h.valid.rxTail
  rw [h.rxQueued, h.rxSize] at hlt
  rw [h.rxTail, Ring.count_advance hs.rxTail (by omega)]

end Moved

namespace Row

variable {s : Row}

theorem exists_moved_move (h : s.Valid) (d : DevMove) : ∃ k j, Moved s (s.move d) k j := by
  have htx : 0 < s.txSize.toNat := by have := h.txHead; omega
  have hrx : 0 < s.rxSize.toNat := by have := h.rxHead; omega
  cases d with
  | send k =>
    simp only [move]
    split
    · next hk =>
      have hhead := toNat_ofNat_mod (s.txHead.toNat + k) htx
      refine ⟨k, 0, rfl, rfl, rfl, rfl, rfl, rfl, ?_, rfl, (Nat.mod_eq_of_lt h.rxTail).symm, { h with txHead := ?_ }⟩
      · simp only [txQueued, hhead]
        exact Ring.count_add_tail h.txTail h.txHead hk
      · rw [hhead]
        exact Nat.mod_lt _ htx
    · exact ⟨0, 0, Moved.refl h⟩
  | deliver j =>
    simp only [move]
    split
    · next hj =>
      have htail := toNat_ofNat_mod (s.rxTail.toNat + j) hrx
      refine ⟨0, j, rfl, rfl, rfl, rfl, rfl, rfl, rfl, ?_, htail, { h with rxTail := ?_ }⟩
      · simp only [rxQueued, htail]
        exact Ring.count_add_head h.rxHead hj
      · rw [htail]
        exact Nat.mod_lt _ hrx
    · exact ⟨0, 0, Moved.refl h⟩

theorem exists_moved (h : s.Valid) (ms : List DevMove) : ∃ k j, Moved s (s.moves ms) k j := by
  induction ms generalizing s with
  | nil => exact ⟨0, 0, Moved.refl h⟩
  | cons d ms ih =>
    obtain ⟨k, j, h₁⟩ := exists_moved_move h d
    obtain ⟨k', j', h₂⟩ := ih h₁.valid
    exact ⟨k + k', j + j', h₁.trans h₂⟩

end Row

/-! ### `try_fill_tx` -/

theorem toNat_ringFreeBytes {head tail size : BitVec 32} (hsize : size.toNat ≤ 2 ^ 31)
    (hhead : head.toNat < size.toNat) (htail : tail.toNat < size.toNat) :
    (ringFreeBytes head tail size).toNat = size.toNat - 1 - Ring.count size.toNat tail.toNat head.toNat := by
  unfold ringFreeBytes
  split
  · next hle =>
    have hle : head.toNat ≤ tail.toNat := hle
    rw [Ring.count_of_le htail hle, BitVec.toNat_sub, BitVec.toNat_sub, BitVec.toNat_sub, BitVec.toNat_ofNat]
    omega
  · next hlt =>
    have hlt : tail.toNat < head.toNat := by simpa [BitVec.le_def] using hlt
    rw [Ring.count_of_lt hhead hlt, BitVec.toNat_sub, BitVec.toNat_sub, BitVec.toNat_ofNat]
    omega

structure IsQuota (txHead txTail txSize chunkBytes : BitVec 32) (needBytes : BitVec 64) (q : Nat) : Prop where
  dvd : chunkBytes.toNat ∣ q
  need : q ≤ needBytes.toNat
  half : q ≤ txSize.toNat / 2
  free : Ring.count txSize.toNat txTail.toNat txHead.toNat + q < txSize.toNat

theorem toNat_ite_gt (a b : BitVec 32) : (if a > b then b else a).toNat = min a.toNat b.toNat := by
  split
  · next h =>
    have h : b.toNat < a.toNat := h
    omega
  · next h =>
    have h : ¬b.toNat < a.toNat := h
    omega

theorem toNat_ite_need (a : BitVec 32) (b : BitVec 64) :
    (if a.setWidth 64 > b then b.setWidth 32 else a).toNat = min a.toNat b.toNat := by
  have ha : (a.setWidth 64).toNat = a.toNat := by
    rw [BitVec.toNat_setWidth, Nat.mod_eq_of_lt (by omega)]
  have hlt := a.isLt
  split
  · next h =>
    have h : b.toNat < (a.setWidth 64).toNat := h
    rw [BitVec.toNat_setWidth]
    omega
  · next h =>
    have h : ¬b.toNat < (a.setWidth 64).toNat := h
    omega

theorem isQuota_fillQuota {txHead txTail txSize : BitVec 32} (chunkBytes : BitVec 32) (needBytes : BitVec 64)
    (hsize : txSize.toNat ≤ 2 ^ 31) (hhead : txHead.toNat < txSize.toNat) (htail : txTail.toNat < txSize.toNat) :
    IsQuota txHead txTail txSize chunkBytes needBytes
      (fillQuota txHead txTail txSize chunkBytes needBytes).toNat := by
  have hcount : Ring.count txSize.toNat txTail.toNat txHead.toNat < txSize.toNat := Ring.count_lt htail
  have hfree := toNat_ringFreeBytes hsize hhead htail
  have hhalf : (txSize / 2#32).toNat = txSize.toNat / 2 := by rw [BitVec.toNat_udiv, BitVec.toNat_ofNat]
  -- The whole quota, before it is cut to whole chunks.
  obtain ⟨q, hq⟩ : ∃ q, (if (if txSize / 2#32 > ringFreeBytes txHead txTail txSize then
      ringFreeBytes txHead txTail txSize else txSize / 2#32).setWidth 64 > needBytes then needBytes.setWidth 32
      else (if txSize / 2#32 > ringFreeBytes txHead txTail txSize then
        ringFreeBytes txHead txTail txSize else txSize / 2#32)) = q := ⟨_, rfl⟩
  have hmin : q.toNat = min (min (txSize.toNat / 2) (ringFreeBytes txHead txTail txSize).toNat) needBytes.toNat := by
    rw [← hq, toNat_ite_need, toNat_ite_gt, hhalf]
  have hquota : (fillQuota txHead txTail txSize chunkBytes needBytes).toNat = q.toNat - q.toNat % chunkBytes.toNat := by
    have hle := Nat.mod_le q.toNat chunkBytes.toNat
    have hlt := q.isLt
    show ((_ : BitVec 32) - _).toNat = _
    rw [hq, BitVec.toNat_sub, BitVec.toNat_umod]
    omega
  rw [hquota]
  exact ⟨Nat.dvd_sub_mod _, by omega, by omega, by omega⟩

theorem fillLoop_eq {txSize chunkBytes quota : BitVec 32} (hsize : txSize.toNat ≤ 2 ^ 31)
    (hquota : quota.toNat ≤ txSize.toNat / 2) (hpos : 0 < chunkBytes.toNat) (k fuel : Nat) (txTail sent : BitVec 32)
    (hfuel : k ≤ fuel) (htail : txTail.toNat < txSize.toNat) (hsent : sent.toNat + k * chunkBytes.toNat = quota.toNat) :
    fillLoop txSize chunkBytes quota fuel txTail sent =
      (BitVec.ofNat 32 ((txTail.toNat + k * chunkBytes.toNat) % txSize.toNat), quota) := by
  induction k generalizing fuel txTail sent with
  | zero =>
    have hdone : sent = quota := BitVec.eq_of_toNat_eq (by omega)
    have hmod : BitVec.ofNat 32 ((txTail.toNat + 0 * chunkBytes.toNat) % txSize.toNat) = txTail := by
      rw [Nat.zero_mul, Nat.add_zero, Nat.mod_eq_of_lt htail, BitVec.ofNat_toNat, BitVec.setWidth_eq]
    rw [hmod, hdone]
    cases fuel with
    | zero => rfl
    | succ fuel => rw [fillLoop, if_neg (by simp)]
  | succ k ih =>
    obtain ⟨fuel, rfl⟩ : ∃ f, fuel = f + 1 := ⟨fuel - 1, by omega⟩
    rw [Nat.add_one_mul] at hsent
    have hlt : sent < quota := by
      rw [BitVec.lt_def]
      omega
    have hchunk : (sent + chunkBytes).toNat = sent.toNat + chunkBytes.toNat := by
      rw [BitVec.toNat_add]
      omega
    have hnext : ((txTail + chunkBytes) % txSize).toNat = (txTail.toNat + chunkBytes.toNat) % txSize.toNat := by
      rw [BitVec.toNat_umod, BitVec.toNat_add,
        Nat.mod_eq_of_lt (by omega : txTail.toNat + chunkBytes.toNat < 2 ^ 32)]
    rw [fillLoop, if_pos hlt, ih fuel _ _ (by omega) (by rw [hnext]; exact Nat.mod_lt _ (by omega))
      (by rw [hchunk]; omega), hnext, Nat.mod_add_mod, Nat.add_one_mul, Nat.add_assoc, Nat.add_comm chunkBytes.toNat]

def Row.txTailAfter (s : Row) (r : Nat) : BitVec 32 := BitVec.ofNat 32 ((s.txTail.toNat + r) % s.txSize.toNat)

theorem Row.txTailAfter_zero {s : Row} (h : s.Valid) : s.txTailAfter 0 = s.txTail := by
  rw [txTailAfter, Nat.add_zero, Nat.mod_eq_of_lt h.txTail, BitVec.ofNat_toNat, BitVec.setWidth_eq]

theorem Moved.txTailAfter {s t : Row} {k j : Nat} (h : Moved s t k j) (r : Nat) : t.txTailAfter r = s.txTailAfter r := by
  rw [Row.txTailAfter, Row.txTailAfter, h.txTail, h.txSize]

theorem tryFillTx_spec {s : Row} (h : s.Valid) {chunkBytes : BitVec 32} (pos : 0 < chunkBytes)
    (needBytes : BitVec 64) (m : Moves) : ∃ t k j, Moved s t k j ∧ t.txQueued ≤ (s.moves m.head).txQueued ∧
      (tryFillTx s chunkBytes needBytes m).2 =
        { t with txTail := t.txTailAfter (tryFillTx s chunkBytes needBytes m).1.toNat } ∧
      IsQuota (s.moves m.head).txHead s.txTail s.txSize chunkBytes needBytes
        (tryFillTx s chunkBytes needBytes m).1.toNat := by
  obtain ⟨k₁, j₁, h₁⟩ := Row.exists_moved h m.head
  obtain ⟨k₂, j₂, h₂⟩ := Row.exists_moved h₁.valid m.tail
  obtain ⟨k₃, j₃, h₃⟩ := Row.exists_moved h₂.valid m.size
  obtain ⟨k₄, j₄, h₄⟩ := Row.exists_moved h₃.valid m.write
  have h₁₃ := (h₁.trans h₂).trans h₃
  have hhead : (s.moves m.head).txHead.toNat < s.txSize.toNat := by
    rw [← h₁.txSize]
    exact h₁.valid.txHead
  have hquota := isQuota_fillQuota chunkBytes needBytes h.txSize.2 hhead h.txTail
  unfold tryFillTx
  simp only [(h₁.trans h₂).txTail, h₁₃.txSize]
  generalize fillQuota (s.moves m.head).txHead s.txTail s.txSize chunkBytes needBytes = quota at hquota ⊢
  by_cases hzero : quota = 0#32
  · subst hzero
    have hqueued := (h₂.trans h₃).txQueued
    rw [if_pos rfl]
    refine ⟨_, _, _, h₁₃, by omega, ?_, hquota⟩
    generalize ((s.moves m.head).moves m.tail).moves m.size = u at h₁₃
    show u = { u with txTail := u.txTailAfter 0 }
    rw [Row.txTailAfter_zero h₁₃.valid]
  · have hpos : 0 < chunkBytes.toNat := pos
    have hrounds : (0#32).toNat + quota.toNat / chunkBytes.toNat * chunkBytes.toNat = quota.toNat := by
      rw [BitVec.toNat_ofNat, Nat.zero_mod, Nat.zero_add, Nat.div_mul_cancel hquota.dvd]
    have hloop := fillLoop_eq h.txSize.2 hquota.half hpos _ quota.toNat s.txTail 0#32 (Nat.div_le_self _ _) h.txTail
      hrounds
    rw [Nat.div_mul_cancel hquota.dvd] at hloop
    have hqueued := ((h₂.trans h₃).trans h₄).txQueued
    have hall := h₁₃.trans h₄
    rw [if_neg hzero]
    simp only [hloop]
    refine ⟨_, _, _, hall, by omega, ?_, hquota⟩
    rw [hall.txTailAfter]
    rfl

theorem Row.valid_advance {s : Row} (h : s.Valid) {r : Nat} (hfree : s.txQueued + r < s.txSize.toNat) :
    { s with txTail := s.txTailAfter r }.Valid ∧ { s with txTail := s.txTailAfter r }.txQueued = s.txQueued + r := by
  have hpos : 0 < s.txSize.toNat := by omega
  have htail := toNat_ofNat_mod (s.txTail.toNat + r) hpos
  constructor
  · refine { h with txTail := ?_ }
    rw [txTailAfter, htail]
    exact Nat.mod_lt _ hpos
  · rw [txQueued, txTailAfter, htail]
    exact Ring.count_add_head h.txHead hfree

theorem IsQuota.fits {s seen t : Row} {k j k' j' r : Nat} {chunkBytes : BitVec 32} {needBytes : BitVec 64}
    (h : IsQuota seen.txHead s.txTail s.txSize chunkBytes needBytes r) (hseen : Moved s seen k j)
    (hmoved : Moved s t k' j') (hle : t.txQueued ≤ seen.txQueued) :
    seen.txQueued + r < s.txSize.toNat ∧ t.txQueued + r < t.txSize.toNat := by
  have hqueued : seen.txQueued = Ring.count s.txSize.toNat s.txTail.toNat seen.txHead.toNat := by
    rw [Row.txQueued, hseen.txTail, hseen.txSize]
  have hfree := h.free
  rw [hmoved.txSize]
  omega

/-- A call of `try_fill_tx` returns whole chunks, no more than is needed, than half of the ring and than the space that
    is free when it reads the head. The tail is advanced by as much, and the ring holds that many bytes more, but for
    the `k` that the device has sent. -/
structure Fills (s : Row) (chunkBytes : BitVec 32) (needBytes : BitVec 64) (r : Nat) (seen t : Row) : Prop where
  dvd : chunkBytes.toNat ∣ r
  need : r ≤ needBytes.toNat
  half : r ≤ s.txSize.toNat / 2
  free : r ≤ s.txSize.toNat - 1 - seen.txQueued
  tail : t.txTail.toNat = (s.txTail.toNat + r) % s.txSize.toNat
  queued : ∃ k, t.sent = s.sent + k ∧ t.txQueued + k = s.txQueued + r

theorem fills_tryFillTx {s : Row} (h : s.Valid) {chunkBytes : BitVec 32} (pos : 0 < chunkBytes) (needBytes : BitVec 64)
    (m : Moves) : Fills s chunkBytes needBytes (tryFillTx s chunkBytes needBytes m).1.toNat (s.moves m.head)
      (tryFillTx s chunkBytes needBytes m).2 := by
  obtain ⟨t, k, j, hmoved, hle, heq, hquota⟩ := tryFillTx_spec h pos needBytes m
  obtain ⟨k₁, j₁, hseen⟩ := Row.exists_moved h m.head
  obtain ⟨hfree, hfits⟩ := hquota.fits hseen hmoved hle
  generalize (tryFillTx s chunkBytes needBytes m).1.toNat = r at *
  rw [heq]
  refine ⟨hquota.dvd, hquota.need, hquota.half, by omega, ?_, k, hmoved.sent, ?_⟩
  · show (t.txTailAfter r).toNat = _
    rw [hmoved.txTailAfter]
    exact toNat_ofNat_mod _ (by omega)
  · rw [(Row.valid_advance hmoved.valid hfits).2, ← hmoved.txQueued, Nat.add_right_comm]

/-! ### `drain_rx` -/

theorem toNat_drainAvail {rxHead rxTail rxSize : BitVec 32} (hsize : rxSize.toNat ≤ 2 ^ 31)
    (hhead : rxHead.toNat < rxSize.toNat) (htail : rxTail.toNat < rxSize.toNat) :
    (drainAvail rxHead rxTail rxSize).toNat = Ring.count rxSize.toNat rxTail.toNat rxHead.toNat := by
  unfold drainAvail
  split
  · next hle =>
    have hle : rxHead.toNat ≤ rxTail.toNat := hle
    rw [Ring.count_of_le htail hle, BitVec.toNat_sub]
    omega
  · next hlt =>
    have hlt : rxTail.toNat < rxHead.toNat := by simpa [BitVec.le_def] using hlt
    rw [Ring.count_of_lt hhead hlt, BitVec.toNat_sub, BitVec.toNat_sub]
    omega

theorem drainRx_spec {s : Row} (h : s.Valid) (m : Moves) : ∃ t k j rxHead, Moved s t k j ∧
    (drainRx s m).2 = { t with rxHead } ∧ (drainRx s m).2.Valid ∧
      (drainRx s m).1.toNat + (drainRx s m).2.rxQueued = t.rxQueued := by
  obtain ⟨k₁, j₁, h₁⟩ := Row.exists_moved h m.head
  obtain ⟨k₂, j₂, h₂⟩ := Row.exists_moved h₁.valid m.tail
  obtain ⟨k₃, j₃, h₃⟩ := Row.exists_moved h₂.valid m.size
  obtain ⟨k₄, j₄, h₄⟩ := Row.exists_moved h₃.valid m.write
  have h₁₂ := h₁.trans h₂
  have h₁₃ := h₁₂.trans h₃
  have havail := toNat_drainAvail (h₂.valid.rxSize.2) h₂.valid.rxHead h₂.valid.rxTail
  unfold drainRx
  simp only [h₁.rxHead, h₁₃.rxSize]
  rw [h₁₂.rxHead, h₁₂.rxSize] at havail
  split
  · have h₃₄ := h₃.trans h₄
    refine ⟨_, _, _, _, h₁₃.trans h₄, rfl, { h₄.valid with rxHead := ?_ }, ?_⟩
    · rw [h₃₄.rxSize]
      exact h₂.valid.rxTail
    · have hcount := h₃₄.count_rxTail h₂.valid
      show (drainAvail _ _ _).toNat + Ring.count _ _ _ = _
      rw [havail, h₃₄.rxSize, hcount, h₃₄.rxQueued, Row.rxQueued, h₁₂.rxHead, h₁₂.rxSize]
  · next hzero =>
    rw [not_not] at hzero
    refine ⟨_, _, _, _, h₁₃, rfl, h₁₃.valid, ?_⟩
    show (drainAvail _ _ _).toNat + _ = _
    rw [hzero]
    exact Nat.zero_add _

/-! ### Runs -/

namespace Traffic

/-- The registers are below the sizes of the rings, what was filled in was sent or is still in the TX ring, and what was
    delivered was drained or is still in the RX ring. -/
structure Sound (txSize rxSize : BitVec 32) (t : Traffic) : Prop where
  txSize : t.row.txSize = txSize
  rxSize : t.row.rxSize = rxSize
  valid : t.row.Valid
  tx : t.totalTx = t.row.sent + t.row.txQueued
  rx : t.row.delivered = t.totalRx + t.row.rxQueued

structure Fresh (t : Traffic) : Prop where
  valid : t.row.Valid
  tx : t.row.txHead = t.row.txTail
  rx : t.row.rxHead = t.row.rxTail
  counts : t.totalTx = 0 ∧ t.totalRx = 0 ∧ t.row.sent = 0 ∧ t.row.delivered = 0

variable {t : Traffic} {n m : BitVec 32}

theorem Fresh.sound (h : t.Fresh) : t.Sound t.row.txSize t.row.rxSize := by
  obtain ⟨htx, hrx, hsent, hdelivered⟩ := h.counts
  refine ⟨rfl, rfl, h.valid, ?_, ?_⟩
  · rw [htx, hsent, Row.txQueued, h.tx, Ring.count_self h.valid.txTail]
  · rw [hrx, hdelivered, Row.rxQueued, h.rx, Ring.count_self h.valid.rxTail]

theorem Sound.moved {u : Row} {k j : Nat} (h : t.Sound n m) (hmoved : Moved t.row u k j) :
    Sound n m { t with row := u } := by
  refine ⟨hmoved.txSize.trans h.txSize, hmoved.rxSize.trans h.rxSize, hmoved.valid, ?_, ?_⟩
  · show t.totalTx = u.sent + u.txQueued
    rw [h.tx, hmoved.sent, ← hmoved.txQueued, Nat.add_right_comm, Nat.add_assoc]
  · show u.delivered = t.totalRx + u.rxQueued
    rw [hmoved.delivered, hmoved.rxQueued, h.rx, Nat.add_assoc]

theorem Sound.step (h : t.Sound n m) (c : Call) : (t.step c).Sound n m := by
  cases c with
  | fill chunkBytes pos needBytes ms =>
    obtain ⟨u, k, j, hmoved, hle, heq, hquota⟩ := tryFillTx_spec h.valid pos needBytes ms
    obtain ⟨k₁, j₁, hseen⟩ := Row.exists_moved h.valid ms.head
    obtain ⟨hvalid, hqueued⟩ := Row.valid_advance hmoved.valid (hquota.fits hseen hmoved hle).2
    have hu := h.moved hmoved
    simp only [Traffic.step, heq]
    refine ⟨hu.txSize, hu.rxSize, hvalid, ?_, hu.rx⟩
    have htx : t.totalTx = u.sent + u.txQueued := hu.tx
    rw [hqueued, htx, Nat.add_assoc]
  | drain ms =>
    obtain ⟨u, k, j, rxHead, hmoved, heq, hvalid, hqueued⟩ := drainRx_spec h.valid ms
    have hu := h.moved hmoved
    rw [heq] at hvalid hqueued
    have hrx : u.delivered = t.totalRx + (drainRx t.row ms).1.toNat + { u with rxHead }.rxQueued := by
      rw [Nat.add_assoc, hqueued]
      exact hu.rx
    simp only [Traffic.step, heq]
    exact ⟨hu.txSize, hu.rxSize, hvalid, hu.tx, hrx⟩
  | device d =>
    obtain ⟨k, j, hmoved⟩ := Row.exists_moved_move h.valid d
    exact h.moved hmoved

theorem Sound.always (h : t.Sound n m) (calls : List Call) : Run.Always Traffic.step t calls (Sound n m) :=
  Run.always_of_step h fun _ c hs => hs.step c

theorem Sound.testLoopbackThroughput (h : t.Sound n m) (payloadSize : BitVec 32) (pos : 0 < payloadSize)
    (targetBytes : Nat) (rounds : List RoundMoves) :
    (testLoopbackThroughput payloadSize pos targetBytes t rounds).Sound n m := by
  induction rounds generalizing t with
  | nil => exact h
  | cons r rounds ih =>
    rw [Udp.testLoopbackThroughput]
    split
    · exact ih (h.always _ _ (List.prefix_refl _))
    · exact h

end Traffic

/-- In every run of calls from empty rings, with the device moving at any point. -/
theorem traffic_sound (t : Traffic) (h : t.Fresh) (calls : List Call) :
    Run.Always Traffic.step t calls (Traffic.Sound t.row.txSize t.row.rxSize) ∧
    (∀ pre chunkBytes pos needBytes m, pre ++ [.fill chunkBytes pos needBytes m] <+: calls →
      Fills (pre.foldl Traffic.step t).row chunkBytes needBytes
        (tryFillTx (pre.foldl Traffic.step t).row chunkBytes needBytes m).1.toNat
        ((pre.foldl Traffic.step t).row.moves m.head)
        (tryFillTx (pre.foldl Traffic.step t).row chunkBytes needBytes m).2) ∧
    ∀ payloadSize pos targetBytes rounds, Traffic.Sound t.row.txSize t.row.rxSize
      (testLoopbackThroughput payloadSize pos targetBytes t rounds) := by
  refine ⟨h.sound.always calls, fun pre chunkBytes pos needBytes m hpre => ?_,
    fun payloadSize pos targetBytes rounds => h.sound.testLoopbackThroughput payloadSize pos targetBytes rounds⟩
  have hsound := h.sound.always calls pre ((List.prefix_append pre _).trans hpre)
  exact fills_tryFillTx hsound.valid pos needBytes m

def openedRow : Row where
  txHead := 0
  txTail := 0
  txSize := 8 * 1024
  rxHead := 0
  rxTail := 0
  rxSize := 8 * 1024

theorem openedRow_valid : openedRow.Valid := ⟨by decide, by decide, by decide, by decide, by decide, by decide⟩

def sampleCalls : List Call :=
  [.fill 64 (by decide) 1000 { write := [.send 5] }, .device (.deliver 300), .drain { write := [.deliver 20] },
    .fill 64 (by decide) 8000 { tail := [.send 100] }]

theorem traffic_sound_opened :
    Run.Always Traffic.step { row := openedRow } sampleCalls (Traffic.Sound (8 * 1024) (8 * 1024)) ∧
      (sampleCalls.foldl Traffic.step { row := openedRow }).totalTx = 960 + 4096 := by
  refine ⟨?_, by decide⟩
  exact (traffic_sound { row := openedRow } ⟨openedRow_valid, rfl, rfl, rfl, rfl, rfl, rfl⟩ sampleCalls).1

end FireMarshal.Udp
