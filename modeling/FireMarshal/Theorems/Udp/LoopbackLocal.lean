import FireMarshal.Theorems.Udp.Loopback

/-! What `test_loopback_throughput_local` counts. Its `size` takes an empty RX ring for a full one, so that every round
    that receives nothing, as after a wait that times out, counts as many bytes as the ring has. -/

namespace FireMarshal.Udp

theorem localSize_of_ne {rxHead rxTail rxSize : BitVec 32} (hne : rxTail ≠ rxHead) :
    localSize rxHead rxTail rxSize = drainAvail rxHead rxTail rxSize := by
  have hne : rxTail.toNat ≠ rxHead.toNat := fun h => hne (BitVec.eq_of_toNat_eq h)
  simp only [localSize, drainAvail, gt_iff_lt, ge_iff_le, BitVec.lt_def, BitVec.le_def]
  rcases Nat.lt_or_ge rxHead.toNat rxTail.toNat with hlt | hge
  · rw [if_pos hlt, if_pos (Nat.le_of_lt hlt)]
  · rw [if_neg (by omega), if_neg (by omega)]

theorem localSize_self (rxHead rxSize : BitVec 32) : localSize rxHead rxHead rxSize = rxSize := by
  simp [localSize]

theorem localSize_eq_drainAvail_iff {rxHead rxTail rxSize : BitVec 32} (hsize : rxSize ≠ 0) :
    localSize rxHead rxTail rxSize = drainAvail rxHead rxTail rxSize ↔ rxTail ≠ rxHead := by
  constructor
  · rintro heq rfl
    rw [localSize_self] at heq
    exact hsize (heq.trans (by simp [drainAvail]))
  · exact localSize_of_ne

theorem toNat_add_size {total : BitVec 64} {size : BitVec 32} (htotal : total.toNat < 2 ^ 63) (hsize : size.toNat < 2 ^ 31) :
    (total + size.signExtend 64).toNat = total.toNat + size.toNat := by
  have hmsb : size.msb = false := by
    rw [BitVec.msb_eq_decide, decide_eq_false_iff_not]
    omega
  rw [BitVec.toNat_add, BitVec.toNat_signExtend, hmsb, BitVec.toNat_setWidth]
  simp only [Bool.false_eq_true, if_false]
  omega

theorem add_size_ne {total : BitVec 64} {size : BitVec 32} (hsize : size ≠ 0) : total + size.signExtend 64 ≠ total := by
  intro h
  have hzero : size.signExtend 64 = 0#64 := by simpa using h
  have hint := congrArg BitVec.toInt hzero
  rw [BitVec.toInt_signExtend_of_le (by decide)] at hint
  exact hsize (BitVec.eq_of_toInt_eq hint)

namespace Local

variable {s : Local} {payloadSize : BitVec 32} {targetBytes : BitVec 64} {m : LocalMoves}

/-- `total_rx` is the number of bytes that were delivered and are not in the RX ring any more. -/
def Counts (s : Local) : Prop := s.row.delivered = s.totalRx.toNat + s.row.rxQueued

/-- While the loop runs, a round finds something in the RX ring. -/
def Receives (payloadSize : BitVec 32) (targetBytes : BitVec 64) (s : Local) (m : LocalMoves) : Prop :=
  s.totalRx < targetBytes → (s.waited payloadSize m).rxTail ≠ (s.waited payloadSize m).rxHead

structure Agrees (s : Local) : Prop where
  valid : s.row.Valid
  txTail : s.txTail = s.row.txTail
  rxHead : s.rxHead = s.row.rxHead
  counts : s.Counts

theorem Agrees.waited (h : s.Agrees) (payloadSize : BitVec 32) (m : LocalMoves) : ∃ j,
    (s.waited payloadSize m).rxHead = s.rxHead ∧ (s.waited payloadSize m).rxSize = s.row.rxSize ∧
    (s.waited payloadSize m).delivered = s.row.delivered + j ∧
    (s.waited payloadSize m).rxQueued = s.row.rxQueued + j ∧ (s.waited payloadSize m).Valid := by
  have htail : ((s.txTail + payloadSize) % s.row.txSize).toNat < s.row.txSize.toNat := by
    rw [BitVec.toNat_umod]
    exact Nat.mod_lt _ (by have := h.valid.txTail; omega)
  have hwritten : { s.row with txTail := (s.txTail + payloadSize) % s.row.txSize }.Valid := { h.valid with txTail := htail }
  obtain ⟨k₁, j₁, h₁⟩ := Row.exists_moved hwritten m.spin
  obtain ⟨k₂, j₂, h₂⟩ := Row.exists_moved_move h₁.valid (.send _)
  obtain ⟨k₃, j₃, h₃⟩ := Row.exists_moved h₂.valid m.wait
  have hall := (h₁.trans h₂).trans h₃
  exact ⟨_, hall.rxHead.trans h.rxHead.symm, hall.rxSize, hall.delivered, hall.rxQueued, hall.valid⟩

/-- The registers after a round that has read `RX_RING_TAIL` in `w`. -/
def left (w : Row) (ms : List DevMove) : Row := { w.moves ms with rxHead := w.rxTail }

theorem exists_left {w : Row} (h : w.Valid) (ms : List DevMove) :
    ∃ j, (left w ms).Valid ∧ (left w ms).rxQueued = j ∧ (left w ms).delivered = w.delivered + j := by
  obtain ⟨k, j, hmoved⟩ := Row.exists_moved h ms
  refine ⟨j, { hmoved.valid with rxHead := ?_ }, ?_, hmoved.delivered⟩
  · show w.rxTail.toNat < (w.moves ms).rxSize.toNat
    rw [hmoved.rxSize]
    exact h.rxTail
  · show Ring.count (w.moves ms).rxSize.toNat (w.moves ms).rxTail.toNat w.rxTail.toNat = j
    rw [hmoved.rxSize]
    exact hmoved.count_rxTail h

theorem round_of_lt (h : s.totalRx < targetBytes) : s.round payloadSize targetBytes m =
    { row := left (s.waited payloadSize m) m.write
      txTail := (left (s.waited payloadSize m) m.write).txTail
      rxHead := (s.waited payloadSize m).rxTail
      totalRx := s.totalRx + (localSize s.rxHead (s.waited payloadSize m).rxTail
        (s.waited payloadSize m).rxSize).signExtend 64 } := if_pos h

theorem Agrees.round (h : s.Agrees) (htarget : targetBytes.toNat < 2 ^ 63) (hrec : Receives payloadSize targetBytes s m) :
    (s.round payloadSize targetBytes m).Agrees := by
  by_cases hlt : s.totalRx < targetBytes
  · obtain ⟨j, hhead, -, hdelivered, hqueued, hvalid⟩ := h.waited payloadSize m
    have hne := hrec hlt
    rw [round_of_lt hlt]
    generalize s.waited payloadSize m = w at *
    obtain ⟨j', hvalid', hqueued', hdelivered'⟩ := exists_left hvalid m.write
    have hsize : (localSize s.rxHead w.rxTail w.rxSize).toNat = w.rxQueued := by
      rw [← hhead, localSize_of_ne hne, toNat_drainAvail hvalid.rxSize.2 hvalid.rxHead hvalid.rxTail]
      rfl
    have hbound : w.rxQueued < w.rxSize.toNat := Ring.count_lt hvalid.rxTail
    have hmax := hvalid.rxSize.2
    have hlt : s.totalRx.toNat < targetBytes.toNat := hlt
    have hsum := toNat_add_size (by omega : s.totalRx.toNat < 2 ^ 63)
      (by omega : (localSize s.rxHead w.rxTail w.rxSize).toNat < 2 ^ 31)
    have hcounts : s.row.delivered = s.totalRx.toNat + s.row.rxQueued := h.counts
    refine ⟨hvalid', rfl, rfl, ?_⟩
    rw [Counts, hsum, hsize, hqueued', hdelivered', hdelivered, hqueued, hcounts]
    omega
  · have hstop : s.round payloadSize targetBytes m = s := if_neg hlt
    rw [hstop]
    exact h

theorem Agrees.not_counts (h : s.Agrees) (hrec : ¬Receives payloadSize targetBytes s m) :
    ¬(s.round payloadSize targetBytes m).Counts := by
  obtain ⟨hlt, heq⟩ := Classical.not_imp.mp hrec
  rw [not_not] at heq
  obtain ⟨j, hhead, hsize, hdelivered, hqueued, hvalid⟩ := h.waited payloadSize m
  rw [round_of_lt hlt]
  generalize s.waited payloadSize m = w at *
  obtain ⟨j', -, hqueued', hdelivered'⟩ := exists_left hvalid m.write
  have hempty : w.rxQueued = 0 := by
    rw [Row.rxQueued, heq]
    exact Ring.count_self hvalid.rxHead
  have hpos : w.rxSize ≠ 0 := by
    intro hzero
    have hge := hvalid.rxSize.1
    rw [hzero] at hge
    exact absurd hge (by decide)
  have hcounts : s.row.delivered = s.totalRx.toNat + s.row.rxQueued := h.counts
  intro hc
  replace hc : (left w m.write).delivered = (s.totalRx + (localSize s.rxHead w.rxTail w.rxSize).signExtend 64).toNat +
    (left w m.write).rxQueued := hc
  rw [hqueued', hdelivered', ← hhead, heq, localSize_self] at hc
  have hsame : (s.totalRx + w.rxSize.signExtend 64).toNat = s.totalRx.toNat := by omega
  exact add_size_ne hpos (BitVec.eq_of_toNat_eq hsame)

end Local

theorem local_counts_iff (row : Row) (h : row.Valid) (hstart : row.delivered = row.rxQueued) (payloadSize : BitVec 32)
    (targetBytes : BitVec 64) (htarget : targetBytes.toNat < 2 ^ 63) (ms : List LocalMoves) :
    (Run.Always (Local.round payloadSize targetBytes) (Local.start row) ms Local.Counts ↔
      Run.Guarded (Local.round payloadSize targetBytes) (Local.start row) ms
        (Local.Receives payloadSize targetBytes)) ∧
    ∀ rxHead rxTail rxSize : BitVec 32, rxSize ≠ 0 →
      (localSize rxHead rxTail rxSize = drainAvail rxHead rxTail rxSize ↔ rxTail ≠ rxHead) := by
  refine ⟨?_, fun rxHead rxTail rxSize => localSize_eq_drainAvail_iff⟩
  have hagrees : (Local.start row).Agrees := by
    refine ⟨h, rfl, rfl, ?_⟩
    show row.delivered = 0 + row.rxQueued
    rw [hstart, Nat.zero_add]
  exact Run.always_iff_guarded hagrees (fun s m hs hrec => hs.round htarget hrec) (fun s hs => hs.counts)
    fun s m hs hrec => hs.not_counts hrec

def returned : LocalMoves := { wait := [.deliver 1024] }

theorem local_counts_returned :
    Run.Always (Local.round 1024 (1024 * 1024)) (Local.start openedRow) [returned] Local.Counts := by
  refine (local_counts_iff openedRow openedRow_valid rfl 1024 (1024 * 1024) (by decide) [returned]).1.mpr ?_
  refine Run.guarded_cons.mpr ⟨?_, Run.guarded_nil⟩
  show _ → _
  decide

theorem local_counts_empty :
    ((Local.start openedRow).round 1024 (1024 * 1024) {}).totalRx = 8 * 1024 ∧
      ((Local.start openedRow).round 1024 (1024 * 1024) {}).row.delivered = 0 ∧
      localSize 0 0 (8 * 1024) = 8 * 1024 ∧ drainAvail 0 0 (8 * 1024) = 0 := by
  decide

end FireMarshal.Udp
