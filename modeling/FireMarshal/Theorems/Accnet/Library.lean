import FireMarshal.Accnet.Library

/-! What `accnet_send` does to the TX ring of a row. The accessors take the registers from the wrong place and put the
    tail into the RX engine, and nothing is compared with the free space: the ring is left as it should be only if there
    is nothing to send. -/

namespace FireMarshal.Accnet

namespace AccnetInfo

def txHead (a : AccnetInfo) : BitVec 32 := regRead32 a.udpTxRegs (udpTxRingHead a.row)

def txTail (a : AccnetInfo) : BitVec 32 := regRead32 a.udpTxRegs (udpTxRingTail a.row)

def size (a : AccnetInfo) : Nat := a.udpTxSize.toNat

def queued (a : AccnetInfo) : Nat := Ring.count a.size a.txTail.toNat a.txHead.toNat

def free (a : AccnetInfo) : Nat := a.size - 1 - a.queued

structure Valid (a : AccnetInfo) : Prop where
  size : a.size < 2 ^ 32
  head : a.txHead.toNat < a.size
  tail : a.txTail.toNat < a.size

end AccnetInfo

structure Sends (a : AccnetInfo) (buffer : List UInt8) (ret : BitVec 64) (b : AccnetInfo) (q : Nat) : Prop where
  head : accnetGetTxHead a = a.txHead
  tail : accnetGetTxTail a = a.txTail
  bytes : ∀ i < q, b.udpTxBuffer ((a.txTail.toNat + i) % a.size) = buffer.getD i 0
  newTail : b.txTail.toNat = (a.txTail.toNat + q) % a.size
  txRegs : ∀ w, w ≠ udpTxRingTail a.row / 4 → b.udpTxRegs w = a.udpTxRegs w
  rxRegs : b.udpRxRegs = a.udpRxRegs
  outside : ∀ x, a.size ≤ x → b.udpTxBuffer x = a.udpTxBuffer x
  unsent : ∀ i < a.queued, b.udpTxBuffer ((a.txHead.toNat + i) % a.size) = a.udpTxBuffer ((a.txHead.toNat + i) % a.size)
  fits : buffer.length ≤ a.free → q = buffer.length ∧ ret.toNat = q
  /-- A buffer that does not fit is queued in part, or there is an error. -/
  exceeds : a.free < buffer.length → q < buffer.length ∧ (ret.toNat = q ∨ ret = -1)

/-- There is nothing to send, and what the accessors read and overwrite agrees with the registers of the ring. -/
structure Idle (a : AccnetInfo) (buffer : List UInt8) : Prop where
  empty : buffer = []
  head : a.object (udpTxRingHead a.row / 4) = a.txHead
  tail : a.object (udpTxRingTail a.row / 4) = a.txTail
  rx : a.udpRxRegs (udpTxRingTail a.row / 4) = a.txTail

variable {a : AccnetInfo} {buffer : List UInt8}

theorem txTail_accnetSend (a : AccnetInfo) (buffer : List UInt8) : (accnetSend a buffer).2.txTail = a.txTail := rfl

theorem toNat_ret (hlen : buffer.length < 2 ^ 63) : (accnetSend a buffer).1.toNat = buffer.length := by
  show (BitVec.ofNat 64 buffer.length).toNat = _
  rw [BitVec.toNat_ofNat, Nat.mod_eq_of_lt (by omega)]

theorem Sends.empty {q : Nat} (ha : a.Valid) (hlen : buffer.length < 2 ^ 63)
    (h : Sends a buffer (accnetSend a buffer).1 (accnetSend a buffer).2 q) : buffer = [] := by
  have hret := toNat_ret (a := a) hlen
  rcases Nat.lt_or_ge a.free buffer.length with hlt | hle
  · obtain ⟨hq, heq | herr⟩ := h.exceeds hlt
    · omega
    · rw [herr] at hret
      have hmax : (-1 : BitVec 64).toNat = 2 ^ 64 - 1 := by decide
      omega
  · -- The tail has not moved, but it is less than a round that it should have.
    obtain ⟨rfl, -⟩ := h.fits hle
    have htail := h.newTail
    have hlt := ha.tail
    have hfree : a.free < a.size := by
      unfold AccnetInfo.free
      omega
    rw [txTail_accnetSend] at htail
    rw [← List.length_eq_zero_iff]
    rcases Nat.lt_or_ge (a.txTail.toNat + buffer.length) a.size with hw | hw
    · rw [Nat.mod_eq_of_lt hw] at htail
      omega
    · rw [Nat.mod_eq_sub_mod hw, Nat.mod_eq_of_lt (by omega)] at htail
      omega

theorem accnetSend_nil (ha : a.Valid) (htail : accnetGetTxTail a = a.txTail) :
    accnetSend a [] = (0, { a with udpRxRegs := regWrite32 a.udpRxRegs (udpTxRingTail a.row) a.txTail }) := by
  have hval : ((a.txTail.setWidth 64 + 0#64) % (a.udpTxSize.setWidth 32).setWidth 64).setWidth 32 = a.txTail := by
    apply BitVec.eq_of_toNat_eq
    have hlt := a.txTail.isLt
    have hsize : a.udpTxSize.toNat < 2 ^ 32 := ha.size
    have htail : a.txTail.toNat < a.udpTxSize.toNat := ha.tail
    rw [BitVec.add_zero, BitVec.toNat_setWidth, BitVec.toNat_umod, BitVec.toNat_setWidth, BitVec.toNat_setWidth,
      BitVec.toNat_setWidth, Nat.mod_eq_of_lt hsize, Nat.mod_eq_of_lt (by omega : a.udpTxSize.toNat < 2 ^ 64),
      Nat.mod_eq_of_lt (by omega : a.txTail.toNat < 2 ^ 64), Nat.mod_eq_of_lt htail, Nat.mod_eq_of_lt hlt]
  have hcopy : Ring.copy a.udpTxBuffer a.txTail.toNat (([] : List UInt8).getD · 0) 0 0 = a.udpTxBuffer := by
    funext x
    exact if_neg (by omega)
  simp only [accnetSend, accnetSetTxTail, htail, List.length_nil, hcopy]
  exact congrArg (fun v => ((0 : BitVec 64), { a with udpRxRegs := regWrite32 a.udpRxRegs (udpTxRingTail a.row) v })) hval

theorem accnetSend_iff (a : AccnetInfo) (ha : a.Valid) (buffer : List UInt8) (hlen : buffer.length < 2 ^ 63) :
    (∃ q, Sends a buffer (accnetSend a buffer).1 (accnetSend a buffer).2 q) ↔ Idle a buffer := by
  constructor
  · rintro ⟨q, h⟩
    obtain rfl := h.empty ha hlen
    refine ⟨rfl, h.head, h.tail, ?_⟩
    have hrx := h.rxRegs
    rw [accnetSend_nil ha h.tail] at hrx
    have hword := congrFun hrx (udpTxRingTail a.row / 4)
    rw [← hword]
    exact Function.update_self ..
  · rintro ⟨rfl, hhead, htail, hrx⟩
    have hkept : regWrite32 a.udpRxRegs (udpTxRingTail a.row) a.txTail = a.udpRxRegs := by
      rw [← hrx]
      exact Function.update_eq_self _ _
    refine ⟨0, ?_⟩
    rw [accnetSend_nil ha htail, hkept]
    exact {
      head := hhead
      tail := htail
      bytes := fun i hi => absurd hi (Nat.not_lt_zero i)
      newTail := (Nat.mod_eq_of_lt ha.tail).symm
      txRegs := fun _ _ => rfl
      rxRegs := rfl
      outside := fun _ _ => rfl
      unsent := fun _ _ => rfl
      fits := fun _ => ⟨rfl, rfl⟩
      exceeds := fun hlt => absurd hlt (Nat.not_lt_zero _) }

def sampleInfo (fd : BitVec 32) : AccnetInfo where
  object := fun w => if w = 0 then fd else 0
  udpTxRegs := fun _ => 0
  udpRxRegs := fun _ => 0
  row := 0
  udpTxSize := 8 * 1024
  udpTxBuffer := fun _ => 0

theorem accnetSend_nothing : ∃ q, Sends (sampleInfo 0) [] (accnetSend (sampleInfo 0) []).1
    (accnetSend (sampleInfo 0) []).2 q := by
  refine (accnetSend_iff (sampleInfo 0) ⟨by decide, by decide, by decide⟩ [] (by decide)).mpr ?_
  exact ⟨rfl, rfl, rfl, rfl⟩

theorem accnetSend_four :
    (accnetSend (sampleInfo 3) [1, 2, 3, 4]).1 = 4 ∧ (accnetSend (sampleInfo 3) [1, 2, 3, 4]).2.txTail = 0 ∧
      (accnetSend (sampleInfo 3) [1, 2, 3, 4]).2.udpRxRegs 1 = 4 ∧ accnetGetTxHead (sampleInfo 3) = 3 ∧
      ¬∃ q, Sends (sampleInfo 3) [1, 2, 3, 4] (accnetSend (sampleInfo 3) [1, 2, 3, 4]).1
        (accnetSend (sampleInfo 3) [1, 2, 3, 4]).2 q := by
  refine ⟨by decide, by decide, by decide, by decide, ?_⟩
  rintro ⟨q, h⟩
  obtain ⟨rfl, -⟩ := h.fits (by decide)
  exact absurd h.newTail (by decide)

end FireMarshal.Accnet
