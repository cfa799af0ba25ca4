import FireMarshal.Udp.Latency

/-! The network latency that a client sums up. The device counts time with 64 bits, and `accnet_get_outside_ticks` takes
    the difference of two times in `int` variables. It is right exactly if it fits an `int` and the count does not pass
    from `2 ^ 31 - 1` to `2 ^ 31` modulo `2 ^ 32` in between. -/

namespace FireMarshal.Udp
open Accnet

/-- The time from sending to receiving is less than `2 ^ 31` ticks, and both times lie in one stretch of `2 ^ 32` ticks
    that starts at an odd multiple of `2 ^ 31`. -/
def SameEpoch (a : AccnetInfo) : Prop :=
  a.rxTimestamp.toNat - a.txTimestamp.toNat < 2 ^ 31 ∧
    (a.txTimestamp.toNat + 2 ^ 31) / 2 ^ 32 = (a.rxTimestamp.toNat + 2 ^ 31) / 2 ^ 32

instance (a : AccnetInfo) : Decidable (SameEpoch a) := inferInstanceAs (Decidable (_ ∧ _))

theorem toInt_setWidth (x : BitVec 64) :
    (x.setWidth 32).toInt = x.toNat - (2 ^ 32 * ((x.toNat + 2 ^ 31) / 2 ^ 32) : Nat) := by
  rw [BitVec.toInt_eq_toNat_cond, BitVec.toNat_setWidth]
  split <;> omega

theorem toNat_signExtend_sub (x y : BitVec 32) : ((x - y).signExtend 64).toNat =
    if (x - y).toNat < 2 ^ 31 then (x - y).toNat else (x - y).toNat + (2 ^ 64 - 2 ^ 32) := by
  have hlt := (x - y).isLt
  rw [BitVec.toNat_signExtend, BitVec.msb_eq_decide, BitVec.toNat_setWidth, Nat.mod_eq_of_lt (by omega)]
  by_cases h : (x - y).toNat < 2 ^ 31
  · rw [if_pos h, decide_eq_false (by omega)]
    rfl
  · rw [if_neg h, decide_eq_true (by omega)]
    rfl

theorem outsideTicks_exact_iff {a : AccnetInfo} (h : a.txTimestamp < a.rxTimestamp) :
    (accnetGetOutsideTicks a).toNat = a.rxTimestamp.toNat - a.txTimestamp.toNat ↔ SameEpoch a := by
  have hlt : a.txTimestamp.toNat < a.rxTimestamp.toNat := h
  have hmax := a.rxTimestamp.isLt
  have hsub : (a.rxTimestamp.setWidth 32 - a.txTimestamp.setWidth 32).toNat =
      (a.rxTimestamp.toNat - a.txTimestamp.toNat) % 2 ^ 32 := by
    rw [BitVec.toNat_sub, BitVec.toNat_setWidth, BitVec.toNat_setWidth]
    omega
  unfold accnetGetOutsideTicks SameEpoch
  simp only [toInt_setWidth]
  generalize a.rxTimestamp.toNat = rx at *
  generalize a.txTimestamp.toNat = tx at *
  split
  · rw [BitVec.toNat_ofNat]
    omega
  · rw [toNat_signExtend_sub, hsub]
    split <;> omega

/-! ### The loop -/

def counted (skipFirst : Bool) (i : Nat) : List Sample → List Sample
  | [] => []
  | x :: xs => if x.diff = 0 ∨ (i = 0 ∧ skipFirst) then counted skipFirst (i + 1) xs else x :: counted skipFirst (i + 1) xs

def Sample.networkTicks (x : Sample) : Nat := x.accnet.rxTimestamp.toNat - x.accnet.txTimestamp.toNat

variable {skipFirst : Bool} {i : Nat} {s : Results} {x : Sample}

theorem sum_add_of_skipped (h : x.diff = 0 ∨ (i = 0 ∧ skipFirst = true)) :
    (s.add skipFirst i x).sumNetworkLatencyTick = s.sumNetworkLatencyTick := by
  unfold Results.add
  split
  · rfl
  · next hdiff => simp only [if_pos (h.resolve_left hdiff)]

theorem sum_add_of_counted (h : ¬(x.diff = 0 ∨ (i = 0 ∧ skipFirst = true))) :
    (s.add skipFirst i x).sumNetworkLatencyTick = s.sumNetworkLatencyTick + accnetGetOutsideTicks x.accnet := by
  obtain ⟨hdiff, hskip⟩ := not_or.mp h
  simp only [Results.add, if_neg hdiff, if_neg hskip]
  split <;> rfl

theorem toNat_sum_clientLoop (xs : List Sample)
    (hexact : ∀ x ∈ counted skipFirst i xs, (accnetGetOutsideTicks x.accnet).toNat = x.networkTicks)
    (hfits : s.sumNetworkLatencyTick.toNat + ((counted skipFirst i xs).map Sample.networkTicks).sum < 2 ^ 64) :
    (clientLoop skipFirst s i xs).sumNetworkLatencyTick.toNat =
      s.sumNetworkLatencyTick.toNat + ((counted skipFirst i xs).map Sample.networkTicks).sum := by
  induction xs generalizing s i with
  | nil => rfl
  | cons x xs ih =>
    rw [clientLoop]
    by_cases hskip : x.diff = 0 ∨ (i = 0 ∧ skipFirst = true)
    · rw [counted, if_pos hskip] at hexact hfits ⊢
      have hsum := sum_add_of_skipped (s := s) hskip
      rw [← hsum] at hfits ⊢
      exact ih hexact hfits
    · rw [counted, if_neg hskip] at hexact hfits ⊢
      rw [List.map_cons, List.sum_cons] at hfits ⊢
      have hx := hexact x List.mem_cons_self
      have hsum : (s.add skipFirst i x).sumNetworkLatencyTick.toNat =
          s.sumNetworkLatencyTick.toNat + x.networkTicks := by
        rw [sum_add_of_counted hskip, BitVec.toNat_add, hx, Nat.mod_eq_of_lt (by omega)]
      rw [ih (fun y hy => hexact y (List.mem_cons_of_mem _ hy)) (by omega), hsum, Nat.add_assoc]

theorem network_ticks_iff (skipFirst : Bool) (xs : List Sample)
    (hlt : ∀ x ∈ counted skipFirst 0 xs, x.accnet.txTimestamp < x.accnet.rxTimestamp)
    (hfits : ((counted skipFirst 0 xs).map Sample.networkTicks).sum < 2 ^ 64) :
    ((∀ x ∈ counted skipFirst 0 xs, (accnetGetOutsideTicks x.accnet).toNat = x.networkTicks) ∧
      (clientLoop skipFirst {} 0 xs).sumNetworkLatencyTick.toNat =
        ((counted skipFirst 0 xs).map Sample.networkTicks).sum) ↔
    ∀ x ∈ counted skipFirst 0 xs, SameEpoch x.accnet := by
  constructor
  · rintro ⟨hexact, -⟩ x hx
    exact (outsideTicks_exact_iff (hlt x hx)).mp (hexact x hx)
  · intro hepoch
    have hexact : ∀ x ∈ counted skipFirst 0 xs, (accnetGetOutsideTicks x.accnet).toNat = x.networkTicks :=
      fun x hx => (outsideTicks_exact_iff (hlt x hx)).mpr (hepoch x hx)
    have hzero : (({} : Results).sumNetworkLatencyTick).toNat = 0 := rfl
    have hsum := toNat_sum_clientLoop (s := {}) xs hexact (by rw [hzero]; omega)
    rw [hzero, Nat.zero_add] at hsum
    exact ⟨hexact, hsum⟩

def stamped (rx tx : BitVec 64) : AccnetInfo where
  object := fun _ => 0
  udpTxRegs := fun w => if w = 2 then tx.setWidth 32 else if w = 3 then (tx >>> 32).setWidth 32 else 0
  udpRxRegs := fun w => if w = 4 then rx.setWidth 32 else if w = 5 then (rx >>> 32).setWidth 32 else 0
  row := 0
  udpTxSize := 8 * 1024
  udpTxBuffer := fun _ => 0

theorem network_ticks_early :
    (clientLoop false {} 0 [⟨900, stamped 1500 1000⟩, ⟨950, stamped 4000 3300⟩]).sumNetworkLatencyTick.toNat = 1200 := by
  have h := (network_ticks_iff false [⟨900, stamped 1500 1000⟩, ⟨950, stamped 4000 3300⟩] (by decide) (by decide)).mpr
    (by decide)
  exact h.2

/-- The count passes `2 ^ 31`, which a clock of 50 MHz does after 43 seconds, while a packet is on its way. -/
theorem network_ticks_passed :
    (stamped 0x80000010#64 0x7ffffff0#64).rxTimestamp = 0x80000010#64 ∧
      (stamped 0x80000010#64 0x7ffffff0#64).txTimestamp = 0x7ffffff0#64 ∧
      accnetGetOutsideTicks (stamped 0x80000010#64 0x7ffffff0#64) = 0 ∧
      (clientLoop false {} 0 [⟨900, stamped 0x80000010#64 0x7ffffff0#64⟩]).sumNetworkLatencyTick = 0 := by
  decide

end FireMarshal.Udp
