import FireMarshal.Lib.Run
import FireMarshal.Accnet.Regs

/-! The registers of the UDP engines share no memory, except for RX ring 32: its head and its tail are in the place of
    the interrupt registers of the RX engine, which begin after 32 rings. -/

namespace FireMarshal.Accnet

open RegisterFile (Layout)

variable {n : Nat}

/-! ### The fields of a ring -/

theorem RxRingReg.off_add_width_le (f : RxRingReg) : f.off + f.width ≤ 0x20 := by cases f <;> decide

theorem RxRingReg.width_dvd (f : RxRingReg) : f.width ∣ 0x20 ∧ f.width ∣ f.off := by cases f <;> decide

theorem RxRingReg.apart {f f' : RxRingReg} (h : f ≠ f') : f'.off + f'.width ≤ f.off ∨ f.off + f.width ≤ f'.off := by
  revert h
  cases f <;> cases f' <;> decide

theorem TxRingReg.off_add_width_le (f : TxRingReg) : f.off + f.width ≤ 0x10 := by cases f <;> decide

theorem TxRingReg.width_dvd (f : TxRingReg) : f.width ∣ 0x10 ∧ f.width ∣ f.off := by cases f <;> decide

theorem TxRingReg.apart {f f' : TxRingReg} (h : f ≠ f') : f'.off + f'.width ≤ f.off ∨ f.off + f.width ≤ f'.off := by
  revert h
  cases f <;> cases f' <;> decide

theorem RxEngineReg.width_dvd (g : RxEngineReg) : g.width ∣ g.off := by cases g <;> decide

theorem RxEngineReg.apart {g g' : RxEngineReg} (h : g ≠ g') :
    g'.off + g'.width ≤ g.off ∨ g.off + g.width ≤ g'.off := by
  revert h
  cases g <;> cases g' <;> decide

theorem TxEngineReg.width_dvd (g : TxEngineReg) : g.width ∣ g.off := by cases g <;> decide

theorem TxEngineReg.le_off (g : TxEngineReg) : 0x400 ≤ g.off := by cases g <;> decide

theorem TxEngineReg.apart {g g' : TxEngineReg} (h : g ≠ g') :
    g'.off + g'.width ≤ g.off ∨ g.off + g.width ≤ g'.off := by
  revert h
  cases g <;> cases g' <;> decide

namespace UdpReg

variable {reg reg' : UdpReg n}

def layout (n : Nat) : Layout (UdpReg n) UdpEngine := ⟨engine, offset, width⟩

theorem width_dvd_offset (reg : UdpReg n) : reg.width ∣ reg.offset := by
  rcases reg with ⟨f, r⟩ | g | ⟨f, r⟩ | g
  · exact Nat.dvd_add (Nat.dvd_mul_left_of_dvd f.width_dvd.1 r) f.width_dvd.2
  · exact g.width_dvd
  · exact Nat.dvd_add (Nat.dvd_mul_left_of_dvd f.width_dvd.1 r) f.width_dvd.2
  · exact g.width_dvd

@[simp] theorem addr_eq (via : Header) (reg : UdpReg n) : via.addr reg.offset reg.width = reg.offset := by
  cases via with
  | driver => rfl
  | library => exact Nat.mul_div_cancel' reg.width_dvd_offset

theorem readReg_eq (via : Header) (m : UdpMem) (reg : UdpReg n) : readReg via m reg = (layout n).read m reg := by
  rw [readReg, addr_eq]
  rfl

theorem exec_eq (m : UdpMem) (w : RegWrite n) : w.exec m = (layout n).write m w.reg w.val := by
  rw [RegWrite.exec, addr_eq]
  rfl

def shared : UdpReg n → Option (UdpReg n)
  | .rxRing .head r => if r.val = 32 then some (.rx .irqPending) else none
  | .rxRing .tail r => if r.val = 32 then some (.rx .irqClear) else none
  | .rx .irqPending => if h : 32 < n then some (.rxRing .head ⟨32, h⟩) else none
  | .rx .irqClear => if h : 32 < n then some (.rxRing .tail ⟨32, h⟩) else none
  | _ => none

theorem alias_of_shared (h : reg.shared = some reg') : (layout n).Alias reg reg' := by
  rcases reg with ⟨f, r⟩ | g | ⟨f, r⟩ | g
  · cases f <;> simp only [shared, Option.ite_none_right_eq_some, Option.some.injEq, reduceCtorEq] at h
    all_goals
      obtain ⟨hr, rfl⟩ := h
      refine ⟨rfl, ?_, rfl⟩
      simp [layout, offset, udpRxRingReg, hr, RxRingReg.off, RxEngineReg.off]
  · cases g
    all_goals
      simp only [shared, Option.dite_none_right_eq_some, Option.some.injEq] at h
      obtain ⟨hn, rfl⟩ := h
      exact ⟨rfl, rfl, rfl⟩
  · cases h
  · cases h

theorem shared_rx_iff {f : RxRingReg} {r : Fin n} {g : RxEngineReg} :
    (rx g).shared = some (.rxRing f r) ↔ (rxRing f r).shared = some (.rx g) := by
  have hr := r.isLt
  cases f <;> cases g <;> simp [shared, Fin.ext_iff] <;> omega

theorem shared_ne_self : reg.shared ≠ some reg := by
  intro h
  rcases reg with ⟨f, r⟩ | g | ⟨f, r⟩ | g
  · cases f <;> simp [shared] at h
  · cases g <;> simp [shared] at h
  · cases h
  · cases h

theorem shared_eq_none (hn : n ≤ 32) : reg.shared = none := by
  rcases reg with ⟨f, r⟩ | g | ⟨f, r⟩ | g
  · have hr : r.val ≠ 32 := by omega
    cases f <;> simp [shared, hr]
  · cases g <;> simp [shared, hn]
  · rfl
  · rfl

/-! ### Registers that are apart -/

theorem rxRing_rx_apart {f : RxRingReg} {r : Fin n} {g : RxEngineReg} (h : (rxRing f r).shared ≠ some (.rx g)) :
    (layout n).Apart (.rxRing f r) (.rx g) := by
  refine .inr ?_
  cases f <;> cases g <;>
    simp only [shared, layout, offset, width, udpRxRingReg, RxRingReg.off, RxRingReg.width, RxEngineReg.off,
      RxEngineReg.width, ne_eq, Option.ite_none_right_eq_some, and_true, reduceCtorEq, not_false_eq_true] at h ⊢ <;>
    omega

theorem txRing_tx_apart {f : TxRingReg} {r : Fin n} {g : TxEngineReg} (hn : n ≤ 64) :
    (layout n).Apart (.txRing f r) (.tx g) := by
  have hr := r.isLt
  have hf := f.off_add_width_le
  have hg := g.le_off
  refine .inr (.inr ?_)
  simp only [layout, offset, width, udpTxRingReg]
  omega

theorem apart_of_not_shared (hn : n ≤ 64) (hne : reg ≠ reg') (h : reg.shared ≠ some reg') :
    (layout n).Apart reg reg' := by
  rcases ne_or_eq reg.engine reg'.engine with hengine | hengine
  · exact .inl hengine
  rcases reg with ⟨f, r⟩ | g | ⟨f, r⟩ | g <;> rcases reg' with ⟨f', r'⟩ | g' | ⟨f', r'⟩ | g' <;>
    simp only [engine, reduceCtorEq] at hengine
  · refine .inr (RegisterFile.apart_of_stride f.off_add_width_le f'.off_add_width_le fun heq => ?_)
    obtain rfl := Fin.ext heq
    exact RxRingReg.apart fun hf => hne (by rw [hf])
  · exact rxRing_rx_apart h
  · exact (rxRing_rx_apart fun hshared => h (shared_rx_iff.mpr hshared)).symm
  · exact .inr (RxEngineReg.apart fun hg => hne (by rw [hg]))
  · refine .inr (RegisterFile.apart_of_stride f.off_add_width_le f'.off_add_width_le fun heq => ?_)
    obtain rfl := Fin.ext heq
    exact TxRingReg.apart fun hf => hne (by rw [hf])
  · exact txRing_tx_apart hn
  · exact (txRing_tx_apart hn).symm
  · exact .inr (TxEngineReg.apart fun hg => hne (by rw [hg]))

theorem alias_or_apart (hn : n ≤ 64) (hne : reg ≠ reg') : (layout n).Alias reg reg' ∨ (layout n).Apart reg reg' := by
  rcases eq_or_ne reg.shared (some reg') with h | h
  · exact .inl (alias_of_shared h)
  · exact .inr (apart_of_not_shared hn hne h)

theorem width_pos (reg : UdpReg n) : 0 < reg.width := by
  rcases reg with ⟨f, r⟩ | g | ⟨f, r⟩ | g
  · cases f <;> exact Nat.succ_pos _
  · cases g <;> exact Nat.succ_pos _
  · cases f <;> exact Nat.succ_pos _
  · cases g <;> exact Nat.succ_pos _

theorem alias_iff_shared (hn : n ≤ 64) (hne : reg ≠ reg') : (layout n).Alias reg reg' ↔ reg.shared = some reg' := by
  refine ⟨fun h => ?_, alias_of_shared⟩
  by_contra hnot
  exact (apart_of_not_shared hn hne hnot).not_alias reg.width_pos h

end UdpReg

/-! ### Runs -/

/-- The regions, and beside them the last value written to each register. -/
structure UdpRegs (n : Nat) where
  mem : UdpMem
  last : UdpReg n → Nat

namespace UdpRegs

def start (m : UdpMem) : UdpRegs n := ⟨m, fun reg => readReg .driver m reg⟩

def step (s : UdpRegs n) (w : RegWrite n) : UdpRegs n :=
  ⟨w.exec s.mem, Function.update s.last w.reg (w.val % 256 ^ w.reg.width)⟩

def ReadsBack (s : UdpRegs n) : Prop := ∀ via reg, readReg via s.mem reg = s.last reg

/-- The write does not change the other register in its place. -/
def Harmless (s : UdpRegs n) (w : RegWrite n) : Prop :=
  ∀ reg, w.reg.shared = some reg → s.last reg = w.val % 256 ^ w.reg.width

variable {s : UdpRegs n} {w : RegWrite n}

theorem readsBack_iff : s.ReadsBack ↔ (UdpReg.layout n).ReadsBack ⟨s.mem, s.last⟩ := by
  simp only [ReadsBack, Layout.ReadsBack, UdpReg.readReg_eq]
  exact ⟨fun h => h .driver, fun h _ => h⟩

theorem harmless_iff (hn : n ≤ 64) : s.Harmless w ↔ (UdpReg.layout n).Harmless ⟨s.mem, s.last⟩ (w.reg, w.val) := by
  constructor
  · intro h reg hne halias
    exact h reg ((UdpReg.alias_iff_shared hn hne.symm).mp halias)
  · intro h reg hshared
    refine h reg ?_ (UdpReg.alias_of_shared hshared)
    rintro rfl
    exact UdpReg.shared_ne_self hshared

theorem readsBack_step_iff (hn : n ≤ 64) (hs : s.ReadsBack) : (s.step w).ReadsBack ↔ s.Harmless w := by
  rw [harmless_iff hn, readsBack_iff, step, UdpReg.exec_eq]
  exact Layout.readsBack_step_iff (a := (w.reg, w.val)) (fun _ _ => UdpReg.alias_or_apart hn) (readsBack_iff.mp hs)

theorem readsBack_start (m : UdpMem) : (start m : UdpRegs n).ReadsBack := by
  intro via reg
  exact (UdpReg.readReg_eq via m reg).trans (UdpReg.readReg_eq .driver m reg).symm

theorem always_readsBack_iff (hn : n ≤ 64) (m : UdpMem) (ws : List (RegWrite n)) :
    Run.Always step (start m) ws ReadsBack ↔ Run.Guarded step (start m) ws Harmless := by
  refine Run.always_iff_guarded (readsBack_start m) (fun s w (hs : s.ReadsBack) => ?_) (fun s hs => hs) ?_
  · exact (readsBack_step_iff hn hs).mpr
  · intro s w hs hnot h
    exact hnot ((readsBack_step_iff hn hs).mp h)

end UdpRegs

theorem Header.udpRingCount_le (hdr : Header) : hdr.udpRingCount ≤ 64 := by cases hdr <;> decide

/-- The last value written to each register reads back exactly in the runs in which no write changes the register
    that shares its place. -/
theorem udp_regs_read_back (hdr : Header) :
    (∀ (m : UdpMem) (ws : List (RegWrite hdr.udpRingCount)),
      Run.Always UdpRegs.step (.start m) ws UdpRegs.ReadsBack ↔
        Run.Guarded UdpRegs.step (.start m) ws UdpRegs.Harmless) ∧
    ((∀ (m : UdpMem) (ws : List (RegWrite hdr.udpRingCount)),
      Run.Always UdpRegs.step (.start m) ws UdpRegs.ReadsBack) ↔ hdr = .library) := by
  have hrun := UdpRegs.always_readsBack_iff hdr.udpRingCount_le
  refine ⟨hrun, ?_⟩
  cases hdr with
  | driver =>
    refine ⟨fun h => ?_, fun h => Header.noConfusion h⟩
    -- One write to the head of ring 32 is enough.
    have hg := (hrun (fun _ _ => 0) [⟨.driver, .rxRing .head (32 : Fin 64), 1⟩]).mp (h _ _)
    exact absurd ((Run.guarded_cons.mp hg).1 (.rx .irqPending) rfl) (by decide)
  | library =>
    refine ⟨fun _ => rfl, fun _ m ws => (hrun m ws).mpr fun pre w _ reg hshared => ?_⟩
    rw [UdpReg.shared_eq_none (by decide)] at hshared
    cases hshared

def headThenIrqPending : List (RegWrite 64) := [⟨.driver, .rxRing .head 32, 0x40⟩, ⟨.driver, .rx .irqPending, 1⟩]

/-- `init_udp_engine` does not write the interrupt register and clears it. A value written to it replaces the head of
    ring 32. -/
theorem ring32_head_is_irqPending :
    (∃ m : UdpMem, (∀ w ∈ initUdpEngine, w.reg ≠ .rx .irqPending) ∧
      readReg .driver m (.rx .irqPending : UdpReg 64) = 1 ∧
      readReg .driver (initUdpEngine.foldl RegWrite.exec m) (.rx .irqPending : UdpReg 64) = 0) ∧
    (headThenIrqPending.foldl UdpRegs.step (.start fun _ _ => 0)).last (.rxRing .head 32) = 0x40 ∧
    readReg .driver (headThenIrqPending.foldl RegWrite.exec fun _ _ => 0) (.rxRing .head 32 : UdpReg 64) = 1 := by
  refine ⟨⟨fun _ a => if a = 0x400 then 1 else 0, ?_⟩, ?_⟩
  · decide +kernel
  · decide

/-- The tails that `_init_regs` reads back are zero, also for row 32. -/
theorem initRegsExits_eq_false (m : UdpMem) (row : Fin 64) : initRegsExits m row = false := by
  have htx : ∀ (m : UdpMem) (f : RxRingReg),
      (UdpReg.layout 64).read ((UdpReg.layout 64).write m (.rxRing f row) 0) (.txRing .tail row) =
        (UdpReg.layout 64).read m (.txRing .tail row) :=
    fun m f => Layout.read_write_of_apart (.inl (UdpEngine.noConfusion ·))
  simp only [initRegsExits, initRegs, List.foldl_cons, List.foldl_nil, UdpReg.exec_eq, UdpReg.readReg_eq, htx]
  rw [Layout.read_write_of_alias ⟨rfl, rfl, rfl⟩, Layout.read_write_of_alias ⟨rfl, rfl, rfl⟩]
  rfl

end FireMarshal.Accnet
