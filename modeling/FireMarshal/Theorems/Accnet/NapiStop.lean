import FireMarshal.Theorems.Accnet.Napi

/-! What `accnet_stop` leaves behind. `napi_disable` waits until no poll is scheduled, but `accnet_poll` sets the
    interrupt mask only after `napi_complete_done`; and a handler that runs while NAPI is disabled clears the pending
    bit of its engine without a poll. -/

namespace FireMarshal.Accnet
namespace PollSys

variable {k : Kernel} {cap budget : Nat} {s : PollSys} {side : Side}

theorem ctl_always (k : Kernel) (cap budget : Nat) (acts : List PollAct) :
    Ctl (acts.foldl (PollSys.step k cap budget) init) := by
  have hall : Run.Always (PollSys.step k cap budget) init acts Ctl := Run.always_of_step ctl_init fun _ a h => h.step a
  exact hall acts (List.prefix_refl _)

/-! ### The mask -/

/-- From the statement of `accnet_stop` that clears the mask until the device is opened again, nothing enables an
    interrupt. -/
structure Shut (s : PollSys) : Prop where
  proc : s.proc = .stopQueue ∨ s.proc = .closed
  tails : s.tails = 0
  mask : ∀ side, (s.line side).mask = false

theorem Shut.setLine {l : Line} (h : Shut s) (hl : l.mask = false) : Shut (s.setLine side l) := by
  refine ⟨h.proc, h.tails, fun side' => ?_⟩
  rcases Decidable.em (side' = side) with rfl | hne
  · rw [line_setLine_self, hl]
  · rw [line_setLine_of_ne hne, h.mask]

theorem Shut.off (h : Shut s) : s.proc.off = true := by
  rcases h.proc with hp | hp <;> rw [hp] <;> rfl

theorem Shut.not_opened (h : Shut s) : s.proc ≠ .opened := by
  rcases h.proc with hp | hp <;> simp [hp]

theorem Shut.step (h : Shut s) (hctl : Ctl s) {a : PollAct} (ha : a = .proc → s.proc = .stopQueue) :
    Shut (s.step k cap budget a) := by
  obtain ⟨hlisted, hpoll⟩ := hctl.off h.off
  have hxmit : s.xmit = .idle := by
    by_contra hx
    exact h.not_opened (hctl.xmit hx)
  cases a with
  | isr side =>
    simp only [PollSys.step, isrStep]
    split
    · split
      · exact h
      · exact h.setLine rfl
    · exact h.setLine (h.mask side)
    · have hidle : Shut (s.setLine side { s.line side with isr := .idle }) := h.setLine (h.mask side)
      exact ⟨hidle.proc, hidle.tails, hidle.mask⟩
  | poll =>
    simp only [PollSys.step, PollSys.pollStep, hpoll, hlisted, Bool.false_eq_true, if_false]
    exact h
  | setIntmask =>
    simp only [PollSys.step, PollSys.setIntmask, h.tails, if_true]
    exact h
  | startXmit skb =>
    simp only [PollSys.step, PollSys.startXmit, h.not_opened, ne_eq, not_false_eq_true, true_or, or_true, if_true]
    exact h
  | xmit =>
    rw [PollSys.step, xmitStep_of_idle hxmit]
    exact h
  | proc =>
    simp only [PollSys.step, PollSys.procStep, ha rfl]
    exact ⟨.inr rfl, h.tails, h.mask⟩
  | txEngine st => exact Shut.setLine (s := { s with tx := _ }) ⟨h.proc, h.tails, h.mask⟩ (h.mask .tx)
  | rxEngine st => exact Shut.setLine (s := { s with rx := _ }) ⟨h.proc, h.tails, h.mask⟩ (h.mask .rx)

/-- The masks stay cleared through the last statement of `accnet_stop` and after it. -/
theorem Shut.foldl (h : Shut s) (hctl : Ctl s) {ds : List PollAct}
    (hds : ds.count .proc ≤ if s.proc = .stopQueue then 1 else 0) :
    Shut (ds.foldl (PollSys.step k cap budget) s) := by
  induction ds generalizing s with
  | nil => exact h
  | cons a ds ih =>
    rcases Decidable.em (a = .proc) with rfl | hne
    · rw [List.count_cons_self] at hds
      have hlast : s.proc = .stopQueue := by
        by_contra hp
        rw [if_neg hp] at hds
        omega
      rw [if_pos hlast] at hds
      exact ih (h.step hctl fun _ => hlast) (hctl.step .proc) (by omega)
    · rw [List.count_cons_of_ne hne] at hds
      refine ih (h.step hctl fun ha => absurd ha hne) (hctl.step a) ?_
      rwa [proc_step hne]

theorem mask_setIntmask (h : 0 < s.tails) : (s.setIntmask.line side).mask = true := by
  rw [PollSys.setIntmask, if_neg (Nat.ne_of_gt h)]
  cases side with
  | tx => simp [setMask, line_setLine_of_ne (show Side.tx ≠ .rx by decide)]
  | rx => simp [setMask]

end PollSys

/-- `accnet_stop` leaves both interrupts masked exactly if no poll on another CPU is between `napi_complete_done`
    and `set_intmask` when it clears the mask. -/
theorem stop_masks_iff (k : Kernel) (cap budget : Nat) (acts : List PollAct) (s : PollSys)
    (hs : s = acts.foldl (PollSys.step k cap budget) PollSys.init) (hclear : s.proc = .clearMask) :
    (∀ ds : List PollAct, ds.count .proc ≤ 1 → ∀ side,
      (((PollAct.proc :: ds).foldl (PollSys.step k cap budget) s).line side).mask = false) ↔ s.tails = 0 := by
  have hctl : PollSys.Ctl s := hs ▸ PollSys.ctl_always k cap budget acts
  have hstep : s.step k cap budget .proc = { (s.setMask .tx false).setMask .rx false with proc := .stopQueue } := by
    rw [PollSys.step, PollSys.procStep, hclear]
  simp only [List.foldl_cons]
  constructor
  · intro hmask
    by_contra hne
    have htails : 0 < (s.step k cap budget .proc).tails := by
      rw [hstep]
      exact Nat.pos_of_ne_zero hne
    have := hmask [.setIntmask] (by decide) .rx
    rw [List.foldl_cons, List.foldl_nil, PollSys.step, PollSys.mask_setIntmask htails] at this
    cases this
  · intro htails ds hds
    refine (PollSys.Shut.foldl ?_ (hctl.step .proc) (by rwa [hstep])).mask
    rw [hstep]
    refine ⟨.inl rfl, htails, fun side => ?_⟩
    cases side with
    | tx => simp [PollSys.setMask, PollSys.line_setLine_of_ne (show Side.tx ≠ .rx by decide)]
    | rx => simp [PollSys.setMask]

def openStop : List PollAct := List.replicate 72 .proc

theorem stop_masks_iff_openStop :
    (openStop.foldl (PollSys.step plainKernel 127 64) PollSys.init).proc = .clearMask ∧
      ((openStop ++ [PollAct.proc, PollAct.proc]).foldl (PollSys.step plainKernel 127 64) PollSys.init).proc = .closed ∧
      ((∀ ds : List PollAct, ds.count .proc ≤ 1 → ∀ side,
        (((PollAct.proc :: ds).foldl (PollSys.step plainKernel 127 64)
          (openStop.foldl (PollSys.step plainKernel 127 64) PollSys.init)).line side).mask = false) ↔
        (openStop.foldl (PollSys.step plainKernel 127 64) PollSys.init).tails = 0) :=
  ⟨by decide +kernel, by decide +kernel, stop_masks_iff plainKernel 127 64 openStop _ rfl (by decide +kernel)⟩

end FireMarshal.Accnet
