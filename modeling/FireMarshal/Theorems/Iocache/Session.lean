import FireMarshal.Theorems.Iocache.Free
import FireMarshal.Theorems.Iocache.Registrations
import FireMarshal.Theorems.Iocache.Wait

/-! What `iocache_close` leaves of `iocache_open` and of the calls in between. It clears the row, apart from
    `CONN_ID`, and empties the event context, whatever was there before; `migrate_disable` stays in force. -/

namespace FireMarshal.Iocache

def Field.IsCleared (f : Field) : Prop :=
  f ∈ [.enabled, .protocol, .srcIp, .srcPort, .dstIp, .dstPort, .rxSuspended, .procPtr, .procCpu]

instance (f : Field) : Decidable f.IsCleared := inferInstanceAs (Decidable (_ ∈ _))

def LibCall.connId (v : BitVec 64) : LibCall → BitVec 64
  | .setupConnection entry => entry.srcPort.setWidth 64
  | .waitOnRx _ => v

namespace Sys

variable {s t : Sys} {p : Task} {row : CInt} {cpu : Nat} {info info' : IocacheInfo} {env : OpenEnv}

structure Session (p : Task) (row : CInt) (depth : Nat) (connId : BitVec 64) (s : Sys) : Prop where
  can : s.dev.CanIoctl p
  id : s.dev.iocacheId p = row
  depth : s.migrate p = depth
  connId : s.dev.regs (reg row .connId) = connId

variable {depth : Nat} {connId : BitVec 64}

theorem dev_setEventfd (s : Sys) (p : Task) (arg : EfdArg) :
    (s.step (.setEventfd p arg)).dev = s.dev ∧ (s.step (.setEventfd p arg)).migrate = s.migrate := by
  simp only [step]
  split <;> exact ⟨rfl, rfl⟩

theorem iocacheOpen_eq (h : s.iocacheOpen p info row env = (0, info', t)) :
    t = (((s.step (.ring (.openDev p))).step (.setEventfd p env.efd)).step
      (.ring (.reserveRing p row env.kernelCpu env.copyIn env.copyOut))).regWrite (regIntmaskRx info'.cpu) 1 ∧
    info' = ⟨if env.copyIn && env.copyOut then row else info.row, env.cpu⟩ := by
  unfold iocacheOpen at h
  simp only [Dev.reserveRing_fst] at h
  split at h
  · cases h
  · split at h
    · cases h
    · split at h
      · cases h
      · split at h
        · cases h
        · obtain ⟨-, rfl, rfl⟩ := h
          refine ⟨rfl, ?_⟩
          cases env.copyIn <;> cases env.copyOut <;> rfl

theorem dev_iocacheOpen (hp : p ∈ s.dev.alive) (hin : env.copyIn = true) (hout : env.copyOut = true)
    (h : s.iocacheOpen p info row env = (0, info', t)) :
    info' = ⟨row, env.cpu⟩ ∧ t.migrate p = s.migrate p + 1 ∧
      t.dev = ({ s.dev with files := p :: s.dev.files }.reserveRing p row env.kernelCpu true true).2.iowrite
        (regIntmaskRx env.cpu) 1 := by
  obtain ⟨rfl, hinfo⟩ := iocacheOpen_eq h
  have hinfo : info' = ⟨row, env.cpu⟩ := by simpa [hin, hout] using hinfo
  -- The device when the row is reserved: the process has a file, and nothing else has changed.
  have hdev : ((s.step (.ring (.openDev p))).step (.setEventfd p env.efd)).dev =
      { s.dev with files := p :: s.dev.files } := by
    rw [(dev_setEventfd _ _ _).1]
    simp only [step, Dev.step, if_pos hp]
  have hmigrate : ((s.step (.ring (.openDev p))).step (.setEventfd p env.efd)).migrate = s.migrate :=
    (dev_setEventfd _ _ _).2
  generalize (s.step (.ring (.openDev p))).step (.setEventfd p env.efd) = u at hdev hmigrate
  have hcan : u.dev.CanIoctl p := by
    rw [hdev]
    exact ⟨hp, List.mem_cons_self⟩
  have hstep : (u.step (.ring (.reserveRing p row env.kernelCpu env.copyIn env.copyOut))).dev =
      (u.dev.reserveRing p row env.kernelCpu true true).2 := by
    simp only [hin, hout, step, Dev.step, if_pos hcan]
  refine ⟨hinfo, ?_, ?_⟩
  · show (u.step (.ring (.reserveRing p row env.kernelCpu env.copyIn env.copyOut))).migrate p = _
    simp only [hin, step, if_pos hcan, Function.update_self, hmigrate]
  · show (u.step (.ring (.reserveRing p row env.kernelCpu env.copyIn env.copyOut))).dev.iowrite _ _ = _
    rw [hstep, hdev, hinfo]

theorem session_open (hrow : InRange row) (hp : p ∈ s.dev.alive) (hin : env.copyIn = true) (hout : env.copyOut = true)
    (h : s.iocacheOpen p info row env = (0, info', t)) :
    info' = ⟨row, env.cpu⟩ ∧ Session p row (s.migrate p + 1) (s.dev.regs (reg row .connId)) t := by
  obtain ⟨hinfo, hdepth, hdev⟩ := dev_iocacheOpen hp hin hout h
  rw [Dev.reserveRing_snd] at hdev
  refine ⟨hinfo, ?_, ?_, hdepth, ?_⟩
  · rw [hdev]
    exact ⟨hp, List.mem_cons_self⟩
  · rw [hdev]
    exact Function.update_self ..
  · rw [hdev, Dev.regs_iowrite_of_lt (Dev.regIntmaskRx_lt env.cpu_lt) hrow]
    simp [Dev.reservedRegs, reg_eq_iff]

/-! ### Waiting in steps -/

def waitEvents : WaitOutcome → List WaitEvent
  | .failed => List.replicate 4 (.process false) ++ .process true :: List.replicate 1 (.process false)
  | .woken => List.replicate 8 (.process false) ++ .process true :: List.replicate 3 (.process false)
  | .timeout => List.replicate 9 (.process false) ++ List.replicate 4 .timer ++ List.replicate 3 (.process false)

def suspendedDev (o : Owner) (d : Dev) : Dev :=
  ((d.iowrite (reg o.row .rxSuspended) 1).iowrite (regIntmaskRx o.cpu) 1).waitReady o.p

theorem waitOnRx_steps {o : Owner} (hcan : s.dev.CanIoctl o.p) (hno : s.dev.isRxAvailable o.row = false)
    (outcome : WaitOutcome) :
    ((waitEvents outcome).foldl (WaitState.step o) ⟨s.dev, .outside none, .running, .idle⟩).dev =
      (s.waitOnRx o.p ⟨o.row, o.cpu⟩ outcome).dev := by
  have hioctl : ((s.regWrite (reg o.row .rxSuspended) 1).regWrite (regIntmaskRx o.cpu) 1).dev.CanIoctl o.p := hcan
  cases outcome with
  | failed => simp [waitEvents, WaitState.step, WaitState.process, waitOnRx, hno, List.replicate, regWrite]
  | woken =>
    simp only [waitOnRx, hno, Bool.false_eq_true, if_false, Sys.step, Dev.step, if_pos hioctl]
    simp [waitEvents, WaitState.step, WaitState.process, hno, List.replicate, regWrite]
  | timeout =>
    have hend : (s.waitOnRx o.p ⟨o.row, o.cpu⟩ .timeout).dev =
        ((suspendedDev o s.dev).timeoutCb o.p).iowrite (reg o.row .rxSuspended) 0 := by
      have halive : o.p ∈ (suspendedDev o s.dev).alive := hcan.1
      simp only [waitOnRx, hno, Bool.false_eq_true, if_false, Sys.step, Dev.step, if_pos hioctl]
      exact congrArg (Dev.iowrite · _ _) (if_pos halive)
    have hsleep : (List.replicate 9 (.process false)).foldl (WaitState.step o) ⟨s.dev, .outside none, .running, .idle⟩ =
        ⟨suspendedDev o s.dev, .hrtimerCancel, .asleep, .armed⟩ := by
      simp [WaitState.step, WaitState.process, hno, List.replicate, suspendedDev]
    have hfired : (⟨suspendedDev o s.dev, .hrtimerCancel, .asleep, .armed⟩ : WaitState).timerStep o =
        ⟨suspendedDev o s.dev, .hrtimerCancel, .asleep, .reading⟩ := rfl
    have hwake : (List.replicate 4 .timer).foldl (WaitState.step o)
        ⟨suspendedDev o s.dev, .hrtimerCancel, .asleep, .armed⟩ =
          ⟨(suspendedDev o s.dev).timeoutCb o.p, .hrtimerCancel, .running, .idle⟩ := by
      simp only [List.replicate, List.foldl_cons, List.foldl_nil, WaitState.step, hfired]
      exact WaitState.timeoutCb_steps rfl
    rw [waitEvents, List.foldl_append, List.foldl_append, hsleep, hwake, hend]
    rfl

/-! ### Calls -/

theorem Session.regWrite {a : Addr} {v : BitVec 64} (h : Session p row depth connId s) (ha : reg row .connId ≠ a) :
    Session p row depth connId (s.regWrite a v) :=
  ⟨h.can, h.id, h.depth, (Function.update_of_ne ha _ _).trans h.connId⟩

theorem Session.regWrite_reg {f : Field} {v : BitVec 64} (h : Session p row depth connId s) (hf : f ≠ .connId) :
    Session p row depth connId (s.regWrite (reg row f) v) :=
  h.regWrite fun heq => hf (reg_eq_iff.mp heq).2.symm

theorem Session.regWrite_connId {v : BitVec 64} (h : Session p row depth connId s) :
    Session p row depth v (s.regWrite (reg row .connId) v) :=
  ⟨h.can, h.id, h.depth, Function.update_self ..⟩

theorem Session.waitReady (h : Session p row depth connId s) :
    Session p row depth connId (s.step (.ring (.waitReady p))) := by
  have hstep : s.step (.ring (.waitReady p)) = s.regWrite (reg row .rxSuspended) 1 := by
    simp only [step, Dev.step, if_pos h.can, Dev.waitReady, h.id]
    rfl
  rw [hstep]
  exact h.regWrite_reg (by decide)

theorem Session.timeout (h : Session p row depth connId s) :
    Session p row depth connId (s.step (.ring (.timeout p))) := by
  by_cases h0 : s.dev.regs (reg row .rxSuspended) = 0
  · have hstep : s.step (.ring (.timeout p)) = s := by
      simp only [step, Dev.step, if_pos h.can.1, Dev.timeoutCb, h.id, if_pos h0]
      rfl
    rwa [hstep]
  · have hstep : s.step (.ring (.timeout p)) = s.regWrite (reg row .rxSuspended) 0 := by
      simp only [step, Dev.step, if_pos h.can.1, Dev.timeoutCb, h.id, if_neg h0]
      rfl
    rw [hstep]
    exact h.regWrite_reg (by decide)

theorem Session.call (hrow : InRange row) (hcpu : cpu < numCpus) (h : Session p row depth connId s) (c : LibCall) :
    Session p row depth (c.connId connId) (s.call p ⟨row, cpu⟩ c) := by
  cases c with
  | setupConnection entry =>
    have h := h.regWrite_reg (f := .protocol) (v := entry.protocol.setWidth 64) (by decide)
    have h := h.regWrite_reg (f := .srcIp) (v := entry.srcIp.setWidth 64) (by decide)
    have h := h.regWrite_reg (f := .srcPort) (v := entry.srcPort.setWidth 64) (by decide)
    have h := h.regWrite_reg (f := .dstIp) (v := entry.dstIp.setWidth 64) (by decide)
    have h := h.regWrite_reg (f := .dstPort) (v := entry.dstPort.setWidth 64) (by decide)
    exact h.regWrite_connId.regWrite_reg (by decide)
  | waitOnRx outcome =>
    simp only [Sys.call, Sys.waitOnRx]
    split
    · exact h
    · have hmask : Session p row depth connId
          ((s.regWrite (reg row .rxSuspended) 1).regWrite (regIntmaskRx cpu) 1) := by
        refine (h.regWrite_reg (by decide)).regWrite fun heq => ?_
        exact not_inTable_of_lt (Dev.regIntmaskRx_lt hcpu) (heq ▸ inTable_reg_iff.mpr hrow)
      cases outcome with
      | failed => exact hmask.regWrite_reg (by decide)
      | woken => exact hmask.waitReady.regWrite_reg (by decide)
      | timeout => exact hmask.waitReady.timeout.regWrite_reg (by decide)

theorem Session.calls (hrow : InRange row) (hcpu : cpu < numCpus) (calls : List LibCall)
    (h : Session p row depth connId s) :
    Session p row depth (calls.foldl LibCall.connId connId) (calls.foldl (Sys.call p ⟨row, cpu⟩) s) := by
  induction calls generalizing s connId with
  | nil => exact h
  | cons c calls ih => exact ih (h.call hrow hcpu c)

/-! ### The end of a session -/

theorem regs_regWrite {f g : Field} {v : BitVec 64} :
    (s.regWrite (reg row f) v).dev.regs (reg row g) = if g = f then v else s.dev.regs (reg row g) := by
  simp only [regWrite, Dev.regs_iowrite_reg, true_and]

theorem regs_clearConnection {g : Field} : (s.clearConnection row).dev.regs (reg row g) =
    if g ∈ [.protocol, .srcIp, .srcPort, .dstIp, .dstPort] then 0 else s.dev.regs (reg row g) := by
  cases g <;> simp [clearConnection, regs_regWrite]

theorem Session.clearConnection (h : Session p row depth connId s) :
    Session p row depth connId (s.clearConnection row) := by
  have h := h.regWrite_reg (f := .protocol) (v := 0) (by decide)
  have h := h.regWrite_reg (f := .srcIp) (v := 0) (by decide)
  have h := h.regWrite_reg (f := .srcPort) (v := 0) (by decide)
  have h := h.regWrite_reg (f := .dstIp) (v := 0) (by decide)
  exact h.regWrite_reg (by decide)

theorem Session.release (h : Session p row depth connId s) {t : Sys}
    (ht : t = (s.step (.ring (.freeRing p))).step (.ring (.close p))) :
    (∀ f, t.dev.regs (reg row f) = if f.IsOwner then 0 else s.dev.regs (reg row f)) ∧
      t.ev.evCtx = none ∧ t.migrate p = depth := by
  have hfree : (s.step (.ring (.freeRing p))).dev = s.dev.freeRing p := by
    simp only [step, Dev.step, if_pos h.can]
  have hfile : (s.step (.ring (.freeRing p))).sets (.ring (.close p)) = some (p, none) := by
    simp only [sets, hfree]
    exact if_pos h.can.2
  subst ht
  refine ⟨fun f => ?_, (step_of_sets_some hfile).1, h.depth⟩
  have hregs : ((s.step (.ring (.freeRing p))).step (.ring (.close p))).dev.regs = (s.dev.freeRing p).regs := by
    rw [← hfree]
    rfl
  rw [hregs, Dev.regs_freeRing, h.id]
  simp

theorem Session.close (h : Session p row depth connId s) (cpu : Nat) :
    (∀ f, (s.iocacheClose p ⟨row, cpu⟩).dev.regs (reg row f) =
      if f.IsCleared then 0 else s.dev.regs (reg row f)) ∧
    (s.iocacheClose p ⟨row, cpu⟩).ev.evCtx = none ∧ (s.iocacheClose p ⟨row, cpu⟩).migrate p = depth := by
  obtain ⟨hdev, hmigrate⟩ := dev_setEventfd s p .clear
  have hu : Session p row depth connId (s.step (.setEventfd p .clear)) :=
    ⟨hdev ▸ h.can, hdev ▸ h.id, hmigrate ▸ h.depth, hdev ▸ h.connId⟩
  have hw := (hu.regWrite_reg (f := .rxSuspended) (v := 0) (by decide)).clearConnection
  obtain ⟨hregs, hctx, hdepth⟩ := hw.release rfl
  refine ⟨fun f => ?_, hctx, hdepth⟩
  have hf := hregs f
  rw [regs_clearConnection, regs_regWrite, hdev] at hf
  refine hf.trans ?_
  cases f <;> simp [Field.IsOwner, Field.IsCleared]

/-- What a session touched is as it was before. -/
structure Restored (s t : Sys) (row : CInt) : Prop where
  regs : ∀ f : Field, f.IsCleared ∨ f = .connId → t.dev.regs (reg row f) = s.dev.regs (reg row f)
  evCtx : t.ev.evCtx = s.ev.evCtx

/-- A session leaves the process one level deeper in `migrate_disable`. The row and the event context are restored
    exactly if the row was clear, no context was registered, and `CONN_ID` was what the last connection wrote. -/
theorem session_restored_iff (hrow : InRange row) (hp : p ∈ s.dev.alive) (hin : env.copyIn = true)
    (hout : env.copyOut = true) (hopen : s.iocacheOpen p info row env = (0, info', t)) (calls : List LibCall) :
    ((calls.foldl (Sys.call p info') t).iocacheClose p info').migrate p = s.migrate p + 1 ∧
      (Restored s ((calls.foldl (Sys.call p info') t).iocacheClose p info') row ↔
        (∀ f : Field, f.IsCleared → s.dev.regs (reg row f) = 0) ∧ s.ev.evCtx = none ∧
          calls.foldl LibCall.connId (s.dev.regs (reg row .connId)) = s.dev.regs (reg row .connId)) := by
  obtain ⟨rfl, hsession⟩ := session_open hrow hp hin hout hopen
  have hcalls := hsession.calls hrow env.cpu_lt calls
  obtain ⟨hregs, hctx, hdepth⟩ := hcalls.close env.cpu
  refine ⟨hdepth, ?_⟩
  constructor
  · intro h
    refine ⟨fun f hf => ?_, ?_, ?_⟩
    · rw [← h.regs f (.inl hf), hregs, if_pos hf]
    · rw [← h.evCtx, hctx]
    · rw [← hcalls.connId, ← h.regs .connId (.inr rfl), hregs, if_neg (by decide)]
  · rintro ⟨hclear, hnone, hconn⟩
    refine ⟨fun f hf => ?_, ?_⟩
    · rw [hregs]
      split
      · next hcleared => exact (hclear f hcleared).symm
      · next hno =>
        obtain rfl := hf.resolve_left hno
        exact hcalls.connId.trans hconn
    · rw [hctx, hnone]

theorem numCpus_pos : 0 < numCpus := by decide

def sampleEnv : OpenEnv := { cpu := 0, cpu_lt := numCpus_pos, efd := .valid 7, kernelCpu := 0 }

def sampleSys : Sys := (probe (fun _ => 0) fun _ => 0).step (.ring (.spawn 1 0))

def sampleConnection : ConnectionInfo := ⟨17, 0x0a000001, 0x0a000002, 5000, 6000⟩

theorem session_restored_plain :
    (sampleSys.iocacheOpen 1 ⟨0, 0⟩ 3 sampleEnv).1 = 0 ∧
      Restored sampleSys ((sampleSys.iocacheOpen 1 ⟨0, 0⟩ 3 sampleEnv).2.2.iocacheClose 1 ⟨3, 0⟩) 3 := by
  have hclear : ∀ f : Field, f.IsCleared → sampleSys.dev.regs (reg 3 f) = 0 := by
    intro f
    cases f <;> decide +kernel
  have hopen : sampleSys.iocacheOpen 1 ⟨0, 0⟩ 3 sampleEnv =
      (0, ⟨3, 0⟩, (sampleSys.iocacheOpen 1 ⟨0, 0⟩ 3 sampleEnv).2.2) := rfl
  exact ⟨rfl, (session_restored_iff (by decide) (by decide +kernel) rfl rfl hopen []).2.mpr ⟨hclear, rfl, rfl⟩⟩

/-- After a session with a connection, on a row that is free: `CONN_ID` keeps the port, the process may not migrate,
    and the event context of another process is gone. -/
theorem session_leaves_traces :
    (∀ f : Field, f.IsCleared → sampleSys.dev.regs (reg 3 f) = 0) ∧
    (∃ info t, sampleSys.iocacheOpen 1 ⟨0, 0⟩ 3 sampleEnv = (0, info, t) ∧
      ((t.call 1 info (.setupConnection sampleConnection)).iocacheClose 1 info).dev.regs (reg 3 .connId) ≠
        sampleSys.dev.regs (reg 3 .connId) ∧
      ((t.call 1 info (.setupConnection sampleConnection)).iocacheClose 1 info).migrate 1 ≠ sampleSys.migrate 1) ∧
    (∃ s info t, s = [.ring (.spawn 2 0), .ring (.openDev 2), .setEventfd 2 (.valid 8)].foldl step sampleSys ∧
      s.iocacheOpen 1 ⟨0, 0⟩ 3 sampleEnv = (0, info, t) ∧ s.ev.evCtx = some 8 ∧
      (t.iocacheClose 1 info).ev.evCtx = none) := by
  refine ⟨fun f => ?_, ⟨_, _, Prod.ext ?_ rfl, by decide +kernel, by decide +kernel⟩,
    ⟨_, _, _, rfl, Prod.ext ?_ rfl, by decide +kernel, by decide +kernel⟩⟩
  · cases f <;> decide +kernel
  · decide +kernel
  · decide +kernel

end Sys
end FireMarshal.Iocache
