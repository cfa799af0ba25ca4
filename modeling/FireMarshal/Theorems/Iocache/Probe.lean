import FireMarshal.Iocache.Probe
import FireMarshal.Theorems.Iocache.Rows

/-! What `iocache_probe` returns and leaves behind, for every outcome of its steps.

It takes nothing back. Up to `plic_set_prio` that is right, since nothing is there to take back yet; a probe that fails
later leaves the interrupt masks set, and whatever buffers and PLIC source handlers it had come to. Three failures are
not returned: an interrupt without a hardware interrupt, in `plic_set_prio` and in most cases in
`plic_register_fast_path`, and a failing `misc_register`. -/

namespace FireMarshal.Iocache
open Routine Errno

namespace ProbeEnv

def ParsesIrq (env : ProbeEnv) (k : Nat) : Prop := env.parseAndMap k ≠ 0 ∧ (env.requestIrq k).1 = 0

/-- The steps before the first one that leaves something behind succeed. -/
@[mk_iff]
structure Prepared (env : ProbeEnv) : Prop where
  ofNode : env.ofNode = true
  kzalloc : env.kzalloc = true
  addr : env.addressToResource.1 = 0 ∧ env.ioremapResource.1 = 0
  irq : ∀ k < 2 * numCpus, env.ParsesIrq k
  plic : env.plicNode = true ∧ env.plicIomap = true

def RingsAllocated (env : ProbeEnv) : Prop :=
  ∀ i < cacheEntryCount, (env.dmaTx i).isSome = true ∧ (env.dmaRx i).isSome = true

/-- `plic_register_fast_path` resolves an interrupt and registers its handler. -/
def Registers (env : ProbeEnv) (k : Nat) : Prop := env.fastHwirq k ≠ 0 ∧ (env.registerSourceHandler k).1 = 0

/-- The loop of `plic_register_fast_path` ends at an interrupt that is not resolved, while `ret` is 0. -/
def StopsUnnoticed (env : ProbeEnv) : Prop :=
  ∃ k < 2 * numCpus, (∀ j < k, env.Registers j) ∧ env.fastHwirq k = 0 ∧ (k = 0 → env.uninit = 0)

def FastPath (env : ProbeEnv) : Prop := (∀ k < 2 * numCpus, env.Registers k) ∨ env.StopsUnnoticed

variable (env : ProbeEnv)

/-! ### Codes -/

theorem parseAddr_checks : Checks (· < 0) (env.addressToResource.1 = 0 ∧ env.ioremapResource.1 = 0) env.parseAddr :=
  (checks_code env.addressToResource).bind (checks_code env.ioremapResource)

theorem parseOneIrq_checks (k : Nat) : Checks (· < 0) (env.ParsesIrq k) (env.parseOneIrq k) := by
  refine .congr (.bind (checks_failIf fun _ => by decide) (checks_code (env.requestIrq k))) ?_
  simp [ParsesIrq]

theorem forall_cpu_iff {P : Nat → Prop} :
    (∀ i ∈ List.range numCpus, P (2 * i) ∧ P (2 * i + 1)) ↔ ∀ k < 2 * numCpus, P k := by
  constructor
  · intro h k hk
    have hcpu := h (k / 2) (List.mem_range.mpr (by omega))
    rcases Nat.mod_two_eq_zero_or_one k with hmod | hmod
    · rw [← Nat.div_add_mod k 2, hmod]
      exact hcpu.1
    · rw [← Nat.div_add_mod k 2, hmod]
      exact hcpu.2
  · intro h i hi
    have hi := List.mem_range.mp hi
    exact ⟨h _ (by omega), h _ (by omega)⟩

theorem parseIrq_checks : Checks (· < 0) (∀ k < 2 * numCpus, env.ParsesIrq k) env.parseIrq :=
  .congr (.forM fun i _ => (env.parseOneIrq_checks (2 * i)).bind (env.parseOneIrq_checks (2 * i + 1))) forall_cpu_iff

theorem mapPlicBase_checks : Checks (· < 0) (env.plicNode = true ∧ env.plicIomap = true) env.mapPlicBase := by
  refine .congr (.bind (checks_failIf fun _ => by decide)
    (.bind (checks_failIf fun _ => by decide) (checks_modify _))) ?_
  simp

theorem setPrio_checks (k : Nat) : Checks (· = 0) (env.prioHwirq k ≠ 0) (env.setPrio 0 k) :=
  .congr (checks_failIf fun _ => rfl) (by simp)

theorem plicSetPrio_returns : Returns (· < 0) (env.plicNode = true ∧ env.plicIomap = true) env.plicSetPrio := by
  intro s
  rw [plicSetPrio, ret_call_bind, ret_failIf_bind]
  rcases env.mapPlicBase_checks.returns s with ⟨hok, hret⟩ | ⟨hno, hret⟩
  · refine .inl ⟨hok, ?_⟩
    rw [hret]
    have hloop := Checks.forM fun i (_ : i ∈ List.range numCpus) =>
      (env.setPrio_checks (2 * i)).bind (env.setPrio_checks (2 * i + 1))
    rcases hloop.returns (env.mapPlicBase.ret s).2 with ⟨-, h⟩ | ⟨-, h⟩ <;> exact h
  · refine .inr ⟨hno, ?_⟩
    rw [if_pos (by simpa using Int.ne_of_lt hret)]
    exact hret

theorem initUdpRing_checks (i : Nat) :
    Checks (· < 0) ((env.dmaTx i).isSome = true ∧ (env.dmaRx i).isSome = true) (env.initUdpRing i) := by
  refine .congr (.bind (checks_failIf fun _ => by decide) (.bind (checks_modify _)
    (.bind (checks_failIf fun _ => by decide) (checks_modify _)))) ?_
  simp

theorem initUdpRings_checks : Checks (· < 0) env.RingsAllocated env.initUdpRings := by
  refine .congr (.forM fun i _ => env.initUdpRing_checks i) ?_
  simp only [RingsAllocated, List.mem_range]

/-! ### `plic_register_fast_path` -/

variable {env}

theorem exec_registerIrq_of_registers {k : Nat} (h : env.Registers k) (r : Int) (s : Probed) :
    (env.registerIrq r k).exec s = (.ok 0, { s with handlers := s.handlers ++ [env.fastHwirq k] }) := by
  rw [registerIrq, exec_failIf_bind, decide_eq_false h.1, if_neg Bool.false_ne_true]
  simp only [h.2]
  rfl

theorem exec_registerIrq_of_not {k : Nat} (h : ¬ env.Registers k) (r : Int) (s : Probed) :
    (env.registerIrq r k).exec s =
      (.error (if env.fastHwirq k = 0 then r else (env.registerSourceHandler k).1), s) := by
  rw [registerIrq, exec_failIf_bind]
  by_cases hirq : env.fastHwirq k = 0
  · simp [hirq]
  · have hret : (env.registerSourceHandler k).1 ≠ 0 := fun hret => h ⟨hirq, hret⟩
    simp [hirq, hret, exec_failIf_bind]

variable (env)

theorem exec_registerIrq_loop (n a : Nat) (r : Int) (s : Probed) :
    (∀ k, a ≤ k → k < a + n → env.Registers k) ∧
      (∃ r', (((List.range' a n).foldlM env.registerIrq r).exec s).1 = .ok r') ∨
    ∃ k, a ≤ k ∧ k < a + n ∧ (∀ j, a ≤ j → j < k → env.Registers j) ∧ ¬ env.Registers k ∧
      (((List.range' a n).foldlM env.registerIrq r).exec s).1 =
        .error (if env.fastHwirq k = 0 then if k = a then r else 0 else (env.registerSourceHandler k).1) := by
  induction n generalizing a r s with
  | zero => exact .inl ⟨fun k h h' => absurd h (by omega), r, rfl⟩
  | succ n ih =>
    rw [List.range'_succ, List.foldlM_cons]
    by_cases ha : env.Registers a
    · rw [exec_bind_ok (exec_registerIrq_of_registers ha r s)]
      have hcons : ∀ {j}, a ≤ j → (a + 1 ≤ j → env.Registers j) → env.Registers j := fun hj h => by
        rcases Nat.eq_or_lt_of_le hj with rfl | hlt
        · exact ha
        · exact h hlt
      rcases ih (a + 1) 0 { s with handlers := s.handlers ++ [env.fastHwirq a] } with
        ⟨hall, hexec⟩ | ⟨k, hak, hk, hbefore, hno, hexec⟩
      · exact .inl ⟨fun k hk hlt => hcons hk fun h => hall k h (by omega), hexec⟩
      · refine .inr ⟨k, by omega, by omega, fun j hj hlt => hcons hj fun h => hbefore j h hlt, hno, ?_⟩
        rw [hexec, ite_self, if_neg (by omega : k ≠ a)]
    · rw [exec_bind_error (exec_registerIrq_of_not ha r s)]
      exact .inr ⟨a, Nat.le_refl a, by omega, fun j hj hlt => absurd hj (by omega), ha, by simp⟩

theorem plicRegisterFastPath_eq : env.plicRegisterFastPath =
    ((List.range' 0 (2 * numCpus)).foldlM env.registerIrq env.uninit >>= fun _ => pure ()) := by
  simp [plicRegisterFastPath, numCpus, List.range, List.range.loop, List.range']

theorem fastPath_iff_of_first {k : Nat} (hk : k < 2 * numCpus) (hbefore : ∀ j < k, env.Registers j)
    (hno : ¬ env.Registers k) : env.FastPath ↔
      (if env.fastHwirq k = 0 then if k = 0 then env.uninit else 0 else (env.registerSourceHandler k).1) = 0 := by
  constructor
  · rintro (hall | ⟨k', -, hbefore', hirq, huninit⟩)
    · exact absurd (hall k hk) hno
    · rcases Nat.lt_trichotomy k k' with hlt | rfl | hlt
      · exact absurd (hbefore' k hlt) hno
      · by_cases h0 : k = 0
        · rw [if_pos hirq, if_pos h0, huninit h0]
        · simp [hirq, h0]
      · exact absurd hirq (hbefore k' hlt).1
  · intro hcode
    by_cases hirq : env.fastHwirq k = 0
    · rw [if_pos hirq] at hcode
      exact .inr ⟨k, hk, hbefore, hirq, fun h0 => by rwa [if_pos h0] at hcode⟩
    · rw [if_neg hirq] at hcode
      exact absurd ⟨hirq, hcode⟩ hno

theorem plicRegisterFastPath_returns : Returns (· ≠ 0) env.FastPath env.plicRegisterFastPath := by
  intro s
  have hloop := env.exec_registerIrq_loop (2 * numCpus) 0 env.uninit s
  rw [plicRegisterFastPath_eq, ret, exec_bind]
  generalize ((List.range' 0 (2 * numCpus)).foldlM env.registerIrq env.uninit).exec s = out at hloop ⊢
  obtain ⟨a, t⟩ := out
  rcases hloop with ⟨hall, r', rfl⟩ | ⟨k, -, hk, hbefore, hno, rfl⟩
  · exact .inl ⟨.inl fun k hk => hall k (Nat.zero_le k) (by omega), rfl⟩
  · have hiff := env.fastPath_iff_of_first (by omega) (fun j hj => hbefore j (Nat.zero_le j) hj) hno
    by_cases hfast : env.FastPath
    · exact .inl ⟨hfast, hiff.mp hfast⟩
    · exact .inr ⟨hfast, mt hiff.mpr hfast⟩

/-! ### States -/

theorem parseAddr_snd (s : Probed) : (env.parseAddr.ret s).2 = s := by
  have hkeeps : Keeps (· = s) env.parseAddr := .bind (keeps_failIf _ _) fun _ => keeps_failIf _ _
  exact hkeeps.ret rfl

theorem parseIrq_snd (s : Probed) : (env.parseIrq.ret s).2 = s := by
  have hone : ∀ k, Keeps (· = s) (env.parseOneIrq k) := fun k => .bind (keeps_failIf _ _) fun _ => keeps_failIf _ _
  have hkeeps : Keeps (· = s) env.parseIrq := .forM fun i _ => .bind (hone (2 * i)) fun _ => hone (2 * i + 1)
  exact hkeeps.ret rfl

theorem plicSetPrio_of_not_plic (h : ¬ (env.plicNode = true ∧ env.plicIomap = true)) (s : Probed) :
    (env.plicSetPrio.ret s).2 = s := by
  have hmap : (env.mapPlicBase.ret s).2 = s := by
    rw [mapPlicBase, ret_failIf_bind, ret_failIf_bind]
    cases hnode : env.plicNode <;> cases hmap : env.plicIomap <;> simp_all
  rcases env.mapPlicBase_checks.returns s with ⟨hok, -⟩ | ⟨-, hret⟩
  · exact absurd hok h
  · rw [plicSetPrio, ret_call_bind, ret_failIf_bind, if_pos (by simpa using Int.ne_of_lt hret), hmap]

theorem plicSetPrio_dev (s : Probed) : (env.plicSetPrio.ret s).2.dev = s.dev := by
  have hone : ∀ r k, Keeps (·.dev = s.dev) (env.setPrio r k) := fun r k => keeps_failIf _ _
  have hmap : Keeps (·.dev = s.dev) env.mapPlicBase :=
    .bind (keeps_failIf _ _) fun _ => .bind (keeps_failIf _ _) fun _ => keeps_modify fun _ h => h
  have hkeeps : Keeps (·.dev = s.dev) env.plicSetPrio :=
    .bind hmap.call fun r => .bind (keeps_failIf _ _) fun _ => .forM fun i _ => .bind (hone r _) fun _ => hone r _
  exact hkeeps.ret rfl

theorem plicRegisterFastPath_keeps {p : Probed → Prop}
    (h : ∀ s k, p s → p { s with handlers := s.handlers ++ [env.fastHwirq k] }) : Keeps p env.plicRegisterFastPath := by
  have hone : ∀ r k, Keeps p (env.registerIrq r k) := fun r k s hs => by
    by_cases hk : env.Registers k
    · rw [exec_registerIrq_of_registers hk]
      exact h s k hs
    · rw [exec_registerIrq_of_not hk]
      exact hs
  refine Keeps.bind (Keeps.foldlM (fun r i _ => (hone r _).bind fun r => hone r _) _) fun _ s hs => hs

theorem initUdpRings_keeps {p : Probed → Prop} (h : ∀ s b, p s → p { s with dma := s.dma ++ [b] }) :
    Keeps p env.initUdpRings :=
  .forM fun i _ => .bind (keeps_failIf _ _) fun _ => .bind (keeps_modify fun s => h s (.tx i)) fun _ =>
    .bind (keeps_failIf _ _) fun _ => keeps_modify fun s => h s (.rx i)

end ProbeEnv

/-! ### `iocache_probe` -/

variable (env : ProbeEnv)

theorem iocacheProbe_returns :
    Returns (· ≠ 0) (env.Prepared ∧ env.RingsAllocated ∧ env.FastPath) (iocacheProbe env) := by
  have hneg : ∀ r : Int, r < 0 → decide (r < 0) = true ∧ r ≠ 0 := fun r hr => ⟨decide_eq_true hr, Int.ne_of_lt hr⟩
  have hne : ∀ r : Int, r < 0 → decide (r ≠ 0) = true ∧ r ≠ 0 := fun r hr =>
    ⟨decide_eq_true (Int.ne_of_lt hr), Int.ne_of_lt hr⟩
  have hchecks : Checks (· ≠ 0) _ (iocacheProbe env) :=
    .bind (checks_failIf fun _ => by decide) <| .bind (checks_failIf fun _ => by decide) <|
    .call_bind env.parseAddr_checks.returns rfl hneg <| .call_bind env.parseIrq_checks.returns rfl hneg <|
    .call_bind env.plicSetPrio_returns rfl hne <| .bind (checks_modify _) <| .bind (checks_modify _) <|
    .call_bind env.initUdpRings_checks.returns rfl hne <| .bind (checks_modify _) <|
    .call_bind env.plicRegisterFastPath_returns rfl (fun r hr => ⟨decide_eq_true hr, hr⟩) (checks_modify _)
  refine (hchecks.congr ?_).returns
  rw [ProbeEnv.prepared_iff]
  simp only [Bool.not_eq_false', true_and, and_true, and_assoc]

/-! ### What is left behind -/

/-- Nothing is left that the kernel does not release by itself. -/
structure Probed.Clean (s : Probed) : Prop where
  handlers : s.handlers = []
  dma : s.dma = []
  masks : ∀ cpu < numCpus, s.dev.regs (regIntmaskRx cpu) = 0 ∧ s.dev.regs (regIntmaskTxcomp cpu) = 0
  plicMapped : s.plicMapped = false
  forAll : s.forAll = false

theorem iocacheProbe_of_not_prepared (h : ¬ env.Prepared) : ((iocacheProbe env).ret {}).2 = {} := by
  simp only [iocacheProbe, ret_failIf_bind, ret_call_bind, env.parseAddr_snd, env.parseIrq_snd]
  split
  · rfl
  · next hnode =>
    split
    · rfl
    · next halloc =>
      split
      · rfl
      · next haddr =>
        split
        · rfl
        · next hirq =>
          have hplic : ¬ (env.plicNode = true ∧ env.plicIomap = true) := fun hplic => h
            ⟨by simpa using hnode, by simpa using halloc, env.parseAddr_checks.returns.ok_of_not (by simpa using haddr),
              env.parseIrq_checks.returns.ok_of_not (by simpa using hirq), hplic⟩
          have hret : (env.plicSetPrio.ret {}).1 ≠ 0 := mt (env.plicSetPrio_returns.ret_eq_zero_of_neg {}).mp hplic
          rw [if_pos (decide_eq_true hret), env.plicSetPrio_of_not_plic hplic]

theorem iocacheProbe_of_prepared (h : env.Prepared) : ∃ s : Probed,
    s.dev = (List.range numCpus).foldl Dev.setIntmasks Dev.reset ∧ (iocacheProbe env).ret {} = Routine.ret (do
      let ret ← call env.initUdpRings
      failIf (ret ≠ 0) ret
      modify fun s => { s with dev := env.populateRingInfo s.dev }
      let ret ← call env.plicRegisterFastPath
      failIf (ret ≠ 0) ret
      modify fun s => { s with misc := env.miscRegister.1 = 0 }) s := by
  have haddr := (env.parseAddr_checks.returns.ret_eq_zero_of_neg {}).mpr h.addr
  have hirq := (env.parseIrq_checks.returns.ret_eq_zero_of_neg {}).mpr h.irq
  have hplic := (env.plicSetPrio_returns.ret_eq_zero_of_neg {}).mpr h.plic
  simp only [iocacheProbe, ret_failIf_bind, ret_call_bind, ret_modify_bind, h.ofNode, h.kzalloc, env.parseAddr_snd,
    env.parseIrq_snd, haddr, hirq, hplic]
  exact ⟨_, congrArg (fun d => (List.range numCpus).foldl Dev.setIntmasks d) (env.plicSetPrio_dev {}), rfl⟩

theorem regs_populateRow_of_lt {rxBase txBase : Nat → BitVec 64} (d : Dev) {i : Nat} (hi : i < cacheEntryCount)
    {a : Addr} (ha : a.toNat < 0x300) : (d.populateRow rxBase txBase i).regs a = d.regs a := by
  have hne : ∀ f, a ≠ reg (BitVec.ofNat 32 i) f := by
    rintro f rfl
    exact not_inTable_of_lt ha (inTable_reg_iff.mpr (inRange_ofNat hi))
  simp only [Dev.populateRow, Dev.iowrite, Function.update_of_ne (hne _)]

theorem regs_populateRingInfo_of_lt (d : Dev) {a : Addr} (ha : a.toNat < 0x300) :
    (env.populateRingInfo d).regs a = d.regs a := by
  have hrows : ∀ is : List Nat, (∀ i ∈ is, i < cacheEntryCount) → ∀ d,
      (is.foldl (Dev.populateRow env.rxBase env.txBase) d).regs a = d.regs a := by
    intro is his
    induction is with
    | nil => exact fun d => rfl
    | cons i is ih =>
      intro d
      rw [List.foldl_cons, ih fun j hj => his j (List.mem_cons_of_mem _ hj)]
      exact regs_populateRow_of_lt d (his i List.mem_cons_self) ha
  exact hrows _ (fun i hi => List.mem_range.mp hi) d

theorem iocacheProbe_mask (h : env.Prepared) : ((iocacheProbe env).ret {}).2.dev.regs (regIntmaskRx 0) = 1 := by
  obtain ⟨s, hdev, hret⟩ := iocacheProbe_of_prepared env h
  rw [hret]
  refine Keeps.ret (p := fun t : Probed => t.dev.regs (regIntmaskRx 0) = 1) ?_ (by rw [hdev]; decide)
  exact .bind (env.initUdpRings_keeps fun _ _ ht => ht).call fun _ => .bind (keeps_failIf _ _) fun _ =>
    .bind (keeps_modify fun t ht => (regs_populateRingInfo_of_lt env t.dev (by decide)).trans ht) fun _ =>
    .bind (env.plicRegisterFastPath_keeps fun _ _ ht => ht).call fun _ => .bind (keeps_failIf _ _) fun _ =>
    keeps_modify fun _ ht => ht

/-- `iocache_probe` leaves nothing behind when it fails, unless it comes to allocating the rings: a failure there or
    in `plic_register_fast_path` is not cleaned up after. -/
theorem iocacheProbe_clean_iff :
    (((iocacheProbe env).ret {}).1 ≠ 0 → ((iocacheProbe env).ret {}).2.Clean) ↔
      (env.Prepared → env.RingsAllocated ∧ env.FastPath) := by
  have hzero := (iocacheProbe_returns env).ret_eq_zero (fun _ h => h) {}
  constructor
  · intro h hprep
    by_contra hno
    have hclean := h fun hret => hno (hzero.mp hret).2
    have hmask := (hclean.masks 0 (by decide)).1
    rw [iocacheProbe_mask env hprep] at hmask
    exact absurd hmask (by decide)
  · intro h hret
    have hprep : ¬ env.Prepared := fun hprep => hret (hzero.mpr ⟨hprep, h hprep⟩)
    rw [iocacheProbe_of_not_prepared env hprep]
    exact ⟨rfl, rfl, fun _ _ => ⟨rfl, rfl⟩, rfl, rfl⟩

def ProbeEnv.working : ProbeEnv where
  parseAndMap k := k + 1
  prioHwirq k := k + 1
  dmaTx i := some (BitVec.ofNat 64 (0x80000000 + 0x20000 * i))
  dmaRx i := some (BitVec.ofNat 64 (0x80010000 + 0x20000 * i))
  fastHwirq k := k + 1

/-- The RX buffer of row 5 cannot be allocated, or the TX completion handler of CPU 1 cannot be registered. -/
theorem iocacheProbe_leaves_traces :
    (let out := (iocacheProbe { ProbeEnv.working with dmaRx := fun i => if i = 5 then none else some 0 }).ret {}
     out.1 = -enomem ∧ out.2.dma.length = 11 ∧ out.2.dev.regs (regIntmaskRx 0) = 1) ∧
    (let out := (iocacheProbe { ProbeEnv.working with
       registerSourceHandler := fun k => if k = 3 then ⟨-einval, by decide⟩ else ⟨0, by decide⟩ }).ret {}
     out.1 = -einval ∧ out.2.handlers = [1, 2, 3] ∧ out.2.dma.length = 128 ∧
       out.2.dev.regs (regIntmaskTxcomp 3) = 1) := by
  decide +kernel

/-- A probe that succeeds leaves the device as the rows are later reserved in it. -/
theorem iocacheProbe_dev (h : ((iocacheProbe env).ret {}).1 = 0) :
    ((iocacheProbe env).ret {}).2.dev = Dev.probe env.rxBase env.txBase := by
  obtain ⟨hprep, hrings, -⟩ := ((iocacheProbe_returns env).ret_eq_zero (fun _ h => h) {}).mp h
  obtain ⟨s, hdev, hret⟩ := iocacheProbe_of_prepared env hprep
  have hzero := (env.initUdpRings_checks.returns.ret_eq_zero_of_neg s).mpr hrings
  have halloc : (env.initUdpRings.ret s).2.dev = s.dev :=
    Keeps.ret (p := fun t : Probed => t.dev = s.dev) (env.initUdpRings_keeps fun _ _ ht => ht) rfl
  rw [hret, ret_call_bind, ret_failIf_bind, hzero, if_neg (by decide), ret_modify_bind]
  refine Keeps.ret (p := fun t : Probed => t.dev = Dev.probe env.rxBase env.txBase) ?_ (by rw [halloc, hdev]; rfl)
  exact .bind (env.plicRegisterFastPath_keeps fun _ _ ht => ht).call fun _ => .bind (keeps_failIf _ _) fun _ =>
    keeps_modify fun _ ht => ht

/-! ### What is returned -/

namespace ProbeEnv

structure AllSucceed (env : ProbeEnv) : Prop where
  prepared : env.Prepared
  prios : ∀ k < 2 * numCpus, env.prioHwirq k ≠ 0
  rings : env.RingsAllocated
  handlers : ∀ k < 2 * numCpus, env.Registers k
  misc : env.miscRegister.1 = 0

/-- 0 is returned for success, by `iocache_probe` and the two functions that go through the interrupts, and only for
    success. -/
structure Faithful (env : ProbeEnv) : Prop where
  probe : ((iocacheProbe env).ret {}).1 = 0 ↔ env.AllSucceed
  prio : ∀ s, (env.plicSetPrio.ret s).1 = 0 → ∀ k < 2 * numCpus, env.prioHwirq k ≠ 0
  fastPath : ∀ s, (env.plicRegisterFastPath.ret s).1 = 0 → ∀ k < 2 * numCpus, env.Registers k
  misc : env.miscRegister.1 ≠ 0 → ((iocacheProbe env).ret {}).1 ≠ 0

/-- The codes of `iocache_probe` and of what it calls tell success from failure, but for three: an interrupt is not
    resolved in `plic_set_prio`, or in `plic_register_fast_path` while `ret` is 0, or `misc_register` fails. -/
theorem faithful_iff : env.Faithful ↔
    (env.plicNode = true ∧ env.plicIomap = true → ∀ k < 2 * numCpus, env.prioHwirq k ≠ 0) ∧
    ¬ env.StopsUnnoticed ∧
    (env.Prepared → env.RingsAllocated → (∀ k < 2 * numCpus, env.Registers k) → env.miscRegister.1 = 0) := by
  have hprobe := (iocacheProbe_returns env).ret_eq_zero (fun _ h => h) {}
  have hprio := env.plicSetPrio_returns.ret_eq_zero_of_neg
  have hfast := env.plicRegisterFastPath_returns.ret_eq_zero fun _ h => h
  constructor
  · intro h
    refine ⟨fun hplic => h.prio {} ((hprio {}).mpr hplic), ?_, ?_⟩
    · rintro ⟨k, hk, hbefore, hirq, huninit⟩
      exact (h.fastPath {} ((hfast {}).mpr (.inr ⟨k, hk, hbefore, hirq, huninit⟩)) k hk).1 hirq
    · intro hprep hrings hall
      exact (h.probe.mp (hprobe.mpr ⟨hprep, hrings, .inl hall⟩)).misc
  · rintro ⟨hresolved, hstops, hmisc⟩
    have hall : env.FastPath → ∀ k < 2 * numCpus, env.Registers k := fun h => h.resolve_right hstops
    have hok : ((iocacheProbe env).ret {}).1 = 0 → env.AllSucceed := fun h => by
      obtain ⟨hprep, hrings, hpath⟩ := hprobe.mp h
      exact ⟨hprep, hresolved hprep.plic, hrings, hall hpath, hmisc hprep hrings (hall hpath)⟩
    exact ⟨⟨hok, fun h => hprobe.mpr ⟨h.prepared, h.rings, .inl h.handlers⟩⟩,
      fun s h => hresolved ((hprio s).mp h), fun s h => hall ((hfast s).mp h), fun hne h => hne (hok h).misc⟩

theorem failures_unnoticed :
    (let out := (iocacheProbe { working with miscRegister := ⟨-einval, by decide⟩ }).ret {}
     out.1 = 0 ∧ out.2.misc = false) ∧
    (let env := { working with prioHwirq := fun k => if k = 3 then 0 else k + 1 }
     (env.plicSetPrio.ret {}).1 = 0 ∧ ((iocacheProbe env).ret {}).1 = 0) ∧
    (let env := { working with fastHwirq := fun k => if k = 3 then 0 else k + 1 }
     (env.plicRegisterFastPath.ret {}).1 = 0 ∧ ((iocacheProbe env).ret {}).1 = 0 ∧
       ((iocacheProbe env).ret {}).2.handlers = [1, 2, 3]) := by
  decide +kernel

end ProbeEnv
end FireMarshal.Iocache
