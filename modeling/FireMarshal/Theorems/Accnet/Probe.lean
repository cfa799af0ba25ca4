import FireMarshal.Accnet.Probe

/-! What `accnet_probe` returns and leaves behind, for every outcome of its steps. It takes nothing back: every failure
    leaves the NAPI instance attached, and one after `register_netdev` leaves the net device registered. -/

namespace FireMarshal.Accnet
open Routine Errno

namespace ProbeEnv

def MapsRegion (env : ProbeEnv) (r : Region) : Prop :=
  (env.addressToResource r).1 = 0 ∧ (env.ioremapResource r).1 = 0

def ParsesAddr (env : ProbeEnv) : Prop :=
  (∀ r, r ≠ .control → env.findNode r = true) ∧ ∀ r, env.MapsRegion r

def ParsesIrq (env : ProbeEnv) : Prop := ∀ k < 2, env.parseAndMap k ≠ 0 ∧ (env.requestIrq k).1 = 0

def Attaches (env : ProbeEnv) : Prop := env.ofNode = true ∧ env.allocEtherdev = true

def RegistersNetdev (env : ProbeEnv) : Prop := env.Attaches ∧ env.ParsesAddr ∧ env.registerNetdev.1 = 0

def Completes (env : ProbeEnv) : Prop := env.ParsesIrq ∧ env.miscRegister.1 = 0

variable (env : ProbeEnv)

/-! ### Codes -/

theorem parseEngine_checks (r : Region) :
    Checks (· < 0) (env.findNode r = true ∧ env.MapsRegion r) (env.parseEngine r) := by
  refine .congr (.bind (checks_failIf fun _ => by decide) (.bind (checks_failIf fun _ => by decide)
    (checks_code (env.ioremapResource r)))) ?_
  simp [MapsRegion]

theorem parseAddr_checks : Checks (· < 0) env.ParsesAddr env.parseAddr := by
  have hcontrol : Checks (· < 0) (env.MapsRegion .control) env.parseControl :=
    (checks_code (env.addressToResource .control)).bind (checks_code (env.ioremapResource .control))
  refine .congr (.bind hcontrol (.bind (env.parseEngine_checks .rx) (.bind (env.parseEngine_checks .tx)
    (.bind (env.parseEngine_checks .udpRx) (env.parseEngine_checks .udpTx))))) ?_
  constructor
  · rintro ⟨hctl, ⟨hrx, hrx'⟩, ⟨htx, htx'⟩, ⟨hurx, hurx'⟩, hutx, hutx'⟩
    exact ⟨fun r hr => by cases r <;> first | assumption | exact absurd rfl hr, fun r => by cases r <;> assumption⟩
  · rintro ⟨hnode, hmaps⟩
    exact ⟨hmaps _, ⟨hnode _ (by decide), hmaps _⟩, ⟨hnode _ (by decide), hmaps _⟩, ⟨hnode _ (by decide), hmaps _⟩,
      hnode _ (by decide), hmaps _⟩

theorem parseIrq_checks : Checks (· < 0) env.ParsesIrq env.parseIrq := by
  have hone : ∀ k, Checks (· < 0) (env.parseAndMap k ≠ 0 ∧ (env.requestIrq k).1 = 0) (env.parseOneIrq k) := fun k =>
    .congr (.bind (checks_failIf fun _ => by decide) (checks_code (env.requestIrq k))) (by simp)
  refine .congr ((hone 0).bind (hone 1)) ?_
  simp only [ParsesIrq, Nat.forall_lt_succ_right, Nat.not_lt_zero, false_implies, implies_true, true_and]

/-! ### States -/

theorem parseAddr_snd (s : Probed) : (env.parseAddr.ret s).2 = s := by
  have hengine : ∀ r, Keeps (· = s) (env.parseEngine r) := fun r =>
    .bind (keeps_failIf _ _) fun _ => .bind (keeps_failIf _ _) fun _ => keeps_failIf _ _
  have hkeeps : Keeps (· = s) env.parseAddr :=
    .bind (.bind (keeps_failIf _ _) fun _ => keeps_failIf _ _) fun _ => .bind (hengine .rx) fun _ =>
      .bind (hengine .tx) fun _ => .bind (hengine .udpRx) fun _ => hengine .udpTx
  exact hkeeps.ret rfl

theorem parseIrq_snd (s : Probed) : (env.parseIrq.ret s).2 = s := by
  have hone : ∀ k, Keeps (· = s) (env.parseOneIrq k) := fun k => .bind (keeps_failIf _ _) fun _ => keeps_failIf _ _
  have hkeeps : Keeps (· = s) env.parseIrq := .bind (hone 0) fun _ => hone 1
  exact hkeeps.ret rfl

end ProbeEnv

/-! ### `accnet_probe` -/

variable (env : ProbeEnv)

theorem accnetProbe_returns : Returns (· ≠ 0) (env.RegistersNetdev ∧ env.Completes) (accnetProbe env) := by
  have hneg : ∀ r : Int, r < 0 → decide (r < 0) = true ∧ r ≠ 0 := fun r hr => ⟨decide_eq_true hr, Int.ne_of_lt hr⟩
  have hchecks : Checks (· ≠ 0) _ (accnetProbe env) :=
    .bind (checks_failIf fun _ => by decide) <| .bind (checks_failIf fun _ => by decide) <| .bind (checks_modify _) <|
    .call_bind env.parseAddr_checks.returns rfl hneg <|
    .bind (checks_failIf fun h => Int.ne_of_lt (of_decide_eq_true h)) <| .bind (checks_modify _) <|
    .call_bind env.parseIrq_checks.returns rfl hneg <| .bind (checks_failIf fun h => of_decide_eq_true h) <|
    .bind (checks_modify _) (checks_modify _)
  refine (hchecks.congr ?_).returns
  have hreg : decide (env.registerNetdev.1 < 0) = false ↔ env.registerNetdev.1 = 0 := by
    have hle := env.registerNetdev.2
    rw [decide_eq_false_iff_not]
    omega
  simp only [hreg, ProbeEnv.RegistersNetdev, ProbeEnv.Attaches, ProbeEnv.Completes, Bool.not_eq_false', true_and,
    and_true, and_assoc, ne_eq, decide_not, decide_eq_true_eq]

theorem accnetProbe_left : let s := ((accnetProbe env).ret {}).2
    ¬ env.Attaches ∧ s = {} ∨ env.Attaches ∧ ¬ env.RegistersNetdev ∧ s = { napi := true } ∨
      env.RegistersNetdev ∧ s.napi = true ∧ s.netdev = true := by
  simp only [accnetProbe, ret_failIf_bind, ret_call_bind, ret_modify_bind, ret_modify, env.parseAddr_snd,
    env.parseIrq_snd]
  by_cases hatt : env.Attaches
  · rw [hatt.1, hatt.2, if_neg (by decide), if_neg (by decide)]
    rcases env.parseAddr_checks.returns { napi := true } with ⟨hok, hret⟩ | ⟨hno, hret⟩
    · rw [hret, if_neg (by decide)]
      by_cases hreg : env.registerNetdev.1 < 0
      · rw [if_pos (decide_eq_true hreg)]
        exact .inr (.inl ⟨hatt, fun h => absurd h.2.2 (Int.ne_of_lt hreg), rfl⟩)
      · have hzero : env.registerNetdev.1 = 0 := Int.le_antisymm env.registerNetdev.2 (Int.not_lt.mp hreg)
        rw [hzero, if_neg (by decide)]
        refine .inr (.inr ⟨⟨hatt, hok, hzero⟩, ?_⟩)
        split
        · exact ⟨rfl, rfl⟩
        · split <;> exact ⟨rfl, rfl⟩
    · rw [if_pos (decide_eq_true hret)]
      exact .inr (.inl ⟨hatt, fun h => hno h.2.1, rfl⟩)
  · refine .inl ⟨hatt, ?_⟩
    cases hnode : env.ofNode with
    | false => rfl
    | true =>
      cases halloc : env.allocEtherdev with
      | false => rfl
      | true => exact absurd ⟨hnode, halloc⟩ hatt

theorem accnetProbe_detached_iff :
    ((((accnetProbe env).ret {}).1 ≠ 0 → ((accnetProbe env).ret {}).2.netdev = false) ↔
      (env.RegistersNetdev → env.Completes)) ∧
    ((((accnetProbe env).ret {}).1 ≠ 0 → ((accnetProbe env).ret {}).2.napi = false) ↔
      (env.Attaches → env.RegistersNetdev ∧ env.Completes)) := by
  rw [ne_eq, (accnetProbe_returns env).ret_eq_zero (fun _ h => h) {}]
  rcases accnetProbe_left env with ⟨hno, hs⟩ | ⟨hatt, hno, hs⟩ | ⟨hreg, hnapi, hnetdev⟩
  · have hreg : ¬ env.RegistersNetdev := fun h => hno h.1
    rw [hs]
    exact ⟨⟨fun _ h => absurd h hreg, fun _ _ => rfl⟩, fun _ h => absurd h hno, fun _ _ => rfl⟩
  · rw [hs]
    exact ⟨⟨fun _ h => absurd h hno, fun _ _ => rfl⟩, fun h _ => absurd (h fun hok => hno hok.1) (by decide),
      fun h hfail => absurd (h hatt) hfail⟩
  · rw [hnapi, hnetdev]
    by_cases hall : env.Completes
    · exact ⟨⟨fun _ _ => hall, fun _ hfail => absurd ⟨hreg, hall⟩ hfail⟩, fun _ _ => ⟨hreg, hall⟩,
        fun _ hfail => absurd ⟨hreg, hall⟩ hfail⟩
    · exact ⟨⟨fun h => absurd (h fun hok => hall hok.2) (by decide), fun h => absurd (h hreg) hall⟩,
        fun h => absurd (h fun hok => hall hok.2) (by decide), fun h => absurd (h hreg.1).2 hall⟩

theorem accnetProbe_leaves_netdev :
    (accnetProbe { parseAndMap := fun k => k + 1, requestIrq := fun k => if k = 1 then ⟨-einval, by decide⟩
      else ⟨0, by decide⟩ }).ret {} = (-einval, { napi := true, netdev := true }) ∧
    (accnetProbe { parseAndMap := fun k => k + 1, miscRegister := ⟨-enomem, by decide⟩ }).ret {} =
      (-enomem, { napi := true, netdev := true }) := by
  decide

/-- `accnet_remove` takes back all that a successful probe registers. -/
theorem accnetRemove_of_probed (h : ((accnetProbe env).ret {}).1 = 0) :
    accnetRemove ((accnetProbe env).ret {}).2 = { udpEngine := true } := by
  obtain ⟨⟨⟨hnode, halloc⟩, hparse, hreg⟩, hirqs, hmisc⟩ :=
    ((accnetProbe_returns env).ret_eq_zero (fun _ h => h) {}).mp h
  have haddr := fun s => (env.parseAddr_checks.returns.ret_eq_zero_of_neg s).mpr hparse
  have hirq := fun s => (env.parseIrq_checks.returns.ret_eq_zero_of_neg s).mpr hirqs
  simp only [accnetProbe, ret_failIf_bind, ret_call_bind, ret_modify_bind, ret_modify, env.parseAddr_snd,
    env.parseIrq_snd, hnode, halloc, haddr, hreg, hirq, hmisc]
  rfl

end FireMarshal.Accnet
