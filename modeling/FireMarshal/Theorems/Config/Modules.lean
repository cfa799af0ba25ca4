import FireMarshal.Config.Init
import FireMarshal.Theorems.Config.Groups

/-! Chains whose groups 'linux' cannot be merged, because no module is mentioned in the first two of them. -/

namespace FireMarshal

/-- Both have a group 'linux', and neither of these has an entry 'modules'. -/
def Config.BothLackModules (child base : Config) : Prop :=
  ∃ l ∈ child.linux, ∃ b ∈ base.linux, l.modules = none ∧ b.modules = none

variable {wlutilDir : String} {child base root : Config} {cs : List Config}

theorem inheritLinuxOpts_error {e : PyError} :
    inheritLinuxOpts child.linux base.linux = .error e ↔ e = .keyError "modules" ∧ child.BothLackModules base := by
  unfold Config.BothLackModules
  cases hl : child.linux with
  | none => simp [inheritLinuxOpts]
  | some l =>
    cases hb : base.linux with
    | none => simp [inheritLinuxOpts]
    | some b => cases hlm : l.modules <;> cases hbm : b.modules <;> simp [inheritLinuxOpts, hlm, hbm, eq_comm]

theorem inheritFirmwareOpts_error {config base : Option Firmware} {e : PyError}
    (h : inheritFirmwareOpts config base = .error e) : e = .keyError "opensbi-src" := by
  unfold inheritFirmwareOpts at h
  simp only at h
  split at h
  · cases h
  · split at h
    · cases h
      rfl
    · cases h

theorem applyBase_error : child.applyBase wlutilDir base = .error (.keyError "modules") ↔
    child.BothLackModules base := by
  have hlinux : ((child.inherit base).inheritTargets base).linux = child.linux := by
    rw [Config.inheritTargets_eq]
    rfl
  rw [Config.applyBase]
  simp only [hlinux]
  cases h : inheritLinuxOpts child.linux base.linux with
  | error e =>
    obtain ⟨rfl, hlack⟩ := inheritLinuxOpts_error.mp h
    exact ⟨fun _ => hlack, fun _ => rfl⟩
  | ok l =>
    have hno : ¬ child.BothLackModules base := fun hlack => by
      rw [inheritLinuxOpts_error.mpr ⟨rfl, hlack⟩] at h
      cases h
    simp only [hno, iff_false, Except.ok_bind]
    intro hraise
    cases hf : inheritFirmwareOpts ((child.inherit base).inheritTargets base).firmware base.firmware with
    | ok f =>
      rw [hf] at hraise
      cases hraise
    | error e =>
      rw [hf, inheritFirmwareOpts_error hf] at hraise
      exact absurd (Except.error.inj hraise) (by decide)

/-- Merging the groups of a configuration and its base raises an error exactly if both lack 'modules'. -/
theorem inheritLinuxOpts_raises_iff (wlutilDir : String) (child base : Config) :
    ((∃ e, inheritLinuxOpts child.linux base.linux = .error e) ↔ child.BothLackModules base) ∧
      (child.applyBase wlutilDir base = .error (.keyError "modules") ↔ child.BothLackModules base) := by
  refine ⟨⟨?_, fun h => ⟨_, inheritLinuxOpts_error.mpr ⟨rfl, h⟩⟩⟩, applyBase_error⟩
  rintro ⟨e, he⟩
  exact (inheritLinuxOpts_error.mp he).2

def chipyardBrBase : Config :=
  { name := "br-base", outDir := "/images/br-base"
    linux := some (initLinuxOpts "/board/br-base" { source := some "../../linux", config := some (.one "linux-config") })
    firmware := some (initFirmwareOpts "/board/br-base" { opensbiSrc := some "../../firmware/opensbi" }) }

def childOwnBin : Config :=
  { name := "inherit-childOwnBin", outDir := "/images/inherit-childOwnBin"
    linux := some (initLinuxOpts "/test/inherit" { config := some (.one "linux.kfrag") }) }

theorem childOwnBin_raises :
    childOwnBin.applyBase "/wlutil" chipyardBrBase = .error (.keyError "modules") := by decide +kernel

/-! ### Chains -/

def linuxGroups (root : Config) (cs : List Config) : List Linux := (cs ++ [root]).reverse.filterMap Config.linux

theorem linuxGroups_cons (root c : Config) (cs : List Config) :
    linuxGroups root (c :: cs) = linuxGroups root cs ++ c.linux.toList := by
  simp only [linuxGroups, List.cons_append, List.reverse_cons, List.filterMap_append]
  cases hc : c.linux <;> simp [hc]

def FirstLackModules (gs : List Linux) : Prop := ∃ g h rest, gs = g :: h :: rest ∧ g.modules = none ∧ h.modules = none

structure LinuxMerged (gs : List Linux) (l : Option Linux) : Prop where
  empty : gs = [] → l = none
  one : ∀ g, gs = [g] → l = some g
  more : 2 ≤ gs.length → ∃ g ∈ l, g.modules ≠ none
  lack : ¬ FirstLackModules gs

theorem linuxMerged_root (root : Config) : LinuxMerged (linuxGroups root []) root.linux := by
  have hgroups : linuxGroups root [] = root.linux.toList := by
    cases h : root.linux <;> simp [linuxGroups, h]
  rw [hgroups]
  cases root.linux with
  | none => exact ⟨fun _ => rfl, by simp, by simp, by simp [FirstLackModules]⟩
  | some g => exact ⟨by simp, by simp, by simp, by simp [FirstLackModules]⟩

variable {gs : List Linux}

theorem modules_of_merge {l b : Linux} {out : Option Linux} (h : inheritLinuxOpts (some l) (some b) = .ok out) :
    ∃ g ∈ out, g.modules ≠ none := by
  rcases inheritLinuxOpts_cases h with ⟨hl, -⟩ | ⟨hb, -⟩ | ⟨_, _, _, -, -, -, rfl⟩
  · cases hl
  · cases hb
  · exact ⟨_, rfl, by simp⟩

theorem LinuxMerged.step (hm : LinuxMerged gs base.linux) :
    (child.BothLackModules base ↔ FirstLackModules (gs ++ child.linux.toList)) ∧
      ∀ out, inheritLinuxOpts child.linux base.linux = .ok out → LinuxMerged (gs ++ child.linux.toList) out := by
  cases hl : child.linux with
  | none =>
    have hno : ¬ child.BothLackModules base := by simp [Config.BothLackModules, hl]
    refine ⟨by simp [hno, hm.lack], fun out hout => ?_⟩
    obtain rfl := Except.ok.inj hout
    simpa using hm
  | some l =>
    rcases gs with _ | ⟨g, _ | ⟨g', gs⟩⟩
    · have hbase := hm.empty rfl
      refine ⟨by simp [Config.BothLackModules, FirstLackModules, hl, hbase], fun out hout => ?_⟩
      rw [hbase] at hout
      obtain rfl := Except.ok.inj hout
      exact ⟨by simp, by simp, by simp, by simp [FirstLackModules]⟩
    · have hbase := hm.one g rfl
      have hiff : child.BothLackModules base ↔ FirstLackModules ([g] ++ (some l).toList) := by
        simp [Config.BothLackModules, FirstLackModules, hl, hbase, and_comm]
      refine ⟨hiff, fun out hout => ⟨by simp, by simp, fun _ => ?_, fun hlack => ?_⟩⟩
      · rw [hbase] at hout
        exact modules_of_merge hout
      · rw [← hl, inheritLinuxOpts_error.mpr ⟨rfl, hiff.mpr hlack⟩] at hout
        cases hout
    · -- There are modules already, so that nothing is missing from here on.
      obtain ⟨b, hbase, hb⟩ := hm.more (by simp)
      have hlack : ¬ FirstLackModules (g :: g' :: gs ++ (some l).toList) := by
        have hfirst := hm.lack
        simp only [FirstLackModules] at hfirst ⊢
        simpa using hfirst
      have hno : ¬ child.BothLackModules base := by
        rintro ⟨-, -, b', hb', -, hnone⟩
        rw [hbase] at hb'
        cases hb'
        exact hb hnone
      refine ⟨by simp only [hno, hlack], fun out hout => ⟨by simp, by simp, fun _ => ?_, hlack⟩⟩
      rw [hbase] at hout
      exact modules_of_merge hout

theorem resolveChain_cons_error {c : Config} {e : PyError} (h : resolveChain wlutilDir root (c :: cs) = .error e) :
    resolveChain wlutilDir root cs = .error e ∨
      ∃ rs, resolveChain wlutilDir root cs = .ok rs ∧ c.applyBase wlutilDir (rs.headD root) = .error e := by
  rw [resolveChain] at h
  cases hrs : resolveChain wlutilDir root cs with
  | error e' =>
    rw [hrs] at h
    exact .inl h
  | ok rs =>
    rw [hrs, Except.ok_bind] at h
    refine .inr ⟨rs, rfl, ?_⟩
    cases hv : c.applyBase wlutilDir (rs.headD root) with
    | error e' =>
      rw [hv] at h
      cases h
      rfl
    | ok v =>
      rw [hv] at h
      cases h

/-- A chain that is resolved has modules from its second group on. A chain that is not for lack of modules lacks them in
    the first two groups. -/
theorem resolveChain_modules (wlutilDir : String) (root : Config) (cs : List Config) :
    (∀ rs, resolveChain wlutilDir root cs = .ok rs → LinuxMerged (linuxGroups root cs) (rs.headD root).linux) ∧
      (resolveChain wlutilDir root cs = .error (.keyError "modules") → FirstLackModules (linuxGroups root cs)) := by
  induction cs with
  | nil =>
    refine ⟨fun rs h => ?_, fun h => by cases h⟩
    cases h
    exact linuxMerged_root root
  | cons c cs ih =>
    rw [linuxGroups_cons]
    refine ⟨fun rs h => ?_, fun h => ?_⟩
    · obtain ⟨v, rs, rfl, hrs, hv⟩ := resolveChain_cons.mp h
      exact (ih.1 rs hrs).step.2 _ (Config.applied_of_applyBase hv).linux
    · rcases resolveChain_cons_error h with h | ⟨rs, hrs, h⟩
      · obtain ⟨g, g', rest, hgs, hg, hg'⟩ := ih.2 h
        exact ⟨g, g', rest ++ c.linux.toList, by simp [hgs], hg, hg'⟩
      · exact (ih.1 rs hrs).step.1.mp (applyBase_error.mp h)

end FireMarshal
