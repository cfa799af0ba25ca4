import FireMarshal.Config.Init
import FireMarshal.Lib.MemoView
import FireMarshal.Theorems.Config.Initialize

/-! What a configuration knows of its base after the initialisation, however often it was brought in. -/

namespace FireMarshal

/-- The files and scripts of a configuration, and those that it knows of its base. -/
structure Outline where
  name : String
  outDir : String
  hostInit : Option RunSpec
  img : Option String
  bin : Option String
  linux : Bool
  baseBin : Option String
  baseDeps : String → Prop

namespace Outline

def combine (c base : Outline) : Outline where
  name := c.name
  outDir := c.outDir
  hostInit := c.hostInit
  img := (base.img.map fun _ => joinPath c.outDir (c.name ++ ".img")).or c.img
  bin := if c.linux || base.linux then some (joinPath c.outDir (c.name ++ "-bin")) else c.bin.or base.bin
  linux := c.linux || base.linux
  baseBin := base.bin.or c.baseBin
  baseDeps s := c.baseDeps s ∨ base.img = some s ∨ base.hostInit.map RunSpec.str = some s

theorem combine_combine (c base : Outline) : (c.combine base).combine base = c.combine base := by
  simp only [combine, Bool.or_assoc, Bool.or_self, mk.injEq, true_and]
  refine ⟨?_, ?_, ?_, ?_⟩
  · cases base.img <;> simp
  · split
    · rfl
    · rw [Option.or_assoc, Option.or_self]
  · rw [← Option.or_assoc, Option.or_self]
  · funext s
    simp only [or_assoc, eq_iff_iff]
    tauto

end Outline

namespace Config

def outline (c : Config) : Outline :=
  ⟨c.name, c.outDir, c.hostInit, c.img, c.bin, c.linux.isSome, c.baseBin, (· ∈ c.baseDeps)⟩

variable {c b v : Config}

theorem isSome_inheritLinuxOpts {l l' : Option Linux} {out : Option Linux} (h : inheritLinuxOpts l l' = .ok out) :
    out.isSome = (l.isSome || l'.isSome) := by
  unfold inheritLinuxOpts at h
  split at h
  · cases h
    simp
  · cases h
    simp
  · simp only at h
    split at h
    · cases h
    · cases h
      rfl

theorem Applied.outline (h : c.Applied b v) : v.outline = c.outline.combine b.outline := by
  have hlinux := isSome_inheritLinuxOpts h.linux
  simp only [Config.outline, Outline.combine, h.name, h.outDir, h.hostInit, h.img, h.bin, h.baseBin, h.baseDeps, hlinux,
    Outline.mk.injEq, true_and]
  refine ⟨rfl, funext fun s => ?_⟩
  simp

theorem Applied.linux_of_useParentBin (h : c.Applied b v) (hv : v.useParentBin = true) : b.linux.isSome = true := by
  rw [h.useParentBin, Bool.and_eq_true] at hv
  obtain ⟨hsome, hsame⟩ := hv
  obtain ⟨l, hl⟩ := Option.isSome_iff_exists.mp hsome
  unfold sameBinary at hsame
  cases hb : b.linux with
  | none => simp [hl, hb] at hsame
  | some l' => rfl

structure Linked (c : Config) (base : Option Config) : Prop where
  baseDeps : ∀ s, s ∈ c.baseDeps ↔ ∃ b ∈ base, b.img = some s ∨ b.hostInit.map RunSpec.str = some s
  useParentBin : c.useParentBin = true → ∃ b ∈ base, b.linux.isSome = true ∧ c.baseBin = b.bin

end Config

structure Config.Fresh (c : Config) : Prop where
  baseDeps : c.baseDeps = []
  baseBin : c.baseBin = none
  useParentBin : c.useParentBin = false

theorem Config.fresh_init {env : InitEnv} {raw : RawConfig} {distro : Option Ref} {jobs : List Ref} {c : Config}
    (h : Config.init env raw distro jobs = .ok c) : c.Fresh := by
  obtain ⟨workdir, imgSz, mem, cpus, -, -, -, -, rfl⟩ := Config.init_eq_ok h
  exact ⟨rfl, rfl, rfl⟩

namespace ConfigManager
variable {m : ConfigManager} {s t : Heap} {n : Nat} {r b : Ref}

theorem up_of_done (hl : m.Loaded s) (hr : s.done r = true) : (m.system s).up r = none := by
  simp [system, (hl.distros r hr).1]

theorem outline_of_run (hl : m.Loaded s) (hfresh : ∀ r, (s.val r).Fresh)
    (hrun : (m.system s).initAll n m.cfgs.vals s = .ok t) (r : Ref) :
    ((t.val r).useParentBin = true → ∃ b y, (m.system s).up r = some b ∧
      Memo.View (m.system s) s Config.outline Outline.combine b y ∧ y.linux = true) ∧
    (t.done r = true → Memo.View (m.system s) s Config.outline Outline.combine r (t.val r).outline) := by
  refine Memo.view_of_run (π := Config.outline) (E := fun r v => v.useParentBin = true → ∃ b y,
    (m.system s).up r = some b ∧ Memo.View (m.system s) s Config.outline Outline.combine b y ∧ y.linux = true)
    Outline.combine_combine (fun r v hup hv => ⟨hv, rfl⟩) (fun r b v w v' hup _ hw hok => ?_)
    (fun r hr => up_of_done hl hr) (fun r hr => ?_) hrun r
  · have happlied : v.Applied w v' := Config.applied_of_applyBase hok
    exact ⟨fun hparent => ⟨b, _, hup, hw, happlied.linux_of_useParentBin hparent⟩, happlied.outline⟩
  · simp [(hfresh r).useParentBin] at hr

theorem linked_of_run (hl : m.Loaded s) (hfresh : ∀ r, (s.val r).Fresh) (hrun : m.initializeAll n s = .ok t)
    (hr : t.done r = true) : (t.val r).Linked (((m.system s).up r).map t.val) := by
  have hrun' : (m.system s).initAll n m.cfgs.vals s = .ok t := (initializeAll_eq_ok hl.bases).mp hrun
  have hviews := outline_of_run hl hfresh hrun'
  cases hup : (m.system s).up r with
  | none =>
    have hview := ((hviews r).2 hr).of_alone hup
    refine ⟨fun dep => ?_, fun hparent => ?_⟩
    · have hdeps := congrFun (congrArg Outline.baseDeps hview) dep
      simpa [Config.outline, (hfresh r).baseDeps] using hdeps
    · obtain ⟨b, -, hup', -⟩ := (hviews r).1 hparent
      rw [hup] at hup'
      cases hup'
  | some b =>
    have hnotdone : s.done r = false := by
      rw [← Bool.not_eq_true]
      intro hd
      simp [up_of_done hl hd] at hup
    have hb : t.done b = true := (Memo.initAll_effect hrun').1.closed r hnotdone hr b (.inl hup)
    have hview := ((hviews r).2 hr).of_up hup ((hviews b).2 hb)
    refine ⟨fun dep => ?_, fun hparent => ⟨_, rfl, ?_, ?_⟩⟩
    · have hdeps := congrFun (congrArg Outline.baseDeps hview) dep
      simpa [Config.outline, Outline.combine, (hfresh r).baseDeps] using hdeps
    · obtain ⟨b', y, hup', hy, hlinux⟩ := (hviews r).1 hparent
      obtain rfl := Option.some.inj (hup.symm.trans hup')
      obtain rfl := hy.unique ((hviews b).2 hb)
      exact hlinux
    · have hbin := congrArg Outline.baseBin hview
      simpa [Config.outline, Outline.combine, (hfresh r).baseBin] using hbin

end ConfigManager
end FireMarshal
