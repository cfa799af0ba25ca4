import FireMarshal.Theorems.Config.Inherit
import FireMarshal.Theorems.Config.Linked

/-! The binary and the image of a configuration, along a base chain. -/

namespace FireMarshal

variable {ω : Type} {env : InitEnv} {m : Marshal ω} {wlutilDir workdir : String} {raw : RawConfig}
variable {chain : List (Origin ω)} {c u v : Config}

namespace Origin

def setsLinux : Origin ω → Bool
  | file raw => raw.linuxOpts.isSome
  | distro _ => false

def setsImg : Origin ω → Bool
  | file raw => raw.img.isSome
  | distro w => w.img.isSome

end Origin

structure Config.Written (raw : RawConfig) (workdir : String) (c : Config) : Prop where
  bin : c.bin = raw.bin.map (cleanPath · workdir)
  img : c.img = raw.img.map (cleanPath · workdir)
  linux : c.linux = raw.linuxOpts.map (initLinuxOpts workdir)

theorem Config.OfFile.written (h : c.OfFile env raw) : ∃ workdir, raw.initWorkdir = .ok workdir ∧ c.Written raw workdir := by
  obtain ⟨c₀, hinit, hc⟩ := h
  obtain ⟨workdir, imgSz, mem, cpus, hworkdir, -, -, -, rfl⟩ := Config.init_eq_ok hinit
  refine ⟨workdir, hworkdir, ?_⟩
  rw [hc]
  exact ⟨rfl, rfl, rfl⟩

theorem sets_of_chain (h : BaseChain env m wlutilDir chain v) :
    v.linux.isSome = chain.any Origin.setsLinux ∧ v.img.isSome = chain.any Origin.setsImg := by
  induction h with
  | distro w d => exact ⟨rfl, by simp [Marshal.distroConfig, Origin.setsImg]⟩
  | alone hfile =>
    obtain ⟨workdir, -, hwritten⟩ := hfile.written
    simp [Config.setLaunch, hwritten.linux, hwritten.img, Origin.setsLinux, Origin.setsImg]
  | @based raw c u v chain hfile hbase happly ih =>
    obtain ⟨workdir, -, hwritten⟩ := hfile.written
    have ha := Config.applied_of_applyBase happly
    refine ⟨?_, ?_⟩
    · rw [Config.isSome_inheritLinuxOpts ha.linux, ih.1, hwritten.linux]
      simp [Origin.setsLinux]
    · rw [ha.img, List.any_cons, ← ih.2, Option.isSome_or, hwritten.img, Bool.or_comm]
      simp [Origin.setsImg]

/-- A path for the binary that a file sets is kept exactly if there is no base, or no Linux options in the chain; one
    for the image, if no base has an image. Otherwise it has to be the path that is generated, in any spelling. -/
theorem written_targets_kept_iff (h : BaseChain env m wlutilDir (.file raw :: chain) v)
    (hworkdir : raw.initWorkdir = .ok workdir) :
    (∀ path, raw.bin = some path → (v.bin.map Posix.parse = some (Posix.parse (cleanPath path workdir)) ↔
      chain = [] ∨ (∀ o ∈ .file raw :: chain, o.setsLinux = false) ∨
        Posix.parse (cleanPath path workdir) = Posix.parse (joinPath v.outDir (v.name ++ "-bin")))) ∧
    (∀ path, raw.img = some path → (v.img.map Posix.parse = some (Posix.parse (cleanPath path workdir)) ↔
      (∀ o ∈ chain, o.setsImg = false) ∨
        Posix.parse (cleanPath path workdir) = Posix.parse (joinPath v.outDir (v.name ++ ".img")))) := by
  have hsets := sets_of_chain h
  cases h with
  | alone hfile =>
    obtain ⟨workdir', hworkdir', hwritten⟩ := hfile.written
    obtain rfl := Except.ok.inj (hworkdir.symm.trans hworkdir')
    refine ⟨fun path hpath => ?_, fun path hpath => ?_⟩
    · simp [Config.setLaunch, hwritten.bin, hpath]
    · simp [Config.setLaunch, hwritten.img, hpath]
  | @based _ c u _ _ hfile hbase happly =>
    obtain ⟨workdir', hworkdir', hwritten⟩ := hfile.written
    obtain rfl := Except.ok.inj (hworkdir.symm.trans hworkdir')
    have ha := Config.applied_of_applyBase happly
    refine ⟨fun path hpath => ?_, fun path hpath => ?_⟩
    · have hchain : chain ≠ [] := by
        rintro rfl
        cases hbase
      have hnone : (∀ o ∈ .file raw :: chain, o.setsLinux = false) ↔ v.linux.isSome = false := by
        rw [hsets.1, List.any_eq_false]
        simp
      rw [hnone, ha.bin, ha.outDir, ha.name, hwritten.bin, hpath]
      cases v.linux <;> simp [hchain, eq_comm]
    · have hnone : (∀ o ∈ chain, o.setsImg = false) ↔ u.img = none := by
        rw [← Option.not_isSome_iff_eq_none, (sets_of_chain hbase).2, List.any_eq_true]
        simp
      rw [hnone, ha.img, ha.outDir, ha.name, hwritten.img, hpath]
      cases u.img <;> simp [eq_comm]

/-! ### A workload with its own binary and image -/

def ownTargets (outDir : Option String) : RawConfig :=
  { name := "own", cfgFile := some ⟨"/wl", "own.yaml"⟩, bin := some "own-bin", img := some "own.img", outDir }

def linuxBase : RawConfig :=
  { name := "base", cfgFile := some ⟨"/wl", "base.yaml"⟩, linux := some { modules := some [] } }

def baseDistro (img : Option String) : DistroWorkload Unit :=
  { name := "distro", distroName := "distro", opts := (), builder := "distro", img }

theorem initWorkdir_ownTargets (outDir : Option String) : (ownTargets outDir).initWorkdir = .ok "/wl/own" := by
  have hnone : (ownTargets none).initWorkdir = .ok "/wl/own" := by decide +kernel
  exact hnone

theorem init_ownTargets (outDir : Option String) : Config.init sampleInitEnv (ownTargets outDir) none [] =
    .ok (.ofRaw sampleInitEnv (ownTargets outDir) none [] "/wl/own" Config.defaultImgSz Config.defaultMem
      Config.defaultCpus) := by
  rw [Config.init, initWorkdir_ownTargets]
  rfl

theorem init_linuxBase : Config.init sampleInitEnv linuxBase none [] =
    .ok (.ofRaw sampleInitEnv linuxBase none [] "/wl/base" Config.defaultImgSz Config.defaultMem Config.defaultCpus) := by
  decide +kernel

theorem written_targets_kept_bare :
    (∃ v : Config, BaseChain sampleInitEnv ⟨[], "/images"⟩ "/wlutil"
      [.file (ownTargets none), .distro (baseDistro none)] v ∧
      v.bin.map Posix.parse = some (Posix.parse "/wl/own/own-bin") ∧
      v.img.map Posix.parse = some (Posix.parse "/wl/own/own.img")) ∧
    ∃ v : Config, BaseChain sampleInitEnv ⟨[], "/images"⟩ "/wlutil"
      [.file (ownTargets (some "/wl/./own/")), .file linuxBase, .distro (baseDistro (some "/images/distro.img"))] v ∧
      v.bin.map Posix.parse = some (Posix.parse "/wl/own/own-bin") ∧
      v.img.map Posix.parse = some (Posix.parse "/wl/own/own.img") := by
  have hbinPath : cleanPath "own-bin" "/wl/own" = "/wl/own/own-bin" := by decide +kernel
  have himgPath : cleanPath "own.img" "/wl/own" = "/wl/own/own.img" := by decide +kernel
  rw [← hbinPath, ← himgPath]
  constructor
  · obtain ⟨v, hv⟩ : ∃ v : Config, BaseChain sampleInitEnv ⟨[], "/images"⟩ "/wlutil"
        [.file (ownTargets none), .distro (baseDistro none)] v :=
      ⟨_, .based (ofFile_init (init_ownTargets _)) (.distro (baseDistro none) 0) rfl⟩
    obtain ⟨hbin, himg⟩ := written_targets_kept_iff hv (initWorkdir_ownTargets _)
    refine ⟨v, hv, (hbin "own-bin" rfl).mpr (.inr (.inl ?_)), (himg "own.img" rfl).mpr (.inl ?_)⟩
    · simp [Origin.setsLinux, ownTargets, RawConfig.linuxOpts]
    · simp [Origin.setsImg, baseDistro]
  · obtain ⟨v, hv, hout⟩ : ∃ v : Config, BaseChain sampleInitEnv ⟨[], "/images"⟩ "/wlutil"
        [.file (ownTargets (some "/wl/./own/")), .file linuxBase, .distro (baseDistro (some "/images/distro.img"))] v ∧
        (v.outDir, v.name) = ("/wl/./own/", "own") :=
      ⟨_, .based (ofFile_init (init_ownTargets _)) (.based (ofFile_init init_linuxBase) (.distro _ 0) rfl) rfl, rfl⟩
    obtain ⟨hdir, hname⟩ := Prod.mk.inj hout
    obtain ⟨hbin, himg⟩ := written_targets_kept_iff hv (initWorkdir_ownTargets _)
    rw [hdir, hname] at hbin himg
    exact ⟨v, hv, (hbin "own-bin" rfl).mpr (.inr (.inr (by decide +kernel))),
      (himg "own.img" rfl).mpr (.inr (by decide +kernel))⟩

/-- On a Linux workload, the binary and the image that the file sets are replaced. -/
theorem written_targets_replaced : ∃ v : Config, BaseChain sampleInitEnv ⟨[], "/images"⟩ "/wlutil"
      [.file (ownTargets none), .file linuxBase, .distro (baseDistro (some "/images/distro.img"))] v ∧
    v.bin = some "/images/own/own-bin" ∧ v.img = some "/images/own/own.img" := by
  refine ⟨_, .based (ofFile_init (init_ownTargets _)) (.based (ofFile_init init_linuxBase) (.distro _ 0) rfl) rfl, ?_, ?_⟩
  · rfl
  · rfl

end FireMarshal
