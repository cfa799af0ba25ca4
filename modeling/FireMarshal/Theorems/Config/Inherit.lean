import FireMarshal.Config.Init
import FireMarshal.Config.Fork
import FireMarshal.Theorems.Config.Initialize

/-! Options that a configuration takes from the nearest configuration of its base chain. -/

namespace FireMarshal

/-- The options of `configInherit` that name no file of the build. -/
inductive Heritable where
  | files | outputs | spike | qemu | launch | postRunHook | spikeArgs | qemuArgs | cpus | mem
deriving DecidableEq, Repr

namespace Heritable

abbrev Value : Heritable → Type
  | files => List FileSpec
  | outputs => List String
  | spike | qemu => Option String
  | launch => Bool
  | postRunHook => RunSpec
  | spikeArgs | qemuArgs => String
  | cpus | mem => Nat

def get : (k : Heritable) → Config → Option k.Value
  | files, c => c.files
  | outputs, c => c.outputs
  | spike, c => c.spike
  | qemu, c => c.qemu
  | launch, c => c.launch
  | postRunHook, c => c.postRunHook
  | spikeArgs, c => c.spikeArgs
  | qemuArgs, c => c.qemuArgs
  | cpus, c => some c.cpus
  | mem, c => some c.mem

def default : (k : Heritable) → Option k.Value
  | launch => some true
  | cpus => some 4
  | mem => some (16 * 2 ^ 30)
  | files | outputs | spike | qemu | postRunHook | spikeArgs | qemuArgs => none

end Heritable

/-- The canonical form of what a file sets, with paths relative to `workdir`. -/
def RawConfig.written (env : InitEnv) (raw : RawConfig) (workdir : String) : (k : Heritable) → Option k.Value
  | .files => raw.files.map fun files => files.map fun f => ⟨cleanPath f.1 workdir, f.2⟩
  | .outputs => raw.outputs
  | .spike => raw.spike.map fun spike => spike.map (cleanPath · workdir)
  | .qemu => raw.qemu.map fun qemu => qemu.map (cleanPath · workdir)
  | .launch => raw.launch
  | .postRunHook => raw.postRunHook.map (.fromString env · workdir)
  | .spikeArgs => raw.spikeArgs
  | .qemuArgs => raw.qemuArgs
  | .cpus => raw.cpus.bind fun text => (env.int text).toOption
  | .mem => raw.mem.bind fun text => (env.parseSize text).toOption

/-! ### Base chains -/

variable {ω : Type}

inductive Origin (ω : Type) where
  | file (raw : RawConfig)
  | distro (w : DistroWorkload ω)

/-- The canonical form of the value that a configuration sets itself. -/
def Origin.written (env : InitEnv) (o : Origin ω) (k : Heritable) : Option k.Value :=
  match o, k with
  | .file raw, k => raw.initWorkdir.toOption.bind fun workdir => raw.written env workdir k
  | .distro w, .qemu => w.qemu
  | .distro _, _ => none

/-- The value in the nearest configuration that sets the option, for a chain with the leaf first. -/
def nearest (env : InitEnv) (chain : List (Origin ω)) (k : Heritable) : Option k.Value :=
  chain.findSome? (·.written env k)

/-- The configuration of a file. Forking changes the name and the base of a configuration. -/
def Config.OfFile (env : InitEnv) (raw : RawConfig) (c : Config) : Prop :=
  ∃ c₀, Config.init env raw c.distro c.jobs = .ok c₀ ∧ c = { c₀ with name := c.name, base := c.base }

/-- A chain of configurations that are based on each other, with the leaf first, and what its leaf resolves to. -/
inductive BaseChain (env : InitEnv) (m : Marshal ω) (wlutilDir : String) : List (Origin ω) → Config → Prop
  | distro (w : DistroWorkload ω) (d : Ref) : BaseChain env m wlutilDir [.distro w] (m.distroConfig w d)
  | alone {raw : RawConfig} {c : Config} (hfile : c.OfFile env raw) : BaseChain env m wlutilDir [.file raw] c.setLaunch
  | based {raw : RawConfig} {c u v : Config} {chain : List (Origin ω)} (hfile : c.OfFile env raw)
      (hbase : BaseChain env m wlutilDir chain u) (happly : c.applyBase wlutilDir u = .ok v) :
      BaseChain env m wlutilDir (.file raw :: chain) v

variable {env : InitEnv} {m : Marshal ω} {wlutilDir : String} {raw : RawConfig} {chain : List (Origin ω)}
variable {c u v : Config} {k : Heritable}

theorem ofFile_init {distro : Option Ref} {jobs : List Ref} (h : Config.init env raw distro jobs = .ok c) :
    c.OfFile env raw := by
  obtain ⟨workdir, imgSz, mem, cpus, -, -, -, -, rfl⟩ := Config.init_eq_ok h
  exact ⟨_, h, rfl⟩

/-- What the initialisation resolves comes from a base chain, when configurations come from files and distros. -/
theorem exists_baseChain {manager : ConfigManager} {s : Heap} {r : Ref}
    (hfiles : ∀ r, s.done r = false → ∃ raw, (s.val r).OfFile env raw)
    (hdistros : ∀ r, s.done r = true → ∃ w d, s.val r = m.distroConfig w d)
    (h : Memo.Resolved (manager.system s) s r v) : ∃ chain, BaseChain env m manager.wlutilDir chain v := by
  induction h with
  | @done r hr =>
    obtain ⟨w, d, hw⟩ := hdistros r hr
    rw [hw]
    exact ⟨_, .distro w d⟩
  | @alone r hr hup =>
    obtain ⟨raw, hraw⟩ := hfiles r hr
    exact ⟨_, .alone hraw⟩
  | @combined r b v w hr hup hb hv ih =>
    obtain ⟨raw, hraw⟩ := hfiles r hr
    obtain ⟨chain, hchain⟩ := ih
    exact ⟨_, .based hraw hchain hv⟩

/-! ### Values -/

/-- `Config.__init__` sets these options of its own accord, so that `applyBase` finds them set. -/
def Heritable.preset : Heritable → Bool
  | cpus | mem => true
  | _ => false

theorem parseOr_eq {parse : String → Except PyError Nat} {default n : Nat} {text : Option String}
    (h : Config.parseOr parse default text = .ok n) :
    some n = (text.bind fun text => (parse text).toOption).or (some default) := by
  cases text with
  | none =>
    cases h
    rfl
  | some text =>
    have h : parse text = .ok n := h
    simp [h, Except.toOption]

theorem get_ofFile (h : c.OfFile env raw) :
    k.get c = ((Origin.file raw : Origin ω).written env k).or (if k.preset then k.default else none) := by
  obtain ⟨c₀, hinit, hc⟩ := h
  obtain ⟨workdir, imgSz, mem, cpus, hworkdir, -, hmem, hcpus, rfl⟩ := Config.init_eq_ok hinit
  rw [hc]
  simp only [Origin.written, hworkdir, Except.toOption, Option.bind_some]
  cases k
  case cpus => exact parseOr_eq hcpus
  case mem => exact parseOr_eq hmem
  all_goals exact Option.or_none.symm

theorem get_setLaunch (h : k.preset = false) : k.get c.setLaunch = (k.get c).or k.default := by
  cases k
  case launch => cases hl : c.launch <;> simp [Heritable.get, Config.setLaunch, Heritable.default, hl]
  case cpus | mem => cases h
  all_goals exact Option.or_none.symm

theorem get_applied (ha : c.Applied u v) (h : k.preset = false) :
    k.get v = ((k.get c).or (k.get u)).or k.default := by
  cases k
  case cpus | mem => cases h
  case files => simpa [Heritable.get, Heritable.default] using ha.files
  case outputs => simpa [Heritable.get, Heritable.default] using ha.outputs
  case spike => simpa [Heritable.get, Heritable.default] using ha.spike
  case qemu => simpa [Heritable.get, Heritable.default] using ha.qemu
  case postRunHook => simpa [Heritable.get, Heritable.default] using ha.postRunHook
  case spikeArgs => simpa [Heritable.get, Heritable.default] using ha.spikeArgs
  case qemuArgs => simpa [Heritable.get, Heritable.default] using ha.qemuArgs
  case launch =>
    simp only [Heritable.get, Heritable.default, ha.launch]
    cases c.launch <;> cases u.launch <;> rfl

theorem preset_setLaunch (h : k.preset = true) : k.get c.setLaunch = k.get c := by
  cases k
  case cpus | mem => rfl
  all_goals cases h

theorem preset_applied (ha : c.Applied u v) (h : k.preset = true) : k.get v = k.get c := by
  cases k
  case cpus => simp [Heritable.get, ha.cpus]
  case mem => simp [Heritable.get, ha.mem]
  all_goals cases h

theorem get_distroConfig {w : DistroWorkload ω} {d : Ref} (h : k.preset = false) :
    k.get (m.distroConfig w d) = (Origin.distro w).written env k := by
  cases k
  case cpus | mem => cases h
  all_goals rfl

theorem nearest_cons (o : Origin ω) : nearest env (o :: chain) k = (o.written env k).or (nearest env chain k) := by
  simp only [nearest, List.findSome?_cons]
  cases o.written env k <;> rfl

theorem get_of_chain (h : BaseChain env m wlutilDir chain v) (hk : k.preset = false) :
    (k.get v).or k.default = (nearest env chain k).or k.default := by
  induction h with
  | distro w d =>
    rw [show k.get (m.distroConfig w d) = (Origin.distro w).written env k from get_distroConfig hk]
    simp [nearest]
  | @alone raw c hfile =>
    have hget := get_ofFile (ω := ω) (k := k) hfile
    simp only [hk, Bool.false_eq_true, if_false, Option.or_none] at hget
    rw [get_setLaunch hk, hget, Option.or_assoc, Option.or_self]
    simp [nearest]
  | @based raw c u v chain hfile hbase happly ih =>
    have hget := get_ofFile (ω := ω) (k := k) hfile
    simp only [hk, Bool.false_eq_true, if_false, Option.or_none] at hget
    rw [get_applied (Config.applied_of_applyBase happly) hk, hget, Option.or_assoc, Option.or_assoc, Option.or_self, ih,
      ← Option.or_assoc]
    rw [nearest_cons]

/-- An option of the leaf has the value that the nearest configuration sets, unless it is preset, the leaf does not set
    it, and the value is not the default. -/
theorem get_eq_nearest_iff (h : BaseChain env m wlutilDir (.file raw :: chain) v) (k : Heritable) :
    k.get v = (nearest env (.file raw :: chain) k).or k.default ↔
      k.preset = false ∨ ((Origin.file raw : Origin ω).written env k).isSome ∨
        ∀ x, nearest env chain k = some x → k.default = some x := by
  cases hk : k.preset with
  | false =>
    have hsome := get_of_chain h hk
    have hleaf : k.get v = (k.get v).or k.default := by
      cases h with
      | alone hfile => rw [get_setLaunch hk, Option.or_assoc, Option.or_self]
      | based hfile hbase happly =>
        simp only [get_applied (Config.applied_of_applyBase happly) hk, Option.or_assoc, Option.or_self]
    simp [hleaf.trans hsome]
  | true =>
    have hget : k.get v = ((Origin.file raw : Origin ω).written env k).or k.default := by
      cases h with
      | alone hfile => rw [preset_setLaunch hk, get_ofFile (ω := ω) hfile, if_pos hk]
      | based hfile hbase happly =>
        rw [preset_applied (Config.applied_of_applyBase happly) hk, get_ofFile (ω := ω) hfile, if_pos hk]
    rw [hget, nearest_cons]
    cases (Origin.file raw : Origin ω).written env k with
    | some x => simp
    | none => cases nearest env chain k <;> simp

/-! ### A base with more cores -/

def sampleInitEnv : InitEnv where
  imageDir := "/images"
  resolve path := path
  parseSize _ := .ok 0
  int text :=
    if text.toList.all Char.isDigit then .ok (text.toList.foldl (fun n c => 10 * n + (c.toNat - '0'.toNat)) 0)
    else .error (.valueError "invalid literal for int() with base 10")

def manyCores : RawConfig := { name := "parent", cfgFile := some ⟨"/wl", "parent.yaml"⟩, cpus := some "8" }

def childOfMany : RawConfig := { name := "child", base := some "parent.yaml", cfgFile := some ⟨"/wl", "child.yaml"⟩ }

def manyChain : List (Origin Unit) := [.file childOfMany, .file manyCores]

theorem exists_manyChain :
    ∃ v : Config, BaseChain sampleInitEnv ⟨[], "/images"⟩ "/wlutil" manyChain v ∧ v.cpus = 4 := by
  have hparent : Config.init sampleInitEnv manyCores none [] =
      .ok (.ofRaw sampleInitEnv manyCores none [] "/wl/parent" Config.defaultImgSz Config.defaultMem 8) := by decide +kernel
  have hchild : Config.init sampleInitEnv childOfMany none [] =
      .ok (.ofRaw sampleInitEnv childOfMany none [] "/wl/child" Config.defaultImgSz Config.defaultMem
        Config.defaultCpus) := by decide +kernel
  exact ⟨_, .based (ofFile_init hchild) (.alone (ofFile_init hparent)) rfl, rfl⟩

theorem child_presets_cpus : ∃ v : Config, BaseChain sampleInitEnv ⟨[], "/images"⟩ "/wlutil" manyChain v ∧
    Heritable.cpus.get v = some 4 ∧ nearest sampleInitEnv manyChain .cpus = some 8 := by
  obtain ⟨v, hv, hcpus⟩ := exists_manyChain
  exact ⟨v, hv, by rw [← hcpus]; rfl, by decide +kernel⟩

/-- A file that is copied, with a path from the directory of the workload. -/
def withFiles : RawConfig :=
  { name := "root", cfgFile := some ⟨"/wl", "root.yaml"⟩, files := some [("app", "/bin/app")], cpus := some "8" }

def overFiles : RawConfig := { name := "mid", base := some "root.yaml", cfgFile := some ⟨"/wl", "mid.yaml"⟩ }

def fewCores : RawConfig :=
  { name := "leaf", base := some "mid.yaml", cfgFile := some ⟨"/wl", "leaf.yaml"⟩, cpus := some "2" }

def filesChain : List (Origin Unit) := [.file fewCores, .file overFiles, .file withFiles]

theorem exists_filesChain : ∃ v : Config, BaseChain sampleInitEnv ⟨[], "/images"⟩ "/wlutil" filesChain v := by
  have hroot : Config.init sampleInitEnv withFiles none [] =
      .ok (.ofRaw sampleInitEnv withFiles none [] "/wl/root" Config.defaultImgSz Config.defaultMem 8) := by decide +kernel
  have hmid : Config.init sampleInitEnv overFiles none [] =
      .ok (.ofRaw sampleInitEnv overFiles none [] "/wl/mid" Config.defaultImgSz Config.defaultMem
        Config.defaultCpus) := by decide +kernel
  have hleaf : Config.init sampleInitEnv fewCores none [] =
      .ok (.ofRaw sampleInitEnv fewCores none [] "/wl/leaf" Config.defaultImgSz Config.defaultMem 2) := by decide +kernel
  exact ⟨_, .based (ofFile_init hleaf) (.based (ofFile_init hmid) (.alone (ofFile_init hroot)) rfl) rfl⟩

/-- The leaf has the files of the last base, with paths from the directory of that base, and its own number of cores. -/
theorem leaf_inherits_files : ∃ v : Config, BaseChain sampleInitEnv ⟨[], "/images"⟩ "/wlutil" filesChain v ∧
    Heritable.files.get v = some [⟨"/wl/root/app", "/bin/app"⟩] ∧ Heritable.cpus.get v = some 2 := by
  obtain ⟨v, hv⟩ := exists_filesChain
  have hfiles : (nearest sampleInitEnv filesChain .files).or Heritable.files.default =
      some [⟨"/wl/root/app", "/bin/app"⟩] := by decide +kernel
  have hcpus : (nearest sampleInitEnv filesChain .cpus).or Heritable.cpus.default = some 2 := by decide +kernel
  refine ⟨v, hv, ((get_eq_nearest_iff hv .files).mpr (.inl rfl)).trans hfiles, ?_⟩
  exact ((get_eq_nearest_iff hv .cpus).mpr (.inr (.inl (by decide +kernel)))).trans hcpus

end FireMarshal
