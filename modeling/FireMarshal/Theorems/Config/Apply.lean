import FireMarshal.Lib.Except
import FireMarshal.Config.Config

/-! What a configuration has after `applyBase`. -/

namespace FireMarshal
namespace Config

/-- The options that come from a configuration itself, and from its base. -/
structure Applied (c parent v : Config) : Prop where
  name : v.name = c.name
  base : v.base = c.base
  jobs : v.jobs = c.jobs
  outDir : v.outDir = c.outDir
  isDistro : v.isDistro = c.isDistro
  cpus : v.cpus = c.cpus
  mem : v.mem = c.mem
  imgSz : v.imgSz = c.imgSz
  hostInit : v.hostInit = c.hostInit
  files : v.files = (c.files <|> parent.files)
  outputs : v.outputs = (c.outputs <|> parent.outputs)
  spike : v.spike = (c.spike <|> parent.spike)
  qemu : v.qemu = (c.qemu <|> parent.qemu)
  launch : v.launch = some ((c.launch <|> parent.launch).getD true)
  postRunHook : v.postRunHook = (c.postRunHook <|> parent.postRunHook)
  spikeArgs : v.spikeArgs = (c.spikeArgs <|> parent.spikeArgs)
  qemuArgs : v.qemuArgs = (c.qemuArgs <|> parent.qemuArgs)
  rootfsSize : v.rootfsSize = (c.rootfsSize <|> parent.rootfsSize)
  img : v.img = (parent.img.map fun _ => joinPath c.outDir (c.name ++ ".img")).or c.img
  baseImg : v.baseImg = parent.img.or c.baseImg
  baseDeps : v.baseDeps = c.baseDeps ++ parent.img.toList ++ (parent.hostInit.map RunSpec.str).toList
  baseBin : v.baseBin = parent.bin.or c.baseBin
  baseDwarf : v.baseDwarf = parent.dwarf.or c.baseDwarf
  linux : inheritLinuxOpts c.linux parent.linux = .ok v.linux
  firmware : inheritFirmwareOpts c.firmware parent.firmware = .ok v.firmware
  bin : v.bin = if v.linux.isSome then some (joinPath c.outDir (c.name ++ "-bin")) else c.bin.or parent.bin
  dwarf : v.dwarf = if v.linux.isSome then some (joinPath c.outDir (c.name ++ "-bin-dwarf")) else c.dwarf
  useParentBin : v.useParentBin = (v.linux.isSome && v.sameBinary parent)

theorem inheritTargets_eq (self base : Config) : self.inheritTargets base =
    { self with
      baseImg := base.img.or self.baseImg
      baseDeps := self.baseDeps ++ base.img.toList ++ (base.hostInit.map RunSpec.str).toList
      img := (base.img.map fun _ => joinPath self.outDir (self.name ++ ".img")).or self.img
      baseBin := base.bin.or self.baseBin
      baseDwarf := base.dwarf.or self.baseDwarf } := by
  unfold inheritTargets
  cases base.img <;> simp [Option.orElse_eq_or]

theorem setBinary_eq (self base : Config) : self.setBinary base =
    { self with
      bin := if self.linux.isSome then some (joinPath self.outDir (self.name ++ "-bin")) else self.bin
      dwarf := if self.linux.isSome then some (joinPath self.outDir (self.name ++ "-bin-dwarf")) else self.dwarf
      useParentBin := self.linux.isSome && self.sameBinary base } := by
  unfold setBinary
  split <;> simp_all

theorem setRunSpec_eq (wlutilDir : String) (self : Config) :
    ∃ run runSpec, self.setRunSpec wlutilDir = { self with run, runSpec } := by
  unfold setRunSpec
  split <;> exact ⟨_, _, rfl⟩

theorem applied_of_applyBase {wlutilDir : String} {self base v : Config} (h : self.applyBase wlutilDir base = .ok v) :
    Applied self base v := by
  unfold applyBase at h
  rw [inheritTargets_eq] at h
  obtain ⟨linux, hlinux, h⟩ := Except.bind_ok h
  obtain ⟨firmware, hfirmware, h⟩ := Except.bind_ok h
  simp only [setBinary_eq] at h
  obtain ⟨run, runSpec, hrun⟩ := setRunSpec_eq wlutilDir (setLaunch _)
  rw [hrun] at h
  cases h
  constructor <;> first | rfl | assumption | skip
  case img =>
    change (base.img.map fun _ => joinPath self.outDir (self.name ++ ".img")).or (self.img <|> base.img) = _
    cases base.img <;> simp [Option.orElse_eq_orElse]
  case bin =>
    change (if linux.isSome then _ else (self.bin <|> base.bin)) = _
    rw [Option.orElse_eq_orElse, Option.orElse_eq_or]
    rfl

end Config
end FireMarshal
