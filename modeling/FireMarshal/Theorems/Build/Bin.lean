import FireMarshal.Build.Bin
import FireMarshal.Config.Fork
import FireMarshal.Theorems.Config.Chain

/-! A binary that is copied from the base is the one that would be compiled from scratch, unless it is the file of the
base itself. -/

namespace FireMarshal

/-! ### Options that are the same as those of the base -/

def Linux.Valid (l : Linux) : Prop := ∀ d ∈ l.modules, Dict.keys d |>.Nodup

theorem Linux.same_iff {l b : Linux} : l.same b = true ↔ l.source = b.source ∧ l.config = b.config ∧
    (l.modules = none ∧ b.modules = none ∨
      ∃ d e, l.modules = some d ∧ b.modules = some e ∧ Dict.same d e = true) := by
  unfold Linux.same
  cases l.modules <;> cases b.modules <;> simp [and_assoc]

theorem inheritLinuxOpts_modules {own l b : Linux} {d : Dict String (Option String)} (hd : b.modules = some d)
    (h : inheritLinuxOpts (some own) (some b) = .ok (some l)) :
    l.modules = some ((d.merge (own.modules.getD [])).filter fun (_, src) => src.isSome) := by
  unfold inheritLinuxOpts at h
  cases hown : own.modules with
  | none =>
    simp only [hd, hown] at h
    cases h
    rw [Option.getD_none, Dict.merge_nil]
  | some e =>
    simp only [hd, hown] at h
    cases h
    rfl

theorem inheritLinuxOpts_isSome {own l b : Linux} (h : inheritLinuxOpts (some own) (some b) = .ok (some l)) :
    l.modules.isSome := by
  unfold inheritLinuxOpts at h
  simp only at h
  split at h
  · cases h
  · cases h
    rfl

theorem eq_of_inheritLinuxOpts {config : Option Linux} {l b : Linux} (hb : b.Valid)
    (h : inheritLinuxOpts config (some b) = .ok (some l)) (hsame : l.same b = true) : l = b := by
  cases config with
  | none =>
    cases h
    rfl
  | some own =>
    obtain ⟨hsource, hconfig, ⟨hnone, -⟩ | ⟨d, e, hd, he, hde⟩⟩ := Linux.same_iff.mp hsame
    · have hsome := inheritLinuxOpts_isSome h
      simp [hnone] at hsome
    · rw [inheritLinuxOpts_modules he h] at hd
      obtain rfl := Option.some.inj hd
      have hmodules : l.modules = b.modules := by
        rw [inheritLinuxOpts_modules he h, he, Dict.eq_of_same_merge (hb e he) hde]
      obtain ⟨source, config, modules⟩ := l
      simp only at hsource hconfig hmodules
      subst hsource hconfig hmodules
      rfl

theorem valid_of_inheritLinuxOpts {config base : Option Linux} {l : Linux} (hconfig : ∀ l ∈ config, l.Valid)
    (hbase : ∀ b ∈ base, b.Valid) (h : inheritLinuxOpts config base = .ok (some l)) : l.Valid := by
  cases config with
  | none =>
    cases h
    exact hbase l rfl
  | some own =>
    cases base with
    | none =>
      cases h
      exact hconfig l rfl
    | some b =>
      intro d hd
      have hown : (Dict.keys (own.modules.getD [])).Nodup := by
        cases hm : own.modules with
        | none => exact List.nodup_nil
        | some e => exact hconfig own rfl e hm
      have hfilter : ∀ e : Dict String (Option String), e.keys.Nodup →
          (Dict.keys (e.filter fun (_, src) => src.isSome)).Nodup :=
        fun e he => he.sublist (List.filter_sublist.map _)
      cases hb : b.modules with
      | some e =>
        rw [inheritLinuxOpts_modules hb h] at hd
        obtain rfl := Option.some.inj hd
        exact hfilter _ (Dict.nodup_merge (hbase b rfl e hb) hown)
      | none =>
        unfold inheritLinuxOpts at h
        cases hm : own.modules with
        | none =>
          simp only [hb, hm] at h
          cases h
        | some e =>
          simp only [hb, hm] at h
          cases h
          obtain rfl := Option.some.inj hd
          exact hfilter e (hconfig own rfl e hm)

theorem base_none_of_inheritFirmwareOpts {config base : Option Firmware}
    (h : inheritFirmwareOpts config base = .ok none) :
    base = none := by
  unfold inheritFirmwareOpts at h
  cases base with
  | none => rfl
  | some b =>
    cases config <;> simp only at h <;> split at h <;> cases h

namespace Config

variable {c parent v : Config}

theorem Applied.same_options (h : c.Applied parent v) (hvalid : ∀ b ∈ parent.linux, b.Valid)
    (huse : v.useParentBin = true) : v.linux.isSome ∧ parent.linux = v.linux ∧ parent.firmware = v.firmware := by
  rw [h.useParentBin, Bool.and_eq_true] at huse
  obtain ⟨hsome, hbinary⟩ := huse
  simp only [sameBinary, Bool.and_eq_true] at hbinary
  obtain ⟨⟨hfirmware, hlinux⟩, -⟩ := hbinary
  obtain ⟨l, hl⟩ := Option.isSome_iff_exists.mp hsome
  refine ⟨hsome, ?_, ?_⟩
  · rw [hl] at hlinux ⊢
    cases hb : parent.linux with
    | none => simp [hb] at hlinux
    | some b =>
      have hinherit := h.linux
      rw [hb, hl] at hinherit
      rw [eq_of_inheritLinuxOpts (hvalid b hb) hinherit (by simpa [hb] using hlinux)]
  · cases hf : v.firmware with
    | none =>
      have hinherit := h.firmware
      rw [hf] at hinherit
      exact base_none_of_inheritFirmwareOpts hinherit
    | some f =>
      rw [hf] at hfirmware
      exact (beq_iff_eq.mp hfirmware).symm

theorem Applied.not_useParentBin (h : c.Applied parent v) (hinit : v.hostInit.isSome = true) :
    v.useParentBin = false := by
  obtain ⟨script, hscript⟩ := Option.isSome_iff_exists.mp hinit
  simp [h.useParentBin, sameBinary, hscript]

theorem Applied.valid (h : c.Applied parent v) (hc : ∀ l ∈ c.linux, l.Valid) (hparent : ∀ b ∈ parent.linux, b.Valid) :
    ∀ l ∈ v.linux, l.Valid := by
  intro l hl
  have hinherit := h.linux
  rw [hl] at hinherit
  exact valid_of_inheritLinuxOpts hc hparent hinherit

end Config

/-! ### Files of binaries -/

def Config.binPath (v : Config) : String := joinPath v.outDir (v.name ++ "-bin")

def Config.dwarfPath (v : Config) : String := joinPath v.outDir (v.name ++ "-bin-dwarf")

theorem binPath_ne_dwarfPath (v w : Config) : Posix.file v.binPath ≠ Posix.file w.dwarfPath :=
  Posix.file_ne_of_suffix (s := "-bin") (t := "-bin-dwarf") (by decide) (by decide) (by decide) (by decide) (by decide)
    (Posix.exists_join_append _ _ _) (Posix.exists_join_append _ _ _)

structure Config.HasPaths (v : Config) : Prop where
  bin : v.bin = some v.binPath
  dwarf : v.dwarf = some v.dwarfPath

theorem Config.Applied.hasPaths {c parent v : Config} (h : c.Applied parent v) (hl : v.linux.isSome) : v.HasPaths := by
  refine ⟨?_, ?_⟩
  · rw [h.bin, if_pos hl, binPath, h.name, h.outDir]
  · rw [h.dwarf, if_pos hl, dwarfPath, h.name, h.outDir]

section Build

variable {β : Type} {tools : Toolchain β} {files : Files β} {wlutilDir : String} {root v b : Config}
variable {cs rs : List Config} {out : β × β}

theorem Files.read_write_self (files : Files β) (path : String) (x : β) : (files.write path x).read path = .ok x := by
  simp [read, write]

theorem Files.read_write_of_ne {path path' : String} {x : β} (h : Posix.file path' ≠ Posix.file path) :
    (files.write path x).read path' = files.read path' := by
  simp [read, write, Function.update_of_ne h]

structure Holds (files : Files β) (v : Config) (out : β × β) : Prop where
  bin : files.read v.binPath = .ok out.1
  dwarf : files.read v.dwarfPath = .ok out.2

def writeBin (files : Files β) (v : Config) (out : β × β) : Files β :=
  (files.write v.binPath out.1).write v.dwarfPath out.2

theorem holds_writeBin (files : Files β) (v : Config) (out : β × β) : Holds (writeBin files v out) v out :=
  ⟨by rw [writeBin, Files.read_write_of_ne (binPath_ne_dwarfPath v v), Files.read_write_self],
    Files.read_write_self _ _ _⟩

theorem makeBin_scratch {l : Linux} (hl : v.linux = some l) (hpaths : v.HasPaths) (huse : v.useParentBin = false) :
    makeBin tools v false files = (compile tools l v.firmware none).map (writeBin files v) := by
  unfold makeBin
  rw [huse, hl]
  cases hout : compile tools l v.firmware none with
  | error e => simp [hout, Except.map, bind, Except.bind]
  | ok out => simp [hout, hpaths.bin, hpaths.dwarf, writeBin, require, Except.map, bind, Except.bind]

structure Config.OwnFiles (v : Config) : Prop where
  bin : ∀ path ∈ v.bin, ∀ base ∈ v.baseBin, Posix.file base ≠ Posix.file path
  dwarf : ∀ path ∈ v.dwarf, ∀ base ∈ v.baseDwarf, Posix.file base ≠ Posix.file path

instance (v : Config) : Decidable v.OwnFiles :=
  decidable_of_iff ((∀ path ∈ v.bin, ∀ base ∈ v.baseBin, Posix.file base ≠ Posix.file path) ∧
      ∀ path ∈ v.dwarf, ∀ base ∈ v.baseDwarf, Posix.file base ≠ Posix.file path)
    ⟨fun ⟨hbin, hdwarf⟩ => ⟨hbin, hdwarf⟩, fun h => ⟨h.bin, h.dwarf⟩⟩

theorem Files.copy_of_ne {src dst : String} {x : β} (h : Posix.file src ≠ Posix.file dst)
    (hread : files.read src = .ok x) : files.copy src dst = .ok (files.write dst x) := by
  simp [copy, hread, h, bind, Except.bind]

theorem Files.copy_of_eq {src dst : String} {x : β} (h : Posix.file src = Posix.file dst)
    (hread : files.read src = .ok x) : files.copy src dst = .error (.sameFileError src dst) := by
  simp [copy, hread, h, bind, Except.bind]

theorem copyBin_cases (hpaths : v.HasPaths) (hbin : v.baseBin = some b.binPath)
    (hdwarf : v.baseDwarf = some b.dwarfPath) (h : Holds files b out) :
    (v.OwnFiles ∧ copyBin v files = .ok (writeBin files v out)) ∨
      (¬ v.OwnFiles ∧ ∃ src dst, copyBin v files = .error (.sameFileError src dst)) := by
  have hread : (files.write v.binPath out.1).read b.dwarfPath = .ok out.2 := by
    rw [Files.read_write_of_ne (binPath_ne_dwarfPath v b).symm, h.dwarf]
  by_cases hsame : Posix.file b.binPath = Posix.file v.binPath
  · refine .inr ⟨fun hown => hown.bin _ hpaths.bin _ hbin hsame, b.binPath, v.binPath, ?_⟩
    simp [copyBin, require, hpaths.bin, hbin, Files.copy_of_eq hsame h.bin, bind, Except.bind]
  · have hcopy := Files.copy_of_ne hsame h.bin
    by_cases hsame' : Posix.file b.dwarfPath = Posix.file v.dwarfPath
    · refine .inr ⟨fun hown => hown.dwarf _ hpaths.dwarf _ hdwarf hsame', b.dwarfPath, v.dwarfPath, ?_⟩
      simp [copyBin, require, hpaths.bin, hpaths.dwarf, hbin, hdwarf, hcopy, Files.copy_of_eq hsame' hread, bind,
        Except.bind]
    · refine .inl ⟨⟨?_, ?_⟩, ?_⟩
      · rintro _ hp _ hq
        cases hpaths.bin.symm.trans hp
        cases hbin.symm.trans hq
        exact hsame
      · rintro _ hp _ hq
        cases hpaths.dwarf.symm.trans hp
        cases hdwarf.symm.trans hq
        exact hsame'
      · simp [copyBin, require, hpaths.bin, hpaths.dwarf, hbin, hdwarf, hcopy, Files.copy_of_ne hsame' hread, writeBin,
          bind, Except.bind]

/-! ### Chains -/

theorem resolveChain_valid (hroot : root.linux = none) (hcs : ∀ c ∈ cs, ∀ l ∈ c.linux, l.Valid)
    (h : resolveChain wlutilDir root cs = .ok rs) : ∀ b ∈ (rs.headD root).linux, b.Valid := by
  induction cs generalizing rs with
  | nil =>
    cases h
    simp [hroot]
  | cons c cs ih =>
    obtain ⟨v, rs, rfl, hrs, hv⟩ := resolveChain_cons.mp h
    have hparent := ih (fun c hc => hcs c (List.mem_cons_of_mem _ hc)) hrs
    exact (Config.applied_of_applyBase hv).valid (hcs c List.mem_cons_self) hparent

theorem hasPaths_of_chain (h : resolveChain wlutilDir root cs = .ok (v :: rs)) (hl : v.linux.isSome) : v.HasPaths := by
  obtain ⟨c, parent, hv⟩ := applied_of_chain h List.mem_cons_self
  exact hv.hasPaths hl

def copying (cs : List Config) : List Config := cs.takeWhile (·.useParentBin)

theorem copying_cons (huse : v.useParentBin = true) : copying (v :: rs) = v :: copying rs :=
  List.takeWhile_cons_of_pos huse

def Outcome (compiled : Except MakeError (β × β)) (own : Prop) (v : Config) (r : Except MakeError (Files β)) : Prop :=
  match compiled with
  | .error e => r = .error e
  | .ok out =>
    (own ∧ ∃ files', r = .ok files' ∧ Holds files' v out) ∨ (¬ own ∧ ∃ src dst, r = .error (.sameFileError src dst))

/-- What is built for a chain is what is compiled from the options of its first configuration. -/
theorem buildBin_spec (tools : Toolchain β) (files : Files β) (hroot : root.linux = none)
    (hcs : ∀ c ∈ cs, ∀ l ∈ c.linux, l.Valid)
    (h : resolveChain wlutilDir root cs = .ok (v :: rs)) {l : Linux} (hl : v.linux = some l) :
    Outcome (compile tools l v.firmware none) (∀ u ∈ copying (v :: rs), u.OwnFiles) v
      (buildBin tools (v :: rs) files) := by
  induction cs generalizing v rs with
  | nil => cases h
  | cons c cs ih =>
    obtain ⟨_, _, ⟨⟩, hrs, hv⟩ := resolveChain_cons.mp h
    have happlied := Config.applied_of_applyBase hv
    have hpaths : v.HasPaths := hasPaths_of_chain h (by simp [hl])
    have hcs' : ∀ c ∈ cs, ∀ l ∈ c.linux, l.Valid := fun c hc => hcs c (List.mem_cons_of_mem _ hc)
    cases huse : v.useParentBin with
    | false =>
      have hbuild : buildBin tools (v :: rs) files = makeBin tools v false files := by
        simp [buildBin, huse, bind, Except.bind]
      rw [hbuild, makeBin_scratch hl hpaths huse]
      cases compile tools l v.firmware none with
      | error e => rfl
      | ok out => exact .inl ⟨by simp [copying, huse], _, rfl, holds_writeBin files v out⟩
    | true =>
      obtain ⟨-, hlinux, hfirmware⟩ := happlied.same_options (resolveChain_valid hroot hcs' hrs) huse
      have hmake : makeBin tools v false = copyBin v := by
        funext files
        simp [makeBin, huse]
      rw [buildBin, if_pos huse, hmake, copying_cons huse, List.forall_mem_cons]
      -- The base has the same options, and so it is not the root.
      cases rs with
      | nil => simp [hroot, hl] at hlinux
      | cons b rs =>
        simp only [List.headD_cons] at hlinux hfirmware happlied
        have hb := ih hcs' hrs (hlinux.trans hl)
        rw [hfirmware] at hb
        cases hout : compile tools l v.firmware none with
        | error e =>
          rw [hout] at hb
          rw [show buildBin tools (b :: rs) files = .error e from hb]
          rfl
        | ok out =>
          rw [hout] at hb
          obtain ⟨hown, files', hfiles, hholds⟩ | ⟨hown, src, dst, herror⟩ := hb
          · have hbpaths : b.HasPaths := hasPaths_of_chain hrs (by simp [hlinux, hl])
            rw [hfiles]
            obtain ⟨hv, hcopy⟩ | ⟨hv, hcopy⟩ := copyBin_cases hpaths
              (by rw [happlied.baseBin, hbpaths.bin, Option.some_or])
              (by rw [happlied.baseDwarf, hbpaths.dwarf, Option.some_or]) hholds
            · exact .inl ⟨⟨hv, hown⟩, _, hcopy, holds_writeBin files' v out⟩
            · exact .inr ⟨fun h => hv h.1, hcopy⟩
          · rw [herror]
            exact .inr ⟨fun h => hown h.2, src, dst, rfl⟩

theorem Files.read_eq_ok {path : String} {x : β} : files.read path = .ok x ↔ files (Posix.file path) = some x := by
  unfold Files.read
  cases files (Posix.file path) <;> simp

def Config.outputs? (v : Config) (files : Files β) : Option (Option β) × Option (Option β) :=
  (v.bin.map fun path => files (Posix.file path), v.dwarf.map fun path => files (Posix.file path))

theorem Holds.outputs (h : Holds files v out) (hpaths : v.HasPaths) :
    v.outputs? files = (some (some out.1), some (some out.2)) := by
  simp [Config.outputs?, hpaths.bin, hpaths.dwarf, Files.read_eq_ok.mp h.bin, Files.read_eq_ok.mp h.dwarf]

def Config.fromScratch (v : Config) : Config := { v with useParentBin := false }

def Config.Complete (v : Config) : Prop :=
  ∃ l f, v.linux = some l ∧ v.firmware = some f ∧ l.source.isSome ∧ f.source.isSome ∧ l.config.isSome

theorem Config.complete_iff {l : Linux} (tools : Toolchain β) (img : Option β) (hl : v.linux = some l) :
    v.Complete ↔ ∃ out, compile tools l v.firmware img = .ok out := by
  constructor
  · rintro ⟨l', f, hl', hf, hsource, hfsource, hconfig⟩
    cases hl.symm.trans hl'
    obtain ⟨_, hsource⟩ := Option.isSome_iff_exists.mp hsource
    obtain ⟨_, hfsource⟩ := Option.isSome_iff_exists.mp hfsource
    obtain ⟨_, hconfig⟩ := Option.isSome_iff_exists.mp hconfig
    simp [compile, require, hf, hsource, hfsource, hconfig, bind, Except.bind]
  · rintro ⟨out, hout⟩
    obtain ⟨_, hsource, hout⟩ := Except.bind_ok hout
    obtain ⟨f, hf, hout⟩ := Except.bind_ok hout
    obtain ⟨_, hfsource, hout⟩ := Except.bind_ok hout
    obtain ⟨_, hconfig, -⟩ := Except.bind_ok hout
    rw [require_eq_ok] at hsource hf hfsource hconfig
    exact ⟨l, f, hl, hf, by simp [hsource], by simp [hfsource], by simp [hconfig]⟩

/-- For every chain that ends in a distro, the binary that is copied from bases is the one that would be compiled
    from scratch, unless one of those that are copied is the file of the base itself. -/
theorem buildBin_eq_scratch_iff {ω : Type} (m : Marshal ω) (w : DistroWorkload ω) (d : Ref)
    (hcs : ∀ c ∈ cs, ∀ l ∈ c.linux, l.Valid) (h : resolveChain wlutilDir (m.distroConfig w d) cs = .ok (v :: rs)) :
    (∀ (tools : Toolchain β) (files : Files β),
      ((buildBin tools (v :: rs) files).map v.outputs? = (makeBin tools v.fromScratch false files).map v.outputs? ↔
        (v.Complete → ∀ u ∈ copying (v :: rs), u.OwnFiles))) ∧
    ∀ u ∈ v :: rs, u.hostInit.isSome = true → u.useParentBin = false := by
  constructor
  · intro tools files
    cases hl : v.linux with
    | none =>
      have huse : v.useParentBin = false := by
        obtain ⟨c, parent, hv⟩ := applied_of_chain h List.mem_cons_self
        simp [hv.useParentBin, hl]
      simp [buildBin, makeBin, Config.fromScratch, copying, huse, hl, bind, Except.bind]
    | some l =>
      have hpaths : v.HasPaths := hasPaths_of_chain h (by simp [hl])
      have hspec := buildBin_spec tools files rfl hcs h hl
      have hcomplete := Config.complete_iff tools none hl
      rw [makeBin_scratch (v := v.fromScratch) hl ⟨hpaths.bin, hpaths.dwarf⟩ rfl]
      rw [show v.fromScratch.firmware = v.firmware from rfl]
      cases hout : compile tools l v.firmware none with
      | error e =>
        rw [hout] at hspec hcomplete
        rw [show buildBin tools (v :: rs) files = .error e from hspec]
        refine ⟨fun _ hv => ?_, fun _ => rfl⟩
        obtain ⟨_, hok⟩ := hcomplete.mp hv
        cases hok
      | ok out =>
        rw [hout] at hspec hcomplete
        obtain ⟨hown, files', hfiles, hholds⟩ | ⟨hown, src, dst, herror⟩ := hspec
        · rw [hfiles]
          refine ⟨fun _ _ => hown, fun _ => ?_⟩
          exact congrArg Except.ok ((hholds.outputs hpaths).trans ((holds_writeBin files v out).outputs hpaths).symm)
        · rw [herror]
          exact ⟨fun heq => (by cases heq), fun h => absurd (h (hcomplete.mpr ⟨out, rfl⟩)) hown⟩
  · intro u hu hinit
    obtain ⟨c, parent, happlied⟩ := applied_of_chain h hu
    exact happlied.not_useParentBin hinit

end Build

/-! ### A workload without options of its own -/

def fragmentTools : Toolchain (List String) where
  bootBin l _ _ := l.config.getD []
  vmlinux l _ _ := l.config.getD []

def brDistro : Config :=
  Marshal.distroConfig (ω := Unit) { distroMods := [], imageDir := "/images" }
    { name := "br", distroName := "br", opts := (), builder := "br", img := some "/images/br.img" } 0

def copiedChain (name : String) : List Config :=
  [{ name := name, outDir := joinPath "/images" name }, { name := "middle", outDir := "/images/middle" },
    { name := "br-base", outDir := "/images/br-base", firmware := some { opensbiSrc := some "/opensbi" }
      linux := some { source := some "/linux", config := some ["/kconfig"] } }]

theorem copiedChain_valid (name : String) : ∀ c ∈ copiedChain name, ∀ l ∈ c.linux, l.Valid := by
  simp [copiedChain, Linux.Valid]

theorem buildBin_eq_scratch_child : ∃ v rs, resolveChain "/wlutil" brDistro (copiedChain "child") = .ok (v :: rs) ∧
    (copying (v :: rs)).length = 2 ∧ (buildBin fragmentTools (v :: rs) fun _ => none).map v.outputs? =
      (makeBin fragmentTools v.fromScratch false fun _ => none).map v.outputs? := by
  obtain ⟨v, rs, hchain, hlen, hown⟩ : ∃ v rs, resolveChain "/wlutil" brDistro (copiedChain "child") = .ok (v :: rs) ∧
      (copying (v :: rs)).length = 2 ∧ ∀ u ∈ copying (v :: rs), u.OwnFiles := by
    exact ⟨_, _, rfl, by decide +kernel, by decide +kernel⟩
  refine ⟨v, rs, hchain, hlen, ?_⟩
  exact ((buildBin_eq_scratch_iff _ _ _ (copiedChain_valid _) hchain).1 fragmentTools _).mpr fun _ => hown

theorem buildBin_same_file : ∃ v rs, resolveChain "/wlutil" brDistro (copiedChain "middle") = .ok (v :: rs) ∧
    (buildBin fragmentTools (v :: rs) fun _ => none).map v.outputs? =
      .error (.sameFileError "/images/middle/middle-bin" "/images/middle/middle-bin") ∧
    (makeBin fragmentTools v.fromScratch false fun _ => none).map v.outputs? =
      .ok (some (some ["/kconfig"]), some (some ["/kconfig"])) :=
  ⟨_, _, rfl, by decide +kernel, by decide +kernel⟩

end FireMarshal
