import FireMarshal.Build.Scripts
import FireMarshal.Theorems.Build.Images

/-! Whether every workload has its own scripts run. -/

namespace FireMarshal

namespace Config

/-- What a build asks for on behalf of a configuration. For a job, it asks for the binary with a disk in any case. -/
def ownTargets (c : Config) : List String := c.requestedBins ++ c.requestedImgs

/-- A build for the configuration runs its scripts in its directory, and the one after the binary with its own
    binary. -/
structure ScriptsRun (present : String → Bool) (g : List Task) (c : Config) : Prop where
  hostInit : ∀ script ∈ c.hostInit, ∃ t, Reached g c.ownTargets t ∧ (∃ o, t.action = .handleHostInit o) ∧
    t.action.script present = .ok (some { script, cwd := c.workdir })
  postBin : ∀ script ∈ c.postBin, ∃ t run, Reached g c.ownTargets t ∧ t.action.script present = .ok (some run) ∧
    run.script = script ∧ run.cwd = c.workdir ∧ run.env.lookup "FIREMARSHAL_LINUX_BIN" = c.bin

section
variable (env : BuildEnv) (cfgs : Dict String Ref) (val : Ref → Config)

/-- The first configuration that uses the name of a script runs the same: it has the script in the same place, the same
    directory and, after the binary, Linux and the same binary. -/
structure ScriptsKept (c : Config) : Prop where
  hostInit : ∀ script ∈ c.hostInit, ∃ t p, kept env cfgs val script.str = some t ∧ t.action = .handleHostInit p ∧
    p.hostInit = some script ∧ p.workdir = c.workdir
  postBin : ∀ script ∈ c.postBin, ∃ t p bin, kept env cfgs val script.str = some t ∧ t.action = .handlePostBin p bin ∧
    p.postBin = some script ∧ p.workdir = c.workdir ∧ p.linux.isSome = true ∧ c.bin = some bin

/-- The tasks for binaries and image of a configuration wait for a script: its own one, that of its base, or one that
    the image of its base waits for. -/
inductive Brings (s : String) : Config → Prop
  | own {o : Config} : s ∈ o.hostInitDeps → Brings s o
  | base {o : Config} : s ∈ o.baseDeps → Brings s o
  | image {o b : Config} {img : String} : img ∈ o.baseDeps → kept env cfgs val img = some (b.imgTask img) →
      Brings s b → Brings s o

/-- A build for the configuration makes the image: it is asked for, or goes into the binary without a disk. -/
def MakesImg (c : Config) (img : String) : Prop :=
  img ∈ c.requestedImgs ∨ c.nodisk = true ∧ ∃ bin ∈ c.bin, ∃ q : Config,
    kept env cfgs val (noDiskPath bin) = some (q.nodiskTask bin) ∧ q.img = some img

/-- For some binary or image that is built, the first configuration of that name brings the script, and that of an image
    has the same script after the binary. -/
structure ScriptsMet (c : Config) : Prop where
  hostInit : ∀ script ∈ c.hostInit, ∃ n ∈ c.ownTargets, ∃ o : Config, ∃ r ∈ [Role.bin, .nodisk, .img],
    ∃ t ∈ o.task r, kept env cfgs val n = some t ∧ Brings env cfgs val script.str o
  postBin : ∀ script ∈ c.postBin, ∃ img, c.MakesImg env cfgs val img ∧ ∃ p : Config,
    kept env cfgs val img = some (p.imgTask img) ∧ p.postBin.map RunSpec.str = some script.str

end

end Config

section
variable {env : BuildEnv} {cfgs : Dict String Ref} {val : Ref → Config} {g : List Task} {present : String → Bool}
variable {t u : Task} {c o : Config} {run : ScriptRun} {script : RunSpec} {ts : List String}

/-! ### Actions -/

theorem checkScript_eq_ok {opt : String} (h : script.path.any present = true) :
    checkScript present opt script = .ok () := if_pos h

theorem handleHostInit_eq_ok (h : handleHostInit present c = .ok (some run)) :
    c.hostInit = some run.script ∧ run.cwd = c.workdir ∧ run.env = [] := by
  unfold handleHostInit at h
  split at h
  · cases h
  · next script hscript =>
    obtain ⟨_, -, h⟩ := Except.bind_ok h
    cases h
    exact ⟨hscript, rfl, rfl⟩

theorem handlePostBin_eq_ok {bin : String} (h : handlePostBin present c bin = .ok (some run)) :
    c.postBin = some run.script ∧ run.cwd = c.workdir ∧
      run.env.lookup "FIREMARSHAL_LINUX_BIN" = if c.linux.isSome then some bin else none := by
  unfold handlePostBin at h
  split at h
  · cases h
  · next script hscript =>
    obtain ⟨_, -, h⟩ := Except.bind_ok h
    split at h
    · next hlinux =>
      cases h
      exact ⟨hscript, rfl, by simp [hlinux]⟩
    · next l hlinux =>
      split at h
      · cases h
      · cases h
        exact ⟨hscript, rfl, by simp [hlinux, List.lookup_cons]⟩

theorem Config.source_of_linux {bin : String} {l : Linux} (h : c.missingOption = none) (hbin : c.bin = some bin)
    (hl : c.linux = some l) : ∃ source, l.source = some source := by
  simp only [missingOption, Option.orElse_eq_orElse, Option.orElse_eq_or, Option.or_eq_none_iff] at h
  have hsource := h.2.2.1
  rw [hbin, Option.bind_some, hl, Option.bind_some, Option.or_eq_none_iff] at hsource
  exact Option.ne_none_iff_exists'.mp (by simpa using hsource.2)

theorem handlePostBin_linux {bin bin' : String} {l : Linux} (hc : c.missingOption = none) (hbin : c.bin = some bin')
    (hscript : c.postBin = some script) (hl : c.linux = some l) (hpresent : script.path.any present = true) :
    ∃ run, handlePostBin present c bin = .ok (some run) := by
  obtain ⟨source, hsource⟩ := Config.source_of_linux hc hbin hl
  simp [handlePostBin, hscript, checkScript_eq_ok hpresent, hl, hsource, Except.ok_bind]

/-! ### Tasks -/

theorem name_of_script (ht : t ∈ offered env cfgs val) (h : t.action.script present = .ok (some run)) :
    t.name = run.script.str := by
  obtain ⟨v, -, hmem⟩ := mem_offered.mp ht
  cases v with
  | baseImage c img =>
    obtain ⟨_, _, rfl⟩ := List.mem_map.mp hmem
    cases h
  | workload c =>
    rcases Config.mem_depTasks.mp hmem with hleaf | ⟨r, htask⟩
    · rcases Config.leafTasks_cases hleaf with rfl | ⟨script, hscript, rfl⟩ | rfl | rfl
      · cases h
      · rw [(handleHostInit_eq_ok h).1] at hscript
        rw [Option.some.inj hscript]
      · cases h
      · cases h
    · cases r with
      | leaf => cases htask
      | postBin =>
        obtain ⟨bin, -, htask⟩ := Option.bind_eq_some_iff.mp htask
        obtain ⟨script, hscript, rfl⟩ := Option.map_eq_some_iff.mp htask
        rw [(handlePostBin_eq_ok h).1] at hscript
        rw [Option.some.inj hscript]
        rfl
      | bin | img =>
        obtain ⟨_, -, rfl⟩ := Option.map_eq_some_iff.mp htask
        cases h
      | nodisk =>
        obtain ⟨_, -, rfl⟩ := Option.map_eq_some_iff.mp (Option.ite_none_right_eq_some.mp htask).2
        cases h
      | fileDeps =>
        obtain rfl := Option.some.inj (Option.ite_none_right_eq_some.mp htask).2
        cases h

theorem of_handlePostBin {bin : String} (ht : t ∈ offered env cfgs val) (ha : t.action = .handlePostBin o bin) :
    o ∈ visited cfgs val ∧ o.bin = some bin := by
  obtain ⟨c, hc, htask⟩ := config_of_offered ht (by simp [Task.role, Action.role, ha])
  rw [show t.role = .postBin by simp [Task.role, Action.role, ha]] at htask
  obtain ⟨bin', hbin, htask⟩ := Option.bind_eq_some_iff.mp htask
  obtain ⟨_, -, rfl⟩ := Option.map_eq_some_iff.mp htask
  cases ha
  exact ⟨hc, hbin⟩

/-! ### Builds -/

section
variable (hg : buildDepGraph env cfgs val = .ok g)
include hg

theorem Config.Brings.reached {s : String} (h : Config.Brings env cfgs val s o) (hkept : kept env cfgs val s = some u)
    {r : Role} (hr : r ∈ [Role.bin, .nodisk, .img]) (htask : o.task r = some t) (ht : Reached g ts t) :
    Reached g ts u := by
  have hne : r ≠ .postBin := by
    rintro rfl
    simp at hr
  induction h generalizing r t with
  | own hs =>
    refine .dep ht (mem_of_kept hg hkept) (.inl ?_)
    rw [(kept_offered hkept).2]
    exact hostInitDeps_subset hr htask hs
  | base hs =>
    refine .dep ht (mem_of_kept hg hkept) (.inl ?_)
    rw [(kept_offered hkept).2]
    exact baseDeps_subset_task htask hne hs
  | @image o b img hdep himg _ ih =>
    obtain ⟨hoffered, -⟩ := kept_offered himg
    have hbase : Reached g ts (b.imgTask img) :=
      .dep ht (mem_of_kept hg himg) (.inl (baseDeps_subset_task htask hne hdep))
    obtain ⟨-, hown⟩ := makeImage_of_mem hg (mem_of_kept hg himg) rfl
    exact ih (r := .img) (by simp) hown hbase nofun

theorem Config.MakesImg.reached {img : String} (h : c.MakesImg env cfgs val img)
    (hkept : kept env cfgs val img = some t) : Reached g c.ownTargets t := by
  rcases h with hmem | ⟨hnodisk, bin, hbin, q, hq, himg⟩
  · refine .target (mem_of_kept hg hkept) ?_
    rw [(kept_offered hkept).2]
    exact List.mem_append_right _ hmem
  · have hasked : noDiskPath bin ∈ c.ownTargets :=
      List.mem_append_left _ (mem_requestedBins.mpr ⟨bin, hbin, by simp [hnodisk]⟩)
    refine .dep (.target (mem_of_kept hg hq) hasked) (mem_of_kept hg hkept) (.inl ?_)
    rw [(kept_offered hkept).2]
    simp [nodiskTask, himg]

theorem Config.ScriptsRun.scriptsKept (hc : c ∈ visited cfgs val) (h : c.ScriptsRun present g) :
    c.ScriptsKept env cfgs val where
  hostInit script hscript := by
    obtain ⟨t, ht, ⟨o, ha⟩, hrun⟩ := h.hostInit script hscript
    have hname := name_of_script (offered_of_mem hg ht.mem) hrun
    rw [ha] at hrun
    obtain ⟨hown, hcwd, -⟩ := handleHostInit_eq_ok hrun
    refine ⟨t, o, ?_, ha, hown, hcwd.symm⟩
    rw [← hname]
    exact (mem_iff_kept hg).mp ht.mem
  postBin script hscript := by
    obtain ⟨t, run, ht, hrun, rfl, hcwd, henv⟩ := h.postBin script hscript
    have hname := name_of_script (offered_of_mem hg ht.mem) hrun
    obtain ⟨bin, hbin⟩ := bin_of_postBin (complete_of_visited hg hc) hscript
    rw [hbin] at henv
    cases ha : t.action with
    | handleHostInit p =>
      rw [ha] at hrun
      rw [(handleHostInit_eq_ok hrun).2.2] at henv
      cases henv
    | handlePostBin p bin' =>
      rw [ha] at hrun
      obtain ⟨hown, hcwd', henv'⟩ := handlePostBin_eq_ok hrun
      rw [henv] at henv'
      split at henv'
      · next hlinux =>
        refine ⟨t, p, bin', ?_, ha, hown, hcwd'.symm.trans hcwd, hlinux, hbin.trans henv'⟩
        rw [← hname]
        exact (mem_iff_kept hg).mp ht.mem
      · cases henv'
    | _ =>
      rw [ha] at hrun
      cases hrun

theorem Config.ScriptsKept.scriptsRun (h : c.ScriptsKept env cfgs val) (hmet : c.ScriptsMet env cfgs val)
    (hpresent : ∀ script ∈ c.hostInit.toList ++ c.postBin.toList, script.path.any present = true) :
    c.ScriptsRun present g where
  hostInit script hscript := by
    obtain ⟨t, p, hkept, ha, hown, hcwd⟩ := h.hostInit script hscript
    obtain ⟨n, hn, o, r, hr, x, hx, hxkept, hbrings⟩ := hmet.hostInit script hscript
    have htarget : Reached g c.ownTargets x := .target (mem_of_kept hg hxkept) (by rwa [(kept_offered hxkept).2])
    refine ⟨t, hbrings.reached hg hkept hr hx htarget, ⟨p, ha⟩, ?_⟩
    have hpath : script.path.any present = true :=
      hpresent script (List.mem_append_left _ (Option.mem_toList.mpr hscript))
    rw [ha]
    simp [Action.script, handleHostInit, hown, checkScript_eq_ok hpath, hcwd, Except.ok_bind]
  postBin script hscript := by
    obtain ⟨t, p, bin, hkept, ha, hown, hcwd, hlinux, hbin⟩ := h.postBin script hscript
    obtain ⟨img, hmakes, o, himg, hstr⟩ := hmet.postBin script hscript
    have hpath : script.path.any present = true :=
      hpresent script (List.mem_append_right _ (Option.mem_toList.mpr hscript))
    obtain ⟨l, hl⟩ := Option.isSome_iff_exists.mp hlinux
    obtain ⟨hp, hpbin⟩ := of_handlePostBin (kept_offered hkept).1 ha
    obtain ⟨run, hrun⟩ : ∃ run, handlePostBin present p bin = .ok (some run) :=
      handlePostBin_linux (complete_of_visited hg hp) hpbin hown hl hpath
    obtain ⟨hscript', hcwd', henv⟩ := handlePostBin_eq_ok hrun
    refine ⟨t, run, ?_, by rw [ha]; exact hrun, ?_, hcwd'.trans hcwd, ?_⟩
    · refine .dep (hmakes.reached hg himg) (mem_of_kept hg hkept) (.inl ?_)
      rw [(kept_offered hkept).2]
      simp [imgTask, imgTaskDeps, hstr]
    · exact Option.some.inj (hscript'.symm.trans hown)
    · rw [henv, if_pos hlinux, hbin]

end

theorem Config.task_of_ownTarget {n : String} (hn : n ∈ c.ownTargets) :
    ∃ r ∈ [Role.bin, .nodisk, .img], ∃ t, c.task r = some t ∧ t.name = n := by
  rcases List.mem_append.mp hn with hn | hn
  · obtain ⟨bin, hbin, hname⟩ := mem_requestedBins.mp hn
    rw [Option.mem_def] at hbin
    split at hname
    · next hnodisk => exact ⟨.nodisk, by simp, c.nodiskTask bin, by simp [task, hnodisk, hbin], hname⟩
    · exact ⟨.bin, by simp, c.binTask bin, by simp [task, hbin], hname⟩
  · obtain ⟨-, himg⟩ := mem_requestedImgs.mp hn
    exact ⟨.img, by simp, c.imgTask n, by simp [task, himg], rfl⟩

theorem Config.Registers.kept_task {r : Role} (h : c.Registers env cfgs val r) (ht : c.task r = some t) :
    kept env cfgs val t.name = some t := by
  obtain ⟨u, hu, hkept⟩ := h
  rwa [Option.some.inj (ht.symm.trans hu)]

/-- Where the own tasks of a configuration are kept, a build comes to its 'host-init', and to its 'post-bin' if it makes
    the image. -/
theorem Config.scriptsMet_of_registers
    (hown : ∀ r ∈ [Role.bin, .nodisk, .img], (c.task r).isSome = true → c.Registers env cfgs val r)
    (hinit : c.hostInit.isSome = true → c.ownTargets ≠ [])
    (hpost : c.postBin.isSome = true →
      c.img.isSome = true ∧ (c.imgHardcoded = false ∨ c.nodisk = true ∧ c.bin.isSome = true)) :
    c.ScriptsMet env cfgs val where
  hostInit script hscript := by
    rw [Option.mem_def] at hscript
    obtain ⟨n, hn⟩ := List.exists_mem_of_ne_nil _ (hinit (by simp [hscript]))
    obtain ⟨r, hr, t, ht, rfl⟩ := task_of_ownTarget hn
    refine ⟨_, hn, c, r, hr, t, ht, (hown r hr (by simp [ht])).kept_task ht, .own ?_⟩
    simp [hostInitDeps, hscript]
  postBin script hscript := by
    rw [Option.mem_def] at hscript
    obtain ⟨hsome, hasked⟩ := hpost (by simp [hscript])
    obtain ⟨img, himg⟩ := Option.isSome_iff_exists.mp hsome
    have htask : c.task .img = some (c.imgTask img) := by simp [task, himg]
    refine ⟨img, ?_, c, (hown .img (by simp) (by simp [htask])).kept_task htask, by simp [hscript]⟩
    rcases hasked with hasked | ⟨hnodisk, hbin⟩
    · exact .inl (mem_requestedImgs.mpr ⟨hasked, himg⟩)
    · obtain ⟨bin, hbin⟩ := Option.isSome_iff_exists.mp hbin
      have htask : c.task .nodisk = some (c.nodiskTask bin) := by simp [task, hnodisk, hbin]
      exact .inr ⟨hnodisk, bin, hbin, c, (hown .nodisk (by simp) (by simp [htask])).kept_task htask, himg⟩

end

/-! ### Jobs with scripts -/

def postBinJobs (args : String → List String) : Ref → Config
  | 0 => sampleDistro
  | 1 => { parent with jobs := [2, 3] }
  | 2 => job "w-a"
  | _ => job "w-b"
where
  parent : Config :=
    { sampleInit (sampleLinux "w" none) sampleDistro with workdir := "/w", hostInit := some { path := some "/w/init.sh" } }
  job (name : String) : Config :=
    { sampleInit (sampleLinux name (some { path := some "/w/post.sh", args := args name })) parent with workdir := "/w" }

def postBinJobCfgs : Dict String Ref := [("br", 0), ("w", 1)]

end FireMarshal
