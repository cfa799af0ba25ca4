import FireMarshal.Build.Bin
import FireMarshal.Build.Inputs
import FireMarshal.Theorems.Build.Graph

/-! Which files a task reads without a file dependency on them. -/

namespace FireMarshal

def MadeFor (g : List Task) (t : Task) (f : String) : Prop := ∃ u ∈ g, u ≠ t ∧ f ∈ u.targets

/-- Every file that a task reads and another one makes is a file dependency. -/
def AllListed (env : ActionEnv) (g : List Task) : Prop :=
  ∀ t ∈ g, ∀ f, MadeFor g t f → (t.action.inputs env).has f = true → t.lists g f = true

/-! ### Files that are made -/

/-- What a file is made for: busybox, a workload in some role, or a distro. -/
inductive Maker where
  | busybox
  | workload (c : Config) (r : Role)
  | distro

/-- The files that are made, of the configurations that are the first ones to use the names of their tasks. -/
inductive Makes (env : BuildEnv) (cfgs : Dict String Ref) (val : Ref → Config) : Maker → String → Prop
  | busybox {f : String} : kept env cfgs val "build_busybox" = some (Config.busyboxTask env) →
      f ∈ (Config.busyboxTask env).targets → Makes env cfgs val .busybox f
  | bin {c : Config} {f : String} : c.Registers env cfgs val .bin → f ∈ c.bin.toList ++ c.dwarf.toList →
      Makes env cfgs val (.workload c .bin) f
  | nodisk {c : Config} {f : String} : c.Registers env cfgs val .nodisk →
      f ∈ (c.bin.toList ++ c.dwarf.toList).map noDiskPath → Makes env cfgs val (.workload c .nodisk) f
  | img {c : Config} {f : String} : c.Registers env cfgs val .img → c.img = some f →
      Makes env cfgs val (.workload c .img) f
  | distro {r : Ref} {builder f : String} : r ∈ cfgs.vals → (val r).isDistro = true → (val r).img = some f →
      (val r).builder = some builder → kept env cfgs val f = some (baseImageTask env builder f) →
      Makes env cfgs val .distro f

namespace Config

/-- The file is made for something else than `c` in the role `r`. -/
def MadeElsewhere (env : BuildEnv) (cfgs : Dict String Ref) (val : Ref → Config) (c : Config) (r : Role) (f : String) :
    Prop :=
  ∃ m, m ≠ .workload c r ∧ Makes env cfgs val m f

/-- The file dependencies of an image: those that `addDep` knows, and those of the first configuration of the same name
    with files or an overlay. -/
def ImgLists (env : BuildEnv) (cfgs : Dict String Ref) (val : Ref → Config) (c : Config) (f : String) : Prop :=
  names c.imgFileDeps f = true ∨ c.hasFiles = true ∧ ∃ p ∈ visited cfgs val, p.Registers env cfgs val .fileDeps ∧
    p.fileDepsTask.name = c.fileDepsTask.name ∧ p.fileDepsTask.action.fileDep.has f = true

/-- What the own tasks of a configuration read, besides that which is a file dependency in any case, is made for nothing
    else or is a file dependency all the same. -/
structure Covered (env : ActionEnv) (cfgs : Dict String Ref) (val : Ref → Config) (c : Config) : Prop where
  copied : c.Registers env.toBuildEnv cfgs val .bin → c.useParentBin = true →
    ∀ f, c.copyInputs.has f = true → c.MadeElsewhere env.toBuildEnv cfgs val .bin f → names c.binFileDeps f = true
  compiled : c.Registers env.toBuildEnv cfgs val .bin → c.useParentBin = false → ∀ l ∈ c.linux,
    ∀ f, (c.compileInputs env l false).has f = true → c.MadeElsewhere env.toBuildEnv cfgs val .bin f →
      names c.binFileDeps f = true
  nodisk : c.Registers env.toBuildEnv cfgs val .nodisk → ∀ l ∈ c.linux,
    ∀ f, (c.compileInputs env l true).has f = true → c.MadeElsewhere env.toBuildEnv cfgs val .nodisk f →
      names (c.binFileDeps ++ c.img.toList) f = true
  booted : c.Registers env.toBuildEnv cfgs val .img → c.guestInit.isSome = true →
    ∀ f, names c.bin.toList f = true → c.MadeElsewhere env.toBuildEnv cfgs val .img f →
      c.ImgLists env.toBuildEnv cfgs val f
  /-- An image with files or an overlay, where these are taken from another configuration of the same name. -/
  content : c.Registers env.toBuildEnv cfgs val .img → ¬ c.Registers env.toBuildEnv cfgs val .fileDeps →
    ∀ f, c.contentInputs.has f = true → c.MadeElsewhere env.toBuildEnv cfgs val .img f →
      c.ImgLists env.toBuildEnv cfgs val f

end Config

section
variable {env : ActionEnv} {cfgs : Dict String Ref} {val : Ref → Config} {g : List Task}
variable {t u : Task} {c : Config} {f : String} {r : Role}

theorem names_iff {paths : List String} : names paths f = true ↔ ∃ path ∈ paths, Posix.file path = Posix.file f := by
  simp [names]

theorem names_append (paths paths' : List String) : names (paths ++ paths') f = (names paths f || names paths' f) :=
  List.any_append

theorem names_of_subset {paths paths' : List String} (h : paths ⊆ paths') (hf : names paths f = true) :
    names paths' f = true := by
  obtain ⟨path, hpath, heq⟩ := names_iff.mp hf
  exact names_iff.mpr ⟨path, h hpath, heq⟩

theorem names_of_mem {paths : List String} (h : f ∈ paths) : names paths f = true := names_iff.mpr ⟨f, h, rfl⟩

theorem Inputs.has_iff {i : Inputs} : i.has f = true ↔ names i.files f = true ∨ ∃ d ∈ i.dirs, under d f = true := by
  simp [has]

theorem makes_of_mem (hg : buildDepGraph env.toBuildEnv cfgs val = .ok g) (hu : u ∈ g) (hf : f ∈ u.targets) :
    ∃ m, Makes env.toBuildEnv cfgs val m f ∧ ∀ c r, m = .workload c r → c.task r = some u := by
  have hkept := (mem_iff_kept hg).mp hu
  obtain ⟨v, hv, hmem⟩ := mem_offered.mp (offered_of_mem hg hu)
  cases v with
  | baseImage c img =>
    obtain ⟨builder, hbuilder, rfl⟩ := List.mem_map.mp hmem
    obtain ⟨q, hq, rfl, hd, hi⟩ := mem_visits_baseImage.mp hv
    obtain rfl : f = img := List.mem_singleton.mp hf
    refine ⟨.distro, .distro hq hd hi (Option.mem_toList.mp hbuilder) hkept, fun _ _ heq => ?_⟩
    cases heq
  | workload c =>
    rcases Config.mem_depTasks.mp hmem with hleaf | ⟨r, htask⟩
    · rcases Config.leafTasks_cases hleaf with rfl | ⟨script, -, rfl⟩ | rfl | rfl
      · refine ⟨.busybox, .busybox hkept hf, fun _ _ heq => ?_⟩
        cases heq
      · cases hf
      · cases hf
      · cases hf
    · have hregisters : c.Registers env.toBuildEnv cfgs val r := ⟨u, htask, hkept⟩
      refine ⟨.workload c r, ?_, fun _ _ heq => by cases heq; exact htask⟩
      cases r with
      | leaf => cases htask
      | bin =>
        obtain ⟨bin, hbin, rfl⟩ := Option.map_eq_some_iff.mp htask
        exact .bin hregisters (by simpa [Config.binTask, hbin] using hf)
      | nodisk =>
        obtain ⟨bin, hbin, rfl⟩ := Option.map_eq_some_iff.mp (Option.ite_none_right_eq_some.mp htask).2
        refine .nodisk hregisters ?_
        cases hdwarf : c.dwarf <;> simpa [Config.nodiskTask, hbin, hdwarf] using hf
      | postBin =>
        obtain ⟨_, -, htask⟩ := Option.bind_eq_some_iff.mp htask
        obtain ⟨_, -, rfl⟩ := Option.map_eq_some_iff.mp htask
        cases hf
      | fileDeps =>
        obtain rfl := Option.some.inj (Option.ite_none_right_eq_some.mp htask).2
        cases hf
      | img =>
        obtain ⟨img, himg, rfl⟩ := Option.map_eq_some_iff.mp htask
        exact .img hregisters (by rw [himg, List.mem_singleton.mp hf])

theorem Makes.mem {m : Maker} (hg : buildDepGraph env.toBuildEnv cfgs val = .ok g)
    (h : Makes env.toBuildEnv cfgs val m f) :
    ∃ u ∈ g, f ∈ u.targets ∧ (u.role = .leaf ∨ ∃ c r, m = .workload c r ∧ c.task r = some u) := by
  cases h with
  | busybox hkept hf => exact ⟨_, mem_of_kept hg hkept, hf, .inl rfl⟩
  | distro _ _ _ _ hkept => exact ⟨_, mem_of_kept hg hkept, List.mem_singleton_self f, .inl rfl⟩
  | bin hregisters hf =>
    obtain ⟨u, hu, htask⟩ := hregisters.mem hg
    obtain ⟨bin, hbin, rfl⟩ := Option.map_eq_some_iff.mp htask
    exact ⟨_, hu, by simpa [Config.binTask, hbin] using hf, .inr ⟨_, _, rfl, htask⟩⟩
  | @nodisk c _ hregisters hf =>
    obtain ⟨u, hu, htask⟩ := hregisters.mem hg
    obtain ⟨bin, hbin, rfl⟩ := Option.map_eq_some_iff.mp (Option.ite_none_right_eq_some.mp htask).2
    refine ⟨_, hu, ?_, .inr ⟨_, _, rfl, htask⟩⟩
    cases hdwarf : c.dwarf <;> simpa [Config.nodiskTask, hbin, hdwarf] using hf
  | img hregisters himg =>
    obtain ⟨u, hu, htask⟩ := hregisters.mem hg
    obtain ⟨img, himg', rfl⟩ := Option.map_eq_some_iff.mp htask
    refine ⟨_, hu, ?_, .inr ⟨_, _, rfl, htask⟩⟩
    exact List.mem_singleton.mpr (Option.some.inj (himg.symm.trans himg'))

theorem madeFor_iff (hg : buildDepGraph env.toBuildEnv cfgs val = .ok g) (hr : r ∈ [Role.bin, .nodisk, .img])
    (ht : c.task r = some t) : MadeFor g t f ↔ c.MadeElsewhere env.toBuildEnv cfgs val r f := by
  constructor
  · rintro ⟨u, hu, hne, hf⟩
    obtain ⟨m, hm, htask⟩ := makes_of_mem hg hu hf
    exact ⟨m, fun heq => hne (Option.some.inj ((htask c r heq).symm.trans ht)), hm⟩
  · rintro ⟨m, hne, hm⟩
    obtain ⟨u, hu, hf, hcases⟩ := hm.mem hg
    refine ⟨u, hu, ?_, hf⟩
    rintro rfl
    have hrole : u.role = r := Config.role_task ht
    rcases hcases with hleaf | ⟨o, r', rfl, htask⟩
    · rw [← hrole, hleaf] at hr
      simp at hr
    · obtain rfl : r' = r := (Config.role_task htask).symm.trans hrole
      exact hne (by rw [Config.eq_of_task hr ht htask])

/-! ### File dependencies -/

theorem Config.fileDep_of_bin {nodisk : Bool} (h : c.task (if nodisk then .nodisk else .bin) = some t) :
    t.fileDep = c.binFileDeps ++ if nodisk then c.img.toList else [] := by
  cases nodisk with
  | false =>
    obtain ⟨bin, -, rfl⟩ := Option.map_eq_some_iff.mp h
    simp [binTask]
  | true =>
    obtain ⟨bin, -, rfl⟩ := Option.map_eq_some_iff.mp (Option.ite_none_right_eq_some.mp h).2
    rfl

theorem fileDeps_of_has (hg : buildDepGraph env.toBuildEnv cfgs val = .ok g) (hu : u ∈ g)
    (hf : u.action.fileDep.has f = true) : ∃ p ∈ visited cfgs val, p.Registers env.toBuildEnv cfgs val .fileDeps ∧
      u = p.fileDepsTask := by
  have hrole : u.role = .fileDeps := by
    cases haction : u.action <;> simp [haction, Action.fileDep, Inputs.has, names, Task.role, Action.role] at hf ⊢
  obtain ⟨p, hp, htask⟩ := config_of_mem hg hu (by simp [hrole])
  rw [hrole] at htask
  exact ⟨p, hp, Config.registers_of_mem hg hu htask, (Option.some.inj (Option.ite_none_right_eq_some.mp htask).2).symm⟩

theorem Config.head?_fileDepsTask_name (p : Config) : p.fileDepsTask.name.toList.head? = some 'c' := by
  simp [fileDepsTask]

theorem Config.head?_binCalcDepTasks_name {w : Task} (h : w ∈ c.binCalcDepTasks) : w.name.toList.head? = some '_' := by
  have hcalc : w = c.submoduleDepsTask ∨ w = c.kmodDepsTask := by
    unfold binCalcDepTasks at h
    split at h
    · simpa using h
    · exact .inl (by simpa using h)
  rcases hcalc with rfl | rfl
  · simp [submoduleDepsTask]
  · simp [kmodDepsTask]

theorem lists_bin {nodisk : Bool} (hg : buildDepGraph env.toBuildEnv cfgs val = .ok g)
    (h : c.task (if nodisk then .nodisk else .bin) = some t) :
    t.lists g f = true ↔ names (c.binFileDeps ++ if nodisk then c.img.toList else []) f = true := by
  rw [← Config.fileDep_of_bin h, Task.lists, Bool.or_eq_true]
  refine or_iff_left fun hcalc => ?_
  simp only [List.any_eq_true, Bool.and_eq_true, List.contains_iff_mem] at hcalc
  obtain ⟨u, hu, hname, hhas⟩ := hcalc
  obtain ⟨p, -, -, rfl⟩ := fileDeps_of_has hg hu hhas
  cases nodisk with
  | true =>
    obtain ⟨bin, -, rfl⟩ := Option.map_eq_some_iff.mp (Option.ite_none_right_eq_some.mp h).2
    cases hname
  | false =>
    obtain ⟨bin, -, rfl⟩ := Option.map_eq_some_iff.mp h
    obtain ⟨w, hw, hwname⟩ := List.mem_map.mp (show p.fileDepsTask.name ∈ c.binCalcDepTasks.map Task.name from hname)
    have hhead := Config.head?_binCalcDepTasks_name hw
    rw [hwname, p.head?_fileDepsTask_name] at hhead
    cases hhead

theorem lists_img (hg : buildDepGraph env.toBuildEnv cfgs val = .ok g) (h : c.task .img = some t) :
    t.lists g f = true ↔ c.ImgLists env.toBuildEnv cfgs val f := by
  obtain ⟨img, -, rfl⟩ := Option.map_eq_some_iff.mp h
  rw [Task.lists, Bool.or_eq_true, Config.ImgLists]
  refine or_congr Iff.rfl ?_
  simp only [List.any_eq_true, Bool.and_eq_true, List.contains_iff_mem, Config.imgTask]
  constructor
  · rintro ⟨u, hu, hname, hhas⟩
    obtain ⟨p, hp, hregisters, rfl⟩ := fileDeps_of_has hg hu hhas
    split at hname
    · next hfiles => exact ⟨hfiles, p, hp, hregisters, List.mem_singleton.mp hname, hhas⟩
    · cases hname
  · rintro ⟨hfiles, p, -, hregisters, hname, hhas⟩
    obtain ⟨u, hu, htask⟩ := hregisters.mem hg
    obtain rfl := Option.some.inj (Option.ite_none_right_eq_some.mp htask).2
    exact ⟨_, hu, by simp [hfiles, hname], hhas⟩

theorem imgLists_content (hc : c ∈ visited cfgs val) (h : c.Registers env.toBuildEnv cfgs val .fileDeps)
    (hf : c.contentInputs.has f = true) : c.ImgLists env.toBuildEnv cfgs val f := by
  obtain ⟨t, htask, hkept⟩ := h
  refine .inr ⟨(Option.ite_none_right_eq_some.mp htask).1.2, c, hc, ⟨t, htask, hkept⟩, rfl, ?_⟩
  rw [Inputs.has_iff] at hf ⊢
  refine hf.imp_left (names_of_subset fun path hpath => ?_)
  exact List.mem_append_right _ hpath

/-! ### Reads -/

theorem listed_bin {nodisk : Bool} (hg : buildDepGraph env.toBuildEnv cfgs val = .ok g)
    (hc : c.Covered env cfgs val) (ht : t ∈ g) (h : c.task (if nodisk then .nodisk else .bin) = some t)
    (hmade : MadeFor g t f) (hf : (c.binInputs env nodisk).has f = true) : t.lists g f = true := by
  have hregisters := Config.registers_of_mem hg ht h
  rw [madeFor_iff hg (by cases nodisk <;> simp) h] at hmade
  rw [lists_bin hg h, names_append, Bool.or_eq_true]
  unfold Config.binInputs at hf
  split at hf
  · next hcopy =>
    obtain ⟨hparent, hdisk⟩ : c.useParentBin = true ∧ nodisk = false := by simpa using hcopy
    subst hdisk
    exact .inl (hc.copied hregisters hparent f hf hmade)
  next hcopy =>
  cases hlinux : c.linux with
  | none => simp [hlinux, Inputs.has, names] at hf
  | some l =>
    -- The kernel fragments, and without a disk the image, are file dependencies.
    rw [hlinux, Inputs.has_iff, names_append, names_append, Bool.or_eq_true, Bool.or_eq_true, or_assoc, or_assoc,
      ← Inputs.has_iff] at hf
    rcases hf with hf | hf | hf
    · exact .inl (by simpa [Config.binFileDeps, hlinux] using hf)
    · exact .inr hf
    · cases nodisk with
      | false =>
        have hscratch : c.useParentBin = false := by simpa using hcopy
        exact .inl (hc.compiled hregisters hscratch l hlinux f hf hmade)
      | true =>
        have hlisted := hc.nodisk hregisters l hlinux f hf hmade
        rwa [names_append, Bool.or_eq_true] at hlisted

theorem listed_img (hg : buildDepGraph env.toBuildEnv cfgs val = .ok g) (hc : c.Covered env cfgs val) (ht : t ∈ g)
    (h : c.task .img = some t) (hmade : MadeFor g t f) (hf : c.imgInputs.has f = true) : t.lists g f = true := by
  rw [lists_img hg h]
  have hregisters := Config.registers_of_mem hg ht h
  have hvisited := visited_of_task (by simp) (offered_of_mem hg ht) h
  rw [madeFor_iff hg (by simp) h] at hmade
  have hcontent : c.contentInputs.has f = true → c.ImgLists env.toBuildEnv cfgs val f := by
    intro hf
    by_cases hown : c.Registers env.toBuildEnv cfgs val .fileDeps
    · exact imgLists_content hvisited hown hf
    · exact hc.content hregisters hown f hf hmade
  have hlisted : ∀ paths ⊆ c.imgFileDeps, names paths f = true → c.ImgLists env.toBuildEnv cfgs val f :=
    fun paths hpaths hf => .inl (names_of_subset hpaths hf)
  rw [Inputs.has_iff] at hf
  rcases hf with hf | hf
  · simp only [Config.imgInputs, names_append, Bool.or_eq_true] at hf
    rcases hf with (((hf | hf) | hf) | hf) | hf
    · exact hlisted _ (fun path hpath => by simp_all [Config.imgFileDeps]) hf
    · exact hcontent (Inputs.has_iff.mpr (.inl hf))
    · exact hlisted _ (fun path hpath => by simp_all [Config.imgFileDeps]) hf
    · split at hf
      · next hinit => exact hc.booted hregisters hinit f hf hmade
      · cases hf
    · refine hlisted _ (fun path hpath => ?_) hf
      obtain ⟨spec, hspec, hpath⟩ := Option.bind_eq_some_iff.mp (Option.mem_toList.mp hpath)
      have hpath : spec.path = some path := (Option.ite_none_left_eq_some.mp hpath).2
      simp [Config.imgFileDeps, hspec, hpath]
  · exact hcontent (Inputs.has_iff.mpr (.inr hf))

theorem Inputs.has_of_subset {i j : Inputs} (hfiles : i.files ⊆ j.files) (hdirs : i.dirs ⊆ j.dirs)
    (h : i.has f = true) : j.has f = true := by
  rw [has_iff] at h ⊢
  exact h.imp (names_of_subset hfiles) fun ⟨d, hd, hf⟩ => ⟨d, hdirs hd, hf⟩

theorem AllListed.bin {nodisk : Bool} (hg : buildDepGraph env.toBuildEnv cfgs val = .ok g) (h : AllListed env g)
    (hregisters : c.Registers env.toBuildEnv cfgs val (if nodisk then .nodisk else .bin))
    (hmade : c.MadeElsewhere env.toBuildEnv cfgs val (if nodisk then .nodisk else .bin) f)
    (hf : (c.binInputs env nodisk).has f = true) :
    names (c.binFileDeps ++ if nodisk then c.img.toList else []) f = true := by
  obtain ⟨t, ht, htask⟩ := hregisters.mem hg
  refine (lists_bin hg htask).mp (h t ht f ((madeFor_iff hg (by cases nodisk <;> simp) htask).mpr hmade) ?_)
  have haction : t.action = .makeBin c nodisk := by
    cases nodisk with
    | false =>
      obtain ⟨bin, -, rfl⟩ := Option.map_eq_some_iff.mp htask
      rfl
    | true =>
      obtain ⟨bin, -, rfl⟩ := Option.map_eq_some_iff.mp (Option.ite_none_right_eq_some.mp htask).2
      rfl
  rwa [haction]

theorem AllListed.img (hg : buildDepGraph env.toBuildEnv cfgs val = .ok g) (h : AllListed env g)
    (hregisters : c.Registers env.toBuildEnv cfgs val .img) (hmade : c.MadeElsewhere env.toBuildEnv cfgs val .img f)
    (hf : c.imgInputs.has f = true) : c.ImgLists env.toBuildEnv cfgs val f := by
  obtain ⟨t, ht, htask⟩ := hregisters.mem hg
  refine (lists_img hg htask).mp (h t ht f ((madeFor_iff hg (by simp) htask).mpr hmade) ?_)
  obtain ⟨img, -, rfl⟩ := Option.map_eq_some_iff.mp htask
  exact hf

theorem AllListed.covered (hg : buildDepGraph env.toBuildEnv cfgs val = .ok g) (h : AllListed env g) :
    c.Covered env cfgs val where
  copied hregisters hparent f hf hmade := by
    have hread : (c.binInputs env false).has f = true := by rwa [Config.binInputs, hparent]
    simpa using h.bin hg hregisters hmade hread
  compiled hregisters hscratch l hl f hf hmade := by
    have hread : (c.binInputs env false).has f = true := by
      rw [Config.binInputs, hscratch, Option.mem_def.mp hl]
      exact Inputs.has_of_subset (List.subset_append_right _ _) (List.Subset.refl _) hf
    simpa using h.bin hg hregisters hmade hread
  nodisk hregisters l hl f hf hmade := by
    have hread : (c.binInputs env true).has f = true := by
      rw [Config.binInputs, Bool.not_true, Bool.and_false, Option.mem_def.mp hl]
      exact Inputs.has_of_subset (List.subset_append_right _ _) (List.Subset.refl _) hf
    exact h.bin hg hregisters hmade hread
  booted hregisters hinit f hf hmade := by
    refine h.img hg hregisters hmade (Inputs.has_iff.mpr (.inl (names_of_subset (fun path hpath => ?_) hf)))
    simp [Config.imgInputs, hinit, Option.mem_toList.mp hpath]
  content hregisters _ f hf hmade := by
    have hfiles : c.contentInputs.files ⊆ c.imgInputs.files := fun path hpath => by
      simp only [Config.imgInputs, List.mem_append]
      exact .inl (.inl (.inl (.inr hpath)))
    exact h.img hg hregisters hmade (Inputs.has_of_subset hfiles (List.Subset.refl _) hf)

/-- All reads are file dependencies just if, of every configuration, those are for which `addDep` adds none. -/
theorem allListed_iff (hg : buildDepGraph env.toBuildEnv cfgs val = .ok g) :
    AllListed env g ↔ ∀ c ∈ visited cfgs val, c.Covered env cfgs val := by
  refine ⟨fun h c _ => h.covered hg, fun h t ht f hmade hf => ?_⟩
  cases ha : t.action with
  | makeBin c nodisk =>
    obtain ⟨hc, htask⟩ := makeBin_of_mem hg ht ha
    rw [ha] at hf
    exact listed_bin hg (h c hc) ht htask hmade hf
  | makeImage c =>
    obtain ⟨hc, htask⟩ := makeImage_of_mem hg ht ha
    rw [ha] at hf
    exact listed_img hg (h c hc) ht htask hmade hf
  | _ => simp [ha, Action.inputs, Inputs.has, names] at hf

/-! ### What the inputs determine -/

section
variable {β : Type} {tools : Toolchain β} {p q p' q' : Files β} {nodisk : Bool}

/-- Two runs, from `p` to `p'` and from `q` to `q'`, leave a file alone or write the same to it. -/
def SameWrites (p q p' q' : Files β) : Prop := ∀ x, p' x = q' x ∨ p' x = p x ∧ q' x = q x

theorem SameWrites.agree (h : SameWrites p q p' q') {x : Posix.Path} (hx : p x = q x) : p' x = q' x := by
  rcases h x with heq | ⟨hp, hq⟩
  · exact heq
  · rw [hp, hq, hx]

theorem SameWrites.trans {p'' q'' : Files β} (h : SameWrites p q p' q') (h' : SameWrites p' q' p'' q'') :
    SameWrites p q p'' q'' := by
  intro x
  rcases h' x with heq | ⟨hp, hq⟩
  · exact .inl heq
  · rw [hp, hq]
    exact h x

theorem SameWrites.write (p q : Files β) (path : String) (y : β) :
    SameWrites p q (p.write path y) (q.write path y) := by
  intro x
  by_cases hx : x = Posix.file path
  · subst hx
    simp [Files.write]
  · simp [Files.write, Function.update_of_ne hx]

theorem read_stable {x : β} (h : p (Posix.file f) = q (Posix.file f)) (hp : p.read f = .ok x) : q.read f = .ok x := by
  rwa [Files.read, ← h]

theorem copy_stable {dst : String} (h : p (Posix.file f) = q (Posix.file f)) (hp : p.copy f dst = .ok p') :
    ∃ q', q.copy f dst = .ok q' ∧ SameWrites p q p' q' := by
  obtain ⟨x, hx, hp⟩ := Except.bind_ok hp
  split at hp
  · cases hp
  next hne =>
  cases hp
  refine ⟨q.write dst x, ?_, .write p q dst x⟩
  rw [Files.copy, read_stable h hx, Except.ok_bind, if_neg hne]

theorem copyBin_stable (h : ∀ f, c.copyInputs.has f = true → p (Posix.file f) = q (Posix.file f))
    (hp : copyBin c p = .ok p') : ∃ q', copyBin c q = .ok q' ∧ SameWrites p q p' q' := by
  obtain ⟨bin, hbin, hp⟩ := Except.bind_ok hp
  obtain ⟨baseBin, hbase, hp⟩ := Except.bind_ok hp
  obtain ⟨p₁, hcopy, hp⟩ := Except.bind_ok hp
  have hinput : c.copyInputs.has baseBin = true :=
    Inputs.has_iff.mpr (.inl (names_of_mem (by simp [Config.copyInputs, require_eq_ok.mp hbase])))
  obtain ⟨q₁, hq₁, hsame⟩ := copy_stable (h baseBin hinput) hcopy
  cases hdwarf : c.dwarf with
  | none =>
    simp only [hdwarf] at hp
    cases hp
    refine ⟨q₁, ?_, hsame⟩
    simp only [copyBin, hbin, Except.ok_bind, hbase, hq₁, hdwarf]
  | some dwarf =>
    simp only [hdwarf] at hp
    obtain ⟨baseDwarf, hbase', hp⟩ := Except.bind_ok hp
    have hinput : c.copyInputs.has baseDwarf = true :=
      Inputs.has_iff.mpr (.inl (names_of_mem (by simp [Config.copyInputs, hdwarf, require_eq_ok.mp hbase'])))
    obtain ⟨q', hq', hsame'⟩ := copy_stable (hsame.agree (h baseDwarf hinput)) hp
    refine ⟨q', ?_, hsame.trans hsame'⟩
    simp only [copyBin, hbin, Except.ok_bind, hbase, hq₁, hdwarf, hbase', hq']

/-- What `makeBin` writes depends only on its inputs. -/
theorem makeBin_stable (h : ∀ f, (c.binInputs env nodisk).has f = true → p (Posix.file f) = q (Posix.file f))
    (hp : makeBin tools c nodisk p = .ok p') :
    ∃ q', makeBin tools c nodisk q = .ok q' ∧ SameWrites p q p' q' := by
  unfold makeBin at hp ⊢
  unfold Config.binInputs at h
  split at hp
  · next hcopy =>
    rw [if_pos hcopy] at h ⊢
    exact copyBin_stable h hp
  next hcopy =>
  rw [if_neg hcopy] at h ⊢
  cases hl : c.linux with
  | none =>
    simp only [hl] at hp ⊢
    cases hp
    exact ⟨q, rfl, fun _ => .inr ⟨rfl, rfl⟩⟩
  | some l =>
    simp only [hl] at hp h ⊢
    obtain ⟨img, himg, hp⟩ := Except.bind_ok hp
    obtain ⟨out, hout, hp⟩ := Except.bind_ok hp
    obtain ⟨bin, hbin, hp⟩ := Except.bind_ok hp
    obtain ⟨dwarf, hdwarf, hwrites⟩ := Except.bind_ok hp
    cases nodisk with
    | false =>
      cases himg
      cases hwrites
      simp only [hout, hbin, hdwarf, Bool.false_eq_true, if_false, Except.ok_bind]
      exact ⟨_, rfl, (SameWrites.write p q bin out.1).trans (.write _ _ dwarf out.2)⟩
    | true =>
      cases hwrites
      obtain ⟨path, hpath, himg⟩ := Except.bind_ok himg
      obtain ⟨x, hx, himg⟩ := Except.bind_ok himg
      cases himg
      have hread : q.read path = .ok x := by
        refine read_stable (h path (Inputs.has_iff.mpr (.inl (names_of_mem ?_)))) hx
        simp [require_eq_ok.mp hpath]
      simp only [hpath, hread, hout, hbin, hdwarf, if_true, Except.ok_bind]
      exact ⟨_, rfl, (SameWrites.write p q _ out.1).trans (.write _ _ _ out.2)⟩

end

/-! ### Busybox -/

def busyboxPath (env : ActionEnv) : String := joinPath (joinPath (joinPath env.initramfsDir "disk") "bin") "busybox"

theorem under_joinPath (dir : String) {path : String} (hpath : Posix.isAbsolute path = false)
    (h : ['.', '.'] ∉ (Posix.parse path).parts) : under dir (joinPath dir path) = true := by
  rw [under, joinPath, Posix.file_join hpath h]
  simp

theorem under_busyboxPath (env : ActionEnv) : under (joinPath env.initramfsDir "disk") (busyboxPath env) = true := by
  have hjoin : busyboxPath env = joinPath (joinPath env.initramfsDir "disk") "bin/busybox" :=
    (Posix.join_assoc _ "bin" "busybox").symm
  rw [hjoin]
  exact under_joinPath _ (by decide) (by decide)

/-- A binary of Linux from scratch holds busybox, on which it has no file dependency. -/
theorem Config.Registers.not_allListed {l : Linux} (hg : buildDepGraph env.toBuildEnv cfgs val = .ok g)
    (h : c.Registers env.toBuildEnv cfgs val .bin) (hscratch : c.useParentBin = false) (hl : c.linux = some l)
    (hbusybox : kept env.toBuildEnv cfgs val "build_busybox" = some (Config.busyboxTask env.toBuildEnv))
    (hconfig : names c.binFileDeps (busyboxPath env) = false) : ¬ AllListed env g := by
  intro hall
  have hmade : c.MadeElsewhere env.toBuildEnv cfgs val .bin (busyboxPath env) := by
    refine ⟨.busybox, nofun, .busybox hbusybox ?_⟩
    simp [busyboxPath, Config.busyboxTask]
  have hread : (c.compileInputs env l false).has (busyboxPath env) = true := by
    refine Inputs.has_iff.mpr (.inr ⟨joinPath env.initramfsDir "disk", ?_, under_busyboxPath env⟩)
    simp [Config.compileInputs]
  rw [(hall.covered hg).compiled h hscratch l hl _ hread hmade] at hconfig
  cases hconfig

end

/-! ### Workloads with and without Linux -/

def sampleActionEnv : ActionEnv := { sampleEnv with busyboxDir := "/busybox" }

def packedConfigs : Ref → Config
  | 0 => sampleDistro
  | 1 => { name := "prog", outDir := "/images/prog", bin := some "/prog/prog.riscv" }
  | _ =>
    sampleInit { name := "pack", outDir := "/images/pack", files := some [⟨"/prog/prog.riscv", "/root/prog"⟩] } sampleDistro

def packedCfgs : Dict String Ref := [("br", 0), ("prog", 1), ("pack", 2)]

theorem allListed_packed : ∃ g, buildDepGraph sampleEnv packedCfgs packedConfigs = .ok g ∧ AllListed sampleActionEnv g ∧
    ∃ t ∈ g, t.action = .makeImage (packedConfigs 2) ∧ ∀ f ∈ ["/images/br.img", "/prog/prog.riscv"],
      (∃ u ∈ g, u ≠ t ∧ f ∈ u.targets) ∧ (t.action.inputs sampleActionEnv).has f = true ∧ t.lists g f = true := by
  have hg : buildDepGraph sampleActionEnv.toBuildEnv packedCfgs packedConfigs = .ok _ :=
    buildDepGraph_eq_ok.mpr ⟨by decide +kernel, rfl⟩
  have hvisited : ∀ c ∈ visited packedCfgs packedConfigs, c.linux = none ∧ c.useParentBin = false ∧ c.guestInit = none ∧
      (c.Registers sampleEnv packedCfgs packedConfigs .img → c.Registers sampleEnv packedCfgs packedConfigs .fileDeps) := by
    decide +kernel
  refine ⟨_, hg, (allListed_iff hg).mpr fun c hc => ?_, (packedConfigs 2).imgTask "/images/pack/pack.img",
    by decide +kernel, rfl, by decide +kernel⟩
  obtain ⟨hlinux, hscratch, hinit, hfiles⟩ := hvisited c hc
  exact {
    copied := fun _ hparent => absurd hparent (by simp [hscratch])
    compiled := fun _ _ l hl => absurd hl (by simp [hlinux])
    nodisk := fun _ l hl => absurd hl (by simp [hlinux])
    booted := fun _ hsome => absurd hsome (by simp [hinit])
    content := fun himg hfileDeps => absurd (hfiles himg) hfileDeps }

def copiedConfigs : Ref → Config
  | 0 => sampleDistro
  | 1 => sampleInit (sampleLinux "parent" none) sampleDistro
  | _ => sampleInit { name := "child", outDir := "/images/child" } (sampleInit (sampleLinux "parent" none) sampleDistro)

def copiedCfgs : Dict String Ref := [("br", 0), ("parent", 1), ("child", 2)]

/-- The task of the child copies the binary of its base, on which it has no file dependency. -/
theorem buildDepGraph_copy_unlisted : ∃ g, buildDepGraph sampleEnv copiedCfgs copiedConfigs = .ok g ∧
    ∃ t ∈ g, ∃ u ∈ g, u ≠ t ∧ t.action = .makeBin (copiedConfigs 2) false ∧ "/images/parent/parent-bin" ∈ u.targets ∧
      (t.action.inputs sampleActionEnv).has "/images/parent/parent-bin" = true ∧
      t.lists g "/images/parent/parent-bin" = false := by
  have hg : buildDepGraph sampleEnv copiedCfgs copiedConfigs = .ok _ := buildDepGraph_eq_ok.mpr ⟨by decide +kernel, rfl⟩
  refine ⟨_, hg, (copiedConfigs 2).binTask "/images/child/child-bin", by decide +kernel,
    (copiedConfigs 1).binTask "/images/parent/parent-bin", by decide +kernel, by decide +kernel, rfl, by decide +kernel,
    by decide +kernel, by decide +kernel⟩

end FireMarshal
