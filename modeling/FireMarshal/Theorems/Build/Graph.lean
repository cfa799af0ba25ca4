import FireMarshal.Build.Graph

/-! What the task graph holds: which tasks were offered, and which configuration registered each of them. -/

namespace FireMarshal

/-! ### Roles of tasks -/

inductive Role where
  | leaf | bin | nodisk | postBin | fileDeps | img
deriving DecidableEq, Repr

/-- The tasks of the same configuration that one may wait for. -/
def Role.before : Role → List Role
  | .leaf | .bin => []
  | .nodisk => [.img]
  | .postBin => [.bin, .nodisk]
  | .fileDeps => [.bin, .postBin]
  | .img => [.bin, .postBin, .fileDeps]

instance {P : Role → Prop} [DecidablePred P] : Decidable (∀ r, P r) :=
  decidable_of_iff (P .leaf ∧ P .bin ∧ P .nodisk ∧ P .postBin ∧ P .fileDeps ∧ P .img)
    ⟨fun ⟨h₁, h₂, h₃, h₄, h₅, h₆⟩ r => by cases r <;> assumption, fun h => ⟨h _, h _, h _, h _, h _, h _⟩⟩

def Action.role : Action → Role
  | .makeBin _ false => .bin
  | .makeBin _ true => .nodisk
  | .handlePostBin .. => .postBin
  | .fileDeps .. => .fileDeps
  | .makeImage _ => .img
  | _ => .leaf

def Task.role (t : Task) : Role := t.action.role

namespace Config

def task (c : Config) : Role → Option Task
  | .leaf => none
  | .bin => c.bin.map c.binTask
  | .nodisk => if c.nodisk then c.bin.map c.nodiskTask else none
  | .postBin => c.bin.bind fun bin => c.postBin.map (c.postBinTask bin)
  | .fileDeps => if c.img.isSome ∧ c.hasFiles then some c.fileDepsTask else none
  | .img => c.img.map c.imgTask

def leafTasks (env : BuildEnv) (c : Config) : List Task :=
  busyboxTask env :: (c.hostInitTasks ++ if c.bin.isSome then c.binCalcDepTasks else [])

variable {env : BuildEnv} {c : Config} {t : Task} {r : Role}

theorem mem_leafTasks : t ∈ c.leafTasks env ↔
    t = busyboxTask env ∨ t ∈ c.hostInitTasks ∨ c.bin.isSome = true ∧ t ∈ c.binCalcDepTasks := by
  rw [leafTasks, List.mem_cons, List.mem_append]
  split
  · next hbin => simp [hbin]
  · next hbin => simp [hbin]

theorem mem_depTasks : t ∈ c.depTasks env ↔ t ∈ c.leafTasks env ∨ ∃ r, c.task r = some t := by
  rw [mem_leafTasks]
  simp only [depTasks, List.mem_append, List.mem_singleton, List.mem_flatMap, Option.mem_toList]
  constructor
  · rintro (((((h | h) | ⟨bin, hbin, h | h⟩) | h) | ⟨bin, hbin, h⟩) | ⟨img, himg, h | h⟩)
    · exact .inl (.inl h)
    · exact .inl (.inr (.inl h))
    · exact .inl (.inr (.inr ⟨by rw [hbin]; rfl, h⟩))
    · exact .inr ⟨.bin, by rw [task, hbin, h]; rfl⟩
    · split at h
      · next hnodisk =>
        obtain ⟨bin, hbin, rfl⟩ := List.mem_map.mp h
        exact .inr ⟨.nodisk, by rw [task, if_pos hnodisk, Option.mem_toList.mp hbin]; rfl⟩
      · cases h
    · obtain ⟨script, hscript, rfl⟩ := List.mem_map.mp h
      exact .inr ⟨.postBin, by rw [task, hbin, Option.mem_toList.mp hscript]; rfl⟩
    · split at h
      · next hfiles => exact .inr ⟨.fileDeps, by rw [task, himg, if_pos ⟨rfl, hfiles⟩, List.mem_singleton.mp h]⟩
      · cases h
    · exact .inr ⟨.img, by rw [task, himg, h]; rfl⟩
  · rintro ((h | h | ⟨hsome, h⟩) | ⟨r, h⟩)
    · exact .inl (.inl (.inl (.inl (.inl h))))
    · exact .inl (.inl (.inl (.inl (.inr h))))
    · obtain ⟨bin, hbin⟩ := Option.isSome_iff_exists.mp hsome
      exact .inl (.inl (.inl (.inr ⟨bin, hbin, .inl h⟩)))
    · cases r with
      | leaf => cases h
      | bin =>
        obtain ⟨bin, hbin, rfl⟩ := Option.map_eq_some_iff.mp h
        exact .inl (.inl (.inl (.inr ⟨bin, hbin, .inr rfl⟩)))
      | nodisk =>
        obtain ⟨hnodisk, h⟩ := Option.ite_none_right_eq_some.mp h
        obtain ⟨bin, hbin, rfl⟩ := Option.map_eq_some_iff.mp h
        exact .inl (.inl (.inr (by simp [hnodisk, hbin])))
      | postBin =>
        obtain ⟨bin, hbin, h⟩ := Option.bind_eq_some_iff.mp h
        obtain ⟨script, hscript, rfl⟩ := Option.map_eq_some_iff.mp h
        exact .inl (.inr ⟨bin, hbin, by simp [hscript]⟩)
      | fileDeps =>
        obtain ⟨⟨hsome, hfiles⟩, h⟩ := Option.ite_none_right_eq_some.mp h
        obtain ⟨img, himg⟩ := Option.isSome_iff_exists.mp hsome
        exact .inr ⟨img, himg, .inl (by simp [hfiles, Option.some.inj h])⟩
      | img =>
        obtain ⟨img, himg, rfl⟩ := Option.map_eq_some_iff.mp h
        exact .inr ⟨img, himg, .inr rfl⟩

theorem role_task (h : c.task r = some t) : t.role = r := by
  cases r <;> simp only [task, Option.map_eq_some_iff, Option.bind_eq_some_iff, Option.ite_none_right_eq_some,
    Option.some.injEq] at h
  case leaf => cases h
  case bin | img =>
    obtain ⟨_, _, rfl⟩ := h
    rfl
  case nodisk =>
    obtain ⟨_, _, _, rfl⟩ := h
    rfl
  case postBin =>
    obtain ⟨_, _, _, _, rfl⟩ := h
    rfl
  case fileDeps =>
    obtain ⟨_, rfl⟩ := h
    rfl

theorem of_makeBin {o : Config} {nodisk : Bool} (h : o.task r = some t) (ha : t.action = .makeBin c nodisk) :
    o = c ∧ r = if nodisk then .nodisk else .bin := by
  obtain rfl : (if nodisk then .nodisk else .bin) = r := by
    rw [← role_task h, Task.role, ha]
    cases nodisk <;> rfl
  refine ⟨?_, rfl⟩
  cases nodisk with
  | false =>
    obtain ⟨bin, -, rfl⟩ := Option.map_eq_some_iff.mp h
    exact (Action.makeBin.inj ha).1
  | true =>
    obtain ⟨bin, -, rfl⟩ := Option.map_eq_some_iff.mp (Option.ite_none_right_eq_some.mp h).2
    exact (Action.makeBin.inj ha).1

theorem of_makeImage {o : Config} (h : o.task r = some t) (ha : t.action = .makeImage c) : o = c ∧ r = .img := by
  obtain rfl : .img = r := by rw [← role_task h, Task.role, ha, Action.role]
  refine ⟨?_, rfl⟩
  obtain ⟨img, -, rfl⟩ := Option.map_eq_some_iff.mp h
  exact Action.makeImage.inj ha

theorem eq_of_task {o : Config} (hr : r ∈ [Role.bin, .nodisk, .img]) (h : c.task r = some t) (ho : o.task r = some t) :
    o = c := by
  simp only [List.mem_cons, List.not_mem_nil, or_false] at hr
  rcases hr with rfl | rfl | rfl
  · obtain ⟨_, -, rfl⟩ := Option.map_eq_some_iff.mp h
    exact (of_makeBin ho (rfl : _ = Action.makeBin c false)).1
  · obtain ⟨_, -, rfl⟩ := Option.map_eq_some_iff.mp (Option.ite_none_right_eq_some.mp h).2
    exact (of_makeBin ho (rfl : _ = Action.makeBin c true)).1
  · obtain ⟨_, -, rfl⟩ := Option.map_eq_some_iff.mp h
    exact (of_makeImage ho rfl).1

structure IsLeaf (env : BuildEnv) (t : Task) : Prop where
  role : t.role = .leaf
  taskDep : t.taskDep = []
  calcDep : t.calcDep = []
  fileDep : t.fileDep ⊆ [joinPath env.wlutilDir "busybox-config"]

theorem leafTasks_cases (h : t ∈ c.leafTasks env) : t = busyboxTask env ∨
    (∃ script, c.hostInit = some script ∧ t = { name := script.str, action := .handleHostInit c }) ∨
      t = c.submoduleDepsTask ∨ t = c.kmodDepsTask := by
  simp only [leafTasks, hostInitTasks, binCalcDepTasks, List.mem_cons, List.mem_append, List.mem_map,
    Option.mem_toList] at h
  rcases h with rfl | ⟨script, hscript, rfl⟩ | h
  · exact .inl rfl
  · exact .inr (.inl ⟨script, hscript, rfl⟩)
  · refine .inr (.inr ?_)
    split at h
    · split at h <;> simp_all
    · cases h

theorem isLeaf_of_mem (h : t ∈ c.leafTasks env) : IsLeaf env t := by
  rcases leafTasks_cases h with rfl | ⟨script, -, rfl⟩ | rfl | rfl
  · exact ⟨rfl, rfl, rfl, List.Subset.refl _⟩
  · exact ⟨rfl, rfl, rfl, List.nil_subset _⟩
  · exact ⟨rfl, rfl, rfl, List.nil_subset _⟩
  · exact ⟨rfl, rfl, rfl, List.nil_subset _⟩

theorem hostInit_mem_leafTasks {script : RunSpec} (h : c.hostInit = some script) :
    { name := script.str, action := .handleHostInit c } ∈ c.leafTasks env := by
  simp [leafTasks, hostInitTasks, h]

def nameOf (c : Config) (r : Role) : Option String := (c.task r).map Task.name

theorem bin_of_postBin {script : RunSpec} (h : c.missingOption = none) (hp : c.postBin = some script) :
    ∃ bin, c.bin = some bin := by
  simp only [missingOption, Option.orElse_eq_orElse, Option.orElse_eq_or, Option.or_eq_none_iff] at h
  exact Option.ne_none_iff_exists'.mp (by simpa [hp] using h.2.2.2.1)

/-! ### Dependencies of tasks -/

inductive Dep (env : BuildEnv) (c : Config) (r : Role) : String → Prop
  | leaf {u : Task} : u ∈ c.leafTasks env → Dep env c r u.name
  | base {s : String} : r ≠ .postBin → s ∈ c.baseDeps → Dep env c r s
  | parentBin {s : String} : r = .bin ∨ r = .nodisk → c.useParentBin = true → c.baseBin = some s → Dep env c r s
  | own {r' : Role} {u : Task} : r' ∈ r.before → c.task r' = some u → Dep env c r u.name

variable {s : String}

theorem dep_of_hostInit (h : s ∈ c.hostInitDeps) : Dep env c r s := by
  obtain ⟨script, hscript, rfl⟩ := Option.map_eq_some_iff.mp (Option.mem_toList.mp h)
  exact .leaf (hostInit_mem_leafTasks hscript)

theorem dep_of_binTaskDeps (hr : r = .bin ∨ r = .nodisk) (h : s ∈ c.binTaskDeps) : Dep env c r s := by
  simp only [binTaskDeps, List.mem_append] at h
  rcases h with ((h | h) | h) | h
  · exact dep_of_hostInit h
  · refine .base ?_ h
    rcases hr with rfl | rfl <;> exact nofun
  · split at h
    · obtain rfl := List.mem_singleton.mp h
      exact .leaf (u := busyboxTask env) List.mem_cons_self
    · cases h
  · split at h
    · next hparent => exact .parentBin hr hparent (Option.mem_toList.mp h)
    · cases h

theorem dep_of_bin (hr : .bin ∈ r.before) (h : c.bin = some s) : Dep env c r s :=
  .own (u := c.binTask s) hr (by simp [task, h])

theorem dep_of_imgTaskDeps (hc : c.missingOption = none) (hr : .postBin ∈ r.before) (hr' : .bin ∈ r.before)
    (h : s ∈ c.imgTaskDeps) : Dep env c r s := by
  simp only [imgTaskDeps, List.mem_append] at h
  rcases h with ((h | h) | h) | h
  · exact dep_of_hostInit h
  · obtain ⟨script, hscript, rfl⟩ := Option.map_eq_some_iff.mp (Option.mem_toList.mp h)
    obtain ⟨bin, hbin⟩ := bin_of_postBin hc hscript
    exact .own (u := c.postBinTask bin script) hr (by simp [task, hbin, hscript])
  · refine .base ?_ h
    rintro rfl
    cases hr with
    | tail _ hr => cases List.mem_singleton.mp hr
  · split at h
    · exact dep_of_bin hr' (Option.mem_toList.mp h)
    · cases h

theorem dep_of_img (hr : .img ∈ r.before) (h : c.img = some s) : Dep env c r s :=
  .own (u := c.imgTask s) hr (by simp [task, h])

theorem dep_of_task (hc : c.missingOption = none) (ht : c.task r = some t) (hs : s ∈ t.taskDep ∨ s ∈ t.calcDep) :
    Dep env c r s := by
  cases r with
  | leaf => cases ht
  | bin =>
    obtain ⟨bin, hbin, rfl⟩ := Option.map_eq_some_iff.mp ht
    rcases hs with hs | hs
    · exact dep_of_binTaskDeps (.inl rfl) hs
    · obtain ⟨u, hu, rfl⟩ := List.mem_map.mp hs
      exact .leaf (by simp [leafTasks, hbin, hu])
  | nodisk =>
    obtain ⟨-, ht⟩ := Option.ite_none_right_eq_some.mp ht
    obtain ⟨bin, -, rfl⟩ := Option.map_eq_some_iff.mp ht
    rcases hs with hs | hs
    · rcases List.mem_append.mp hs with hs | hs
      · exact dep_of_binTaskDeps (.inr rfl) hs
      · exact dep_of_img (by decide) (Option.mem_toList.mp hs)
    · cases hs
  | postBin =>
    obtain ⟨bin, hbin, ht⟩ := Option.bind_eq_some_iff.mp ht
    obtain ⟨script, -, rfl⟩ := Option.map_eq_some_iff.mp ht
    rcases hs with hs | hs
    · rcases List.mem_append.mp hs with hs | hs
      · exact dep_of_bin (by decide) (Option.mem_toList.mp hs)
      · split at hs
        · next hnodisk =>
          obtain ⟨bin', hbin', rfl⟩ := Option.map_eq_some_iff.mp (Option.mem_toList.mp hs)
          exact .own (u := c.nodiskTask bin') (show Role.nodisk ∈ _ by decide) (by simp [task, hnodisk, hbin'])
        · cases hs
    · cases hs
  | fileDeps =>
    obtain ⟨-, ht⟩ := Option.ite_none_right_eq_some.mp ht
    obtain rfl := Option.some.inj ht
    rcases hs with hs | hs
    · exact dep_of_imgTaskDeps hc (by decide) (by decide) hs
    · cases hs
  | img =>
    obtain ⟨img, himg, rfl⟩ := Option.map_eq_some_iff.mp ht
    rcases hs with hs | hs
    · exact dep_of_imgTaskDeps hc (by decide) (by decide) hs
    · simp only [imgTask] at hs
      split at hs
      · next hfiles =>
        obtain rfl := List.mem_singleton.mp hs
        exact .own (show Role.fileDeps ∈ _ by decide) (by simp [task, himg, hfiles])
      · cases hs

theorem binTaskDeps_subset (hr : r = .bin ∨ r = .nodisk) (ht : c.task r = some t) :
    c.binTaskDeps ⊆ t.taskDep := by
  rcases hr with rfl | rfl
  · obtain ⟨_, -, rfl⟩ := Option.map_eq_some_iff.mp ht
    exact List.Subset.refl _
  · obtain ⟨_, -, rfl⟩ := Option.map_eq_some_iff.mp (Option.ite_none_right_eq_some.mp ht).2
    exact List.subset_append_left _ _

theorem hostInitDeps_subset (hr : r ∈ [Role.bin, .nodisk, .img]) (ht : c.task r = some t) :
    c.hostInitDeps ⊆ t.taskDep := by
  intro s hs
  simp only [List.mem_cons, List.not_mem_nil, or_false] at hr
  rcases hr with rfl | rfl | rfl
  · exact binTaskDeps_subset (.inl rfl) ht (by simp [binTaskDeps, hs])
  · exact binTaskDeps_subset (.inr rfl) ht (by simp [binTaskDeps, hs])
  · obtain ⟨img, -, rfl⟩ := Option.map_eq_some_iff.mp ht
    simp [imgTask, imgTaskDeps, hs]

theorem baseDeps_subset_task (ht : c.task r = some t) (hr : r ≠ .postBin) : c.baseDeps ⊆ t.taskDep := by
  intro s hs
  cases r with
  | leaf => cases ht
  | postBin => exact absurd rfl hr
  | bin =>
    obtain ⟨bin, -, rfl⟩ := Option.map_eq_some_iff.mp ht
    simp [binTask, binTaskDeps, hs]
  | nodisk =>
    obtain ⟨bin, -, rfl⟩ := Option.map_eq_some_iff.mp (Option.ite_none_right_eq_some.mp ht).2
    simp [nodiskTask, binTaskDeps, hs]
  | fileDeps =>
    obtain rfl := Option.some.inj (Option.ite_none_right_eq_some.mp ht).2
    simp [fileDepsTask, imgTaskDeps, hs]
  | img =>
    obtain ⟨img, -, rfl⟩ := Option.map_eq_some_iff.mp ht
    simp [imgTask, imgTaskDeps, hs]

end Config

/-! ### Visits -/

/-- What `buildDepGraph` comes to: the workload of a distro, whose image its builder makes, or another one. -/
inductive Visit where
  | baseImage (c : Config) (img : String)
  | workload (c : Config)

namespace Visit

def tasks (env : BuildEnv) : Visit → List Task
  | .baseImage c img => c.builder.toList.map fun builder => baseImageTask env builder img
  | .workload c => c.depTasks env

def config? : Visit → Option Config
  | .baseImage .. => none
  | .workload c => some c

def Complete : Visit → Prop
  | .baseImage c _ => c.builder.isSome
  | .workload c => c.missingOption = none

instance : DecidablePred Complete
  | .baseImage c _ => inferInstanceAs (Decidable (c.builder.isSome = true))
  | .workload c => inferInstanceAs (Decidable (c.missingOption = none))

end Visit

def visitsOf (val : Ref → Config) (r : Ref) : List Visit :=
  match (val r).isDistro, (val r).img with
  | true, some img => [.baseImage (val r) img]
  | _, _ => .workload (val r) :: (val r).jobs.map fun job => .workload (val job)

def visits (cfgs : Dict String Ref) (val : Ref → Config) : List Visit := cfgs.vals.flatMap (visitsOf val)

def offered (env : BuildEnv) (cfgs : Dict String Ref) (val : Ref → Config) : List Task :=
  (visits cfgs val).flatMap (Visit.tasks env)

/-- The configurations that `addDep` is called for, in order. -/
def visited (cfgs : Dict String Ref) (val : Ref → Config) : List Config := (visits cfgs val).filterMap Visit.config?

section
variable {env : BuildEnv} {cfgs : Dict String Ref} {val : Ref → Config} {l g : List Task} {r : Ref}

theorem addDep_eq_ok {c : Config} :
    addDep env l c = .ok g ↔ (Visit.workload c).Complete ∧ g = Registry.addAll Task.name l (c.depTasks env) := by
  unfold addDep
  split
  · next h => simp [Visit.Complete, h]
  · next h => simp [Visit.Complete, h, Registry.addAll, addTask, eq_comm]

theorem addBaseImage_eq_ok {c : Config} {img : String} : addBaseImage env l c img = .ok g ↔
    (Visit.baseImage c img).Complete ∧ g = Registry.addAll Task.name l ((Visit.baseImage c img).tasks env) := by
  unfold addBaseImage
  split
  · next h => simp [Visit.Complete, h]
  · next h => simp [Visit.Complete, Visit.tasks, h, Registry.addAll, addTask, eq_comm]

theorem isBaseImage_iff {c : Config} : c.isBaseImage = true ↔ c.isDistro = true ∧ ∃ img, c.img = some img := by
  simp [Config.isBaseImage, Option.isSome_iff_exists]

theorem visitsOf_baseImage {img : String} (hd : (val r).isDistro = true) (hi : (val r).img = some img) :
    visitsOf val r = [.baseImage (val r) img] := by
  simp [visitsOf, hd, hi]

theorem visitsOf_workload (h : (val r).isBaseImage = false) :
    visitsOf val r = .workload (val r) :: (val r).jobs.map fun job => .workload (val job) := by
  unfold visitsOf
  split
  · next hd hi => simp [Config.isBaseImage, hd, hi] at h
  · rfl

theorem addConfig_workload (h : (val r).isBaseImage = false) :
    addConfig env val l r = (addDep env l (val r) >>= fun loader =>
      (val r).jobs.foldlM (fun loader job => addDep env loader (val job)) loader) := by
  unfold addConfig
  split
  · next hd hi => simp [Config.isBaseImage, hd, hi] at h
  · rfl

theorem addConfig_eq_ok : addConfig env val l r = .ok g ↔
    (∀ v ∈ visitsOf val r, v.Complete) ∧
      g = Registry.addAll Task.name l ((visitsOf val r).flatMap (Visit.tasks env)) := by
  cases hbase : (val r).isBaseImage with
  | true =>
    obtain ⟨hd, img, hi⟩ := isBaseImage_iff.mp hbase
    rw [visitsOf_baseImage hd hi]
    simp [addConfig, hd, hi, addBaseImage_eq_ok]
  | false =>
    have hjobs := Registry.foldlM_eq_ok (fun job => (Visit.workload (val job)).Complete)
      (fun job => (val job).depTasks env) (fun l job g => addDep_eq_ok) (val r).jobs
    rw [visitsOf_workload hbase, addConfig_workload hbase]
    simp only [Except.bind_eq_ok, hjobs, addDep_eq_ok, List.forall_mem_cons, List.forall_mem_map, List.flatMap_cons,
      List.flatMap_map, Visit.tasks, Registry.addAll_append]
    constructor
    · rintro ⟨_, ⟨hc, rfl⟩, hjobs, rfl⟩
      exact ⟨⟨hc, hjobs⟩, rfl⟩
    · rintro ⟨⟨hc, hjobs⟩, rfl⟩
      exact ⟨_, ⟨hc, rfl⟩, hjobs, rfl⟩

/-- The graph holds what was offered first under each name. -/
theorem buildDepGraph_eq_ok : buildDepGraph env cfgs val = .ok g ↔
    (∀ v ∈ visits cfgs val, v.Complete) ∧ g = Registry.addAll Task.name [] (offered env cfgs val) := by
  rw [buildDepGraph, Registry.foldlM_eq_ok (fun r => ∀ v ∈ visitsOf val r, v.Complete)
    (fun r => (visitsOf val r).flatMap (Visit.tasks env)) (fun l r g => addConfig_eq_ok), offered, visits,
    List.flatMap_assoc]
  simp only [List.mem_flatMap, forall_exists_index, and_imp]
  exact and_congr_left fun _ => ⟨fun h v r hr hv => h r hr v hv, fun h r hr v hv => h v r hr hv⟩

/-! ### Kept tasks -/

/-- The task that is kept under a name: that of the first configuration that comes with one. -/
def kept (env : BuildEnv) (cfgs : Dict String Ref) (val : Ref → Config) (s : String) : Option Task :=
  Registry.find Task.name (offered env cfgs val) s

def Config.Registers (env : BuildEnv) (cfgs : Dict String Ref) (val : Ref → Config) (c : Config) (r : Role) : Prop :=
  ∃ t ∈ c.task r, kept env cfgs val t.name = some t

instance (env : BuildEnv) (cfgs : Dict String Ref) (val : Ref → Config) (c : Config) (r : Role) :
    Decidable (c.Registers env cfgs val r) := inferInstanceAs (Decidable (∃ t ∈ _, _))

variable {t : Task} {c : Config}

theorem mem_offered : t ∈ offered env cfgs val ↔ ∃ v ∈ visits cfgs val, t ∈ v.tasks env := List.mem_flatMap

theorem mem_visited : c ∈ visited cfgs val ↔ .workload c ∈ visits cfgs val := by
  rw [visited, List.mem_filterMap]
  constructor
  · rintro ⟨v, hv, hc⟩
    cases v with
    | baseImage c img => cases hc
    | workload c' =>
      obtain rfl : c' = c := Option.some.inj hc
      exact hv
  · exact fun h => ⟨_, h, rfl⟩

theorem mem_visits_baseImage {b : Config} {img : String} : Visit.baseImage b img ∈ visits cfgs val ↔
    ∃ r ∈ cfgs.vals, val r = b ∧ b.isDistro = true ∧ b.img = some img := by
  rw [visits, List.mem_flatMap]
  refine exists_congr fun r => and_congr_right fun _ => ?_
  cases hbase : (val r).isBaseImage with
  | true =>
    obtain ⟨hd, img', hi⟩ := isBaseImage_iff.mp hbase
    rw [visitsOf_baseImage hd hi, List.mem_singleton]
    constructor
    · intro h
      cases h
      exact ⟨rfl, hd, hi⟩
    · rintro ⟨rfl, -, himg⟩
      rw [Option.some.inj (himg.symm.trans hi)]
  | false =>
    rw [visitsOf_workload hbase]
    constructor
    · intro h
      simp at h
    · rintro ⟨rfl, hd, hi⟩
      simp [Config.isBaseImage, hd, hi] at hbase

theorem offered_of_mem (h : buildDepGraph env cfgs val = .ok g) (ht : t ∈ g) : t ∈ offered env cfgs val := by
  obtain ⟨-, rfl⟩ := buildDepGraph_eq_ok.mp h
  exact Registry.mem_of_mem_addAll ht

theorem exists_of_offered (hg : buildDepGraph env cfgs val = .ok g) (ht : t ∈ offered env cfgs val) :
    ∃ u ∈ g, u.name = t.name := by
  obtain ⟨-, rfl⟩ := buildDepGraph_eq_ok.mp hg
  exact Registry.exists_mem_addAll ht

theorem eq_of_name (hg : buildDepGraph env cfgs val = .ok g) (ht : t ∈ g) (hu : u ∈ g) (hname : t.name = u.name) :
    t = u := by
  obtain ⟨-, rfl⟩ := buildDepGraph_eq_ok.mp hg
  have hfind := Registry.find_of_mem ht
  rw [hname, Registry.find_of_mem hu] at hfind
  exact (Option.some.inj hfind).symm

theorem complete_of_visited (h : buildDepGraph env cfgs val = .ok g) (hc : c ∈ visited cfgs val) :
    c.missingOption = none :=
  (buildDepGraph_eq_ok.mp h).1 _ (mem_visited.mp hc)

theorem task_offered {r : Role} (hc : c ∈ visited cfgs val) (h : c.task r = some t) : t ∈ offered env cfgs val :=
  mem_offered.mpr ⟨_, mem_visited.mp hc, Config.mem_depTasks.mpr (.inr ⟨r, h⟩)⟩

theorem leaf_offered (hc : c ∈ visited cfgs val) (h : t ∈ c.leafTasks env) : t ∈ offered env cfgs val :=
  mem_offered.mpr ⟨_, mem_visited.mp hc, Config.mem_depTasks.mpr (.inl h)⟩

theorem Visit.mem_tasks {v : Visit} (h : t ∈ v.tasks env) (hr : t.role ≠ .leaf) :
    ∃ c, v = .workload c ∧ c.task t.role = some t := by
  cases v with
  | baseImage c img =>
    obtain ⟨_, _, rfl⟩ := List.mem_map.mp h
    exact absurd rfl hr
  | workload c =>
    refine ⟨c, rfl, ?_⟩
    rcases Config.mem_depTasks.mp h with hleaf | ⟨r, ht⟩
    · exact absurd (Config.isLeaf_of_mem hleaf).role hr
    · rwa [Config.role_task ht]

theorem mem_iff_kept (hg : buildDepGraph env cfgs val = .ok g) : t ∈ g ↔ kept env cfgs val t.name = some t := by
  obtain ⟨-, rfl⟩ := buildDepGraph_eq_ok.mp hg
  exact Registry.mem_addAll

theorem kept_offered {s : String} (h : kept env cfgs val s = some t) : t ∈ offered env cfgs val ∧ t.name = s :=
  Registry.find_some h

theorem exists_kept (h : t ∈ offered env cfgs val) : ∃ u, kept env cfgs val t.name = some u :=
  Registry.exists_find Task.name h

theorem mem_of_kept {s : String} (hg : buildDepGraph env cfgs val = .ok g) (h : kept env cfgs val s = some t) :
    t ∈ g := by
  rwa [mem_iff_kept hg, (kept_offered h).2]

theorem config_of_offered (ht : t ∈ offered env cfgs val) (hr : t.role ≠ .leaf) :
    ∃ c ∈ visited cfgs val, c.task t.role = some t := by
  obtain ⟨v, hv, hmem⟩ := mem_offered.mp ht
  obtain ⟨c, rfl, htask⟩ := Visit.mem_tasks hmem hr
  exact ⟨c, mem_visited.mpr hv, htask⟩

theorem config_of_mem (hg : buildDepGraph env cfgs val = .ok g) (ht : t ∈ g) (hr : t.role ≠ .leaf) :
    ∃ c ∈ visited cfgs val, c.task t.role = some t :=
  config_of_offered (offered_of_mem hg ht) hr

theorem makeBin_of_mem {nodisk : Bool} (hg : buildDepGraph env cfgs val = .ok g) (ht : t ∈ g)
    (ha : t.action = .makeBin c nodisk) :
    c ∈ visited cfgs val ∧ c.task (if nodisk then .nodisk else .bin) = some t := by
  obtain ⟨o, hvisited, ho⟩ := config_of_mem hg ht (by cases nodisk <;> simp [Task.role, Action.role, ha])
  obtain ⟨rfl, hr⟩ := Config.of_makeBin ho ha
  exact ⟨hvisited, hr ▸ ho⟩

theorem makeImage_of_mem (hg : buildDepGraph env cfgs val = .ok g) (ht : t ∈ g) (ha : t.action = .makeImage c) :
    c ∈ visited cfgs val ∧ c.task .img = some t := by
  obtain ⟨o, hvisited, ho⟩ := config_of_mem hg ht (by simp [Task.role, Action.role, ha])
  obtain ⟨rfl, hr⟩ := Config.of_makeImage ho ha
  exact ⟨hvisited, hr ▸ ho⟩

theorem visited_of_task {r : Role} (hr : r ∈ [Role.bin, .nodisk, .img]) (ht : t ∈ offered env cfgs val)
    (htask : c.task r = some t) : c ∈ visited cfgs val := by
  have hrole : t.role = r := Config.role_task htask
  obtain ⟨o, ho, hotask⟩ := config_of_offered ht (by rw [hrole]; rintro rfl; cases htask)
  rw [hrole] at hotask
  exact Config.eq_of_task hr htask hotask ▸ ho

theorem Config.Registers.mem {r : Role} (hg : buildDepGraph env cfgs val = .ok g) (h : c.Registers env cfgs val r) :
    ∃ t ∈ g, c.task r = some t := by
  obtain ⟨t, ht, hkept⟩ := h
  exact ⟨t, mem_of_kept hg hkept, ht⟩

theorem Config.registers_of_mem {r : Role} (hg : buildDepGraph env cfgs val = .ok g) (ht : t ∈ g)
    (htask : c.task r = some t) : c.Registers env cfgs val r :=
  ⟨t, htask, (mem_iff_kept hg).mp ht⟩

theorem isLeaf_of_offered (ht : t ∈ offered env cfgs val) (hr : t.role = .leaf) :
    t.taskDep = [] ∧ t.calcDep = [] := by
  obtain ⟨v, -, hv⟩ := mem_offered.mp ht
  cases v with
  | baseImage c img =>
    obtain ⟨_, _, rfl⟩ := List.mem_map.mp hv
    exact ⟨rfl, rfl⟩
  | workload c =>
    rcases Config.mem_depTasks.mp hv with hleaf | ⟨r, hc⟩
    · exact ⟨(Config.isLeaf_of_mem hleaf).taskDep, (Config.isLeaf_of_mem hleaf).calcDep⟩
    · rw [← Config.role_task hc, hr] at hc
      cases hc

end

/-! ### Names of tasks -/

def Config.taskNames (c : Config) : List String :=
  ["build_busybox"] ++ c.hostInitDeps ++
    (c.bin.toList.flatMap fun bin =>
      ["_submodule_deps_" ++ c.name] ++ (if c.linux.isSome then ["_kmod_deps_" ++ c.name] else []) ++ [bin]) ++
    (if c.nodisk then c.bin.toList.map noDiskPath else []) ++
    (c.bin.toList.flatMap fun _ => c.postBin.toList.map RunSpec.str) ++
    (c.img.toList.flatMap fun img => (if c.hasFiles then ["calc_" ++ c.name ++ "_dep"] else []) ++ [img])

/-- Some configuration comes with a task of this name, or it is the image of a distro. -/
def Named (cfgs : Dict String Ref) (val : Ref → Config) (s : String) : Prop :=
  (∃ c ∈ visited cfgs val, s ∈ c.taskNames) ∨ ∃ r ∈ cfgs.vals, (val r).isDistro = true ∧ (val r).img = some s

section
variable {env : BuildEnv} {cfgs : Dict String Ref} {val : Ref → Config} {b : Config} {g : List Task} {s : String}

theorem Config.map_depTasks (env : BuildEnv) (c : Config) : (c.depTasks env).map Task.name = c.taskNames := by
  have hinit : c.hostInitTasks.map Task.name = c.hostInitDeps := by
    rw [hostInitTasks, hostInitDeps]
    cases c.hostInit <;> rfl
  have hcalc : c.binCalcDepTasks.map Task.name =
      ["_submodule_deps_" ++ c.name] ++ if c.linux.isSome then ["_kmod_deps_" ++ c.name] else [] := by
    unfold binCalcDepTasks
    split <;> rfl
  have hnodisk : (if c.nodisk then c.bin.toList.map c.nodiskTask else []).map Task.name =
      if c.nodisk then c.bin.toList.map noDiskPath else [] := by
    split
    · rw [List.map_map]
      rfl
    · rfl
  have hfiles : (if c.hasFiles then [c.fileDepsTask] else []).map Task.name =
      if c.hasFiles then ["calc_" ++ c.name ++ "_dep"] else [] := by
    split <;> rfl
  simp only [depTasks, taskNames, List.map_append, List.map_flatMap, List.map_map, hinit, hcalc, hnodisk, hfiles,
    List.map_cons, List.map_nil]
  rfl

theorem baseImage_offered {img : String} (hg : buildDepGraph env cfgs val = .ok g)
    (hv : .baseImage b img ∈ visits cfgs val) : ∃ builder, baseImageTask env builder img ∈ offered env cfgs val := by
  obtain ⟨builder, hbuilder⟩ := Option.isSome_iff_exists.mp ((buildDepGraph_eq_ok.mp hg).1 _ hv)
  exact ⟨builder, mem_offered.mpr ⟨_, hv, by simp [Visit.tasks, hbuilder]⟩⟩

theorem named_iff (hg : buildDepGraph env cfgs val = .ok g) :
    Named cfgs val s ↔ ∃ u ∈ offered env cfgs val, u.name = s := by
  constructor
  · rintro (⟨c, hc, hs⟩ | ⟨r, hr, hd, hi⟩)
    · rw [← Config.map_depTasks env] at hs
      obtain ⟨u, hu, rfl⟩ := List.mem_map.mp hs
      exact ⟨u, mem_offered.mpr ⟨_, mem_visited.mp hc, hu⟩, rfl⟩
    · obtain ⟨builder, hbuilder⟩ := baseImage_offered hg (mem_visits_baseImage.mpr ⟨r, hr, rfl, hd, hi⟩)
      exact ⟨_, hbuilder, rfl⟩
  · rintro ⟨u, hu, rfl⟩
    obtain ⟨v, hv, hmem⟩ := mem_offered.mp hu
    cases v with
    | baseImage c img =>
      obtain ⟨r, hr, rfl, hd, hi⟩ := mem_visits_baseImage.mp hv
      obtain ⟨_, _, rfl⟩ := List.mem_map.mp hmem
      exact .inr ⟨r, hr, hd, hi⟩
    | workload c =>
      exact .inl ⟨c, mem_visited.mpr hv, Config.map_depTasks env c ▸ List.mem_map_of_mem hmem⟩

end

/-! ### Workloads for the failing inputs -/

def sampleEnv : BuildEnv := { initramfsDir := "/wlutil/initramfs", wlutilDir := "/wlutil", fileDeps := fun _ => [] }

def sampleDistro : Config :=
  { name := "br", outDir := "/images/br", isDistro := true, builder := some "br", distro := some 0
    img := some "/images/br.img", imgHardcoded := true, launch := some true }

def sampleLinux (name : String) (postBin : Option RunSpec) : Config :=
  { name, outDir := joinPath "/images" name, postBin
    linux := some { source := some "/linux", config := some ["/kconfig"], modules := some [] }
    firmware := some { opensbiSrc := some "/opensbi" } }

def sampleInit (c base : Config) : Config :=
  match c.applyBase "/wlutil" base with
  | .ok c => c
  | .error _ => c

end FireMarshal
