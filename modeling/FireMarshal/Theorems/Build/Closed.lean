import FireMarshal.Theorems.Build.Requests
import FireMarshal.Theorems.Config.Linked

/-! Whether the task graph has a task for every name that its tasks depend on. -/

namespace FireMarshal

def baseOf (cfgs : Dict String Ref) (val : Ref → Config) (c : Config) : Option Config :=
  (c.base.bind fun base => cfgs.lookup base).map val

section
variable {cfgs : Dict String Ref} {val : Ref → Config} {c b : Config}

theorem ref_of_visited (h : c ∈ visited cfgs val) : ∃ r ∈ cfgs.vals, ∃ q ∈ r :: (val r).jobs, c = val q := by
  obtain ⟨r, hr, hv⟩ := List.mem_flatMap.mp (mem_visited.mp h)
  refine ⟨r, hr, ?_⟩
  cases hbase : (val r).isBaseImage with
  | true =>
    obtain ⟨hd, img, hi⟩ := isBaseImage_iff.mp hbase
    rw [visitsOf_baseImage hd hi] at hv
    cases List.mem_singleton.mp hv
  | false =>
    rw [visitsOf_workload hbase] at hv
    rcases List.mem_cons.mp hv with heq | hv
    · exact ⟨r, List.mem_cons_self, Visit.workload.inj heq⟩
    · obtain ⟨q, hq, heq⟩ := List.mem_map.mp hv
      exact ⟨q, List.mem_cons_of_mem _ hq, (Visit.workload.inj heq).symm⟩

theorem base_visited (h : baseOf cfgs val c = some b) : b ∈ visited cfgs val ∨
    b.isBaseImage = true ∧ ∀ img ∈ b.img, .baseImage b img ∈ visits cfgs val := by
  obtain ⟨r, hr, rfl⟩ := Option.map_eq_some_iff.mp h
  obtain ⟨base, -, hlookup⟩ := Option.bind_eq_some_iff.mp hr
  obtain ⟨l₁, l₂, hcfgs, -⟩ := List.lookup_eq_some_iff.mp hlookup
  have hmem : r ∈ cfgs.vals := by
    rw [Dict.vals, hcfgs]
    simp
  cases hbase : (val r).isBaseImage with
  | true =>
    refine .inr ⟨rfl, fun img hi => List.mem_flatMap.mpr ⟨r, hmem, ?_⟩⟩
    rw [visitsOf_baseImage (isBaseImage_iff.mp hbase).1 hi]
    exact List.mem_singleton_self _
  | false => exact .inl (visited_of_ref hmem hbase List.mem_cons_self)

/-! ### Names of tasks -/

/-- The scripts and copied binaries of a base with 'isDistro' and an image, for which `addDep` is not called, have a
    task of some other configuration, where a task of `c` that is kept names them. -/
structure Config.Fostered (env : BuildEnv) (cfgs : Dict String Ref) (val : Ref → Config) (c b : Config) : Prop where
  hostInit : (∃ r ∈ [Role.bin, .nodisk, .fileDeps, .img], c.Registers env cfgs val r) →
    ∀ script ∈ b.hostInit, Named cfgs val script.str
  bin : c.useParentBin = true → (∃ r ∈ [Role.bin, .nodisk], c.Registers env cfgs val r) →
    ∀ bin ∈ b.bin, Named cfgs val bin

variable {env : BuildEnv} {g : List Task} {t : Task} {s : String}

theorem named_visited (hc : c ∈ visited cfgs val) (hs : s ∈ c.taskNames) : Named cfgs val s := .inl ⟨c, hc, hs⟩

theorem Config.name_mem_taskNames {r : Role} (ht : c.task r = some t) : t.name ∈ c.taskNames := by
  rw [← map_depTasks ⟨"", "", fun _ => []⟩]
  exact List.mem_map_of_mem (mem_depTasks.mpr (.inr ⟨r, ht⟩))

theorem Config.leaf_mem_taskNames (ht : t ∈ c.leafTasks env) : t.name ∈ c.taskNames := by
  rw [← map_depTasks env]
  exact List.mem_map_of_mem (mem_depTasks.mpr (.inl ht))

theorem named_base (hb : baseOf cfgs val c = some b) :
    (∀ img ∈ b.img, Named cfgs val img) ∧ (b ∈ visited cfgs val ∨ b.isDistro = true ∧ b.img.isSome = true) := by
  rcases base_visited hb with hv | ⟨hbase, hvisit⟩
  · exact ⟨fun img himg => named_visited hv (by simp [Config.taskNames, Option.mem_def.mp himg]), .inl hv⟩
  · obtain ⟨hd, img, hi⟩ := isBaseImage_iff.mp hbase
    refine ⟨fun img himg => ?_, .inr ⟨hd, by simp [hi]⟩⟩
    obtain ⟨r, hr, rfl, hd, hi⟩ := mem_visits_baseImage.mp (hvisit img himg)
    exact .inr ⟨r, hr, hd, hi⟩

theorem named_of_dep (hg : buildDepGraph env cfgs val = .ok g)
    (hlinked : ∀ c ∈ visited cfgs val, c.Linked (baseOf cfgs val c))
    (hfostered : ∀ c ∈ visited cfgs val, ∀ b ∈ baseOf cfgs val c, b.isDistro = true → b.img.isSome = true →
      c.Fostered env cfgs val b)
    (ht : t ∈ g) (hs : s ∈ t.taskDep ∨ s ∈ t.calcDep) : Named cfgs val s := by
  have hr : t.role ≠ .leaf := by
    intro hr
    obtain ⟨htask, hcalc⟩ := isLeaf_of_offered (offered_of_mem hg ht) hr
    simp [htask, hcalc] at hs
  obtain ⟨c, hc, htask⟩ := config_of_mem hg ht hr
  have hregisters := Config.registers_of_mem hg ht htask
  have hdep : Config.Dep env c t.role s := Config.dep_of_task (complete_of_visited hg hc) htask hs
  generalize t.role = r at hr hregisters hdep
  cases hdep with
  | leaf hu => exact named_visited hc (Config.leaf_mem_taskNames hu)
  | own _ hu => exact named_visited hc (Config.name_mem_taskNames hu)
  | base hpost hbase =>
    obtain ⟨b, hb, himg | hinit⟩ := ((hlinked c hc).baseDeps s).mp hbase
    · exact (named_base hb).1 s himg
    · obtain ⟨script, hscript, rfl⟩ := Option.map_eq_some_iff.mp hinit
      rcases (named_base hb).2 with hv | ⟨hd, hi⟩
      · exact named_visited hv (by simp [Config.taskNames, Config.hostInitDeps, hscript])
      · refine (hfostered c hc b hb hd hi).hostInit ⟨r, ?_, hregisters⟩ script hscript
        cases r <;> simp_all
  | parentBin hrole hparent hbin =>
    obtain ⟨b, hb, -, heq⟩ := (hlinked c hc).useParentBin hparent
    rw [heq] at hbin
    rcases (named_base hb).2 with hv | ⟨hd, hi⟩
    · exact named_visited hv (by simp [Config.taskNames, hbin])
    · exact (hfostered c hc b hb hd hi).bin hparent ⟨r, by simpa using hrole, hregisters⟩ s hbin

theorem fostered_of_closed (hg : buildDepGraph env cfgs val = .ok g)
    (hclosed : ∀ u ∈ g, ∀ d, d ∈ u.taskDep ∨ d ∈ u.calcDep → Named cfgs val d) (hc : c.Linked (baseOf cfgs val c))
    (hb : baseOf cfgs val c = some b) : c.Fostered env cfgs val b where
  hostInit := by
    rintro ⟨r, hr, hregisters⟩ script hscript
    obtain ⟨t, ht, htask⟩ := hregisters.mem hg
    refine hclosed t ht _ (.inl (Config.baseDeps_subset_task htask ?_ ?_))
    · rintro rfl
      simp at hr
    · exact (hc.baseDeps _).mpr ⟨b, hb, .inr (by simp [Option.mem_def.mp hscript])⟩
  bin := by
    rintro hparent ⟨r, hr, hregisters⟩ bin hbin
    obtain ⟨t, ht, htask⟩ := hregisters.mem hg
    obtain ⟨b', hb', -, heq⟩ := hc.useParentBin hparent
    obtain rfl := Option.some.inj (hb.symm.trans hb')
    have hdep : bin ∈ c.binTaskDeps := by simp [Config.binTaskDeps, hparent, heq, Option.mem_def.mp hbin]
    refine hclosed t ht bin (.inl ?_)
    simp only [List.mem_cons, List.not_mem_nil, or_false] at hr
    rcases hr with rfl | rfl
    · obtain ⟨_, -, rfl⟩ := Option.map_eq_some_iff.mp htask
      exact hdep
    · obtain ⟨_, -, rfl⟩ := Option.map_eq_some_iff.mp (Option.ite_none_right_eq_some.mp htask).2
      exact List.mem_append_left _ hdep

theorem addConfig_again (hg : buildDepGraph env cfgs val = .ok g) {r : Ref} (hr : r ∈ cfgs.vals) :
    addConfig env val g r = .ok g := by
  have hmem : ∀ v ∈ visitsOf val r, v ∈ visits cfgs val := fun v hv => List.mem_flatMap.mpr ⟨r, hr, hv⟩
  refine addConfig_eq_ok.mpr ⟨fun v hv => (buildDepGraph_eq_ok.mp hg).1 v (hmem v hv), ?_⟩
  refine (Registry.addAll_of_mem fun u hu => ?_).symm
  obtain ⟨v, hv, hu⟩ := List.mem_flatMap.mp hu
  exact exists_of_offered hg (mem_offered.mpr ⟨v, hmem v hv, hu⟩)

theorem addDep_again (hg : buildDepGraph env cfgs val = .ok g) (hc : c ∈ visited cfgs val) :
    addDep env g c = .ok g := by
  refine addDep_eq_ok.mpr ⟨complete_of_visited hg hc, (Registry.addAll_of_mem fun u hu => ?_).symm⟩
  exact exists_of_offered hg (mem_offered.mpr ⟨_, mem_visited.mp hc, hu⟩)

theorem nodup_names (hg : buildDepGraph env cfgs val = .ok g) : (g.map Task.name).Nodup := by
  obtain ⟨-, rfl⟩ := buildDepGraph_eq_ok.mp hg
  exact Registry.nodup_addAll (by simp)

end

namespace ConfigManager
variable {m : ConfigManager} {s t : Heap} {n : Nat} {c : Config}

theorem linked_of_visited (hl : m.Loaded s) (hfresh : ∀ r, (s.val r).Fresh) (hrun : m.initializeAll n s = .ok t)
    (hc : c ∈ visited m.cfgs t.val) : c.Linked (baseOf m.cfgs t.val c) := by
  have hrun' : (m.system s).initAll n m.cfgs.vals s = .ok t := (initializeAll_eq_ok hl.bases).mp hrun
  have hrefs : SameRefs s t := SameRefs.initAll (fun _ => ⟨rfl, rfl⟩) hrun'
  obtain ⟨heffect, hall⟩ := Memo.initAll_effect hrun'
  obtain ⟨r, hr, q, hq, rfl⟩ := ref_of_visited hc
  have hdone : t.done q = true := by
    rcases List.mem_cons.mp hq with rfl | hq
    · exact hall q hr
    · rw [(hrefs r).2] at hq
      have hnotdone : s.done r = false := by
        rw [← Bool.not_eq_true]
        intro hd
        simp [(hl.distros r hd).2] at hq
      exact heffect.closed r hnotdone (hall r hr) q (.inr hq)
  have hlinked := linked_of_run hl hfresh hrun hdone
  rwa [show (m.system s).up q = (t.val q).base.bind fun base => m.cfgs.lookup base by rw [(hrefs q).1]; rfl] at hlinked

/-- A graph has a task for every name that its tasks depend on just if the scripts, and the copied binaries, of
    bases with 'isDistro' and an image are among the names of other configurations. -/
theorem buildDepGraph_closed_iff {env : BuildEnv} {g : List Task} (hl : m.Loaded s) (hfresh : ∀ r, (s.val r).Fresh)
    (hrun : m.initializeAll n s = .ok t) (hg : buildDepGraph env m.cfgs t.val = .ok g) :
    ((∀ u ∈ g, ∀ d, d ∈ u.taskDep ∨ d ∈ u.calcDep → ∃ w ∈ g, w.name = d) ↔
      ∀ c ∈ visited m.cfgs t.val, ∀ b ∈ baseOf m.cfgs t.val c, b.isDistro = true → b.img.isSome = true →
        c.Fostered env m.cfgs t.val b) ∧
    (g.map Task.name).Nodup ∧ (∀ r ∈ m.cfgs.vals, addConfig env t.val g r = .ok g) ∧
      ∀ c ∈ visited m.cfgs t.val, addDep env g c = .ok g := by
  have hlinked : ∀ c ∈ visited m.cfgs t.val, c.Linked (baseOf m.cfgs t.val c) :=
    fun c hc => linked_of_visited hl hfresh hrun hc
  refine ⟨⟨fun h c hc b hb _ _ => ?_, fun h u hu d hd => ?_⟩, nodup_names hg,
    fun r hr => addConfig_again hg hr, fun c hc => addDep_again hg hc⟩
  · refine fostered_of_closed hg (fun u hu d hd => ?_) (hlinked c hc) hb
    obtain ⟨w, hw, hname⟩ := h u hu d hd
    exact (named_iff hg).mpr ⟨w, offered_of_mem hg hw, hname⟩
  · obtain ⟨w, hw, rfl⟩ := (named_iff hg).mp (named_of_dep hg hlinked h hu hd)
    exact exists_of_offered hg hw

/-! ### A base that is marked as a distro -/

/-- The names in the order in which they are loaded and forked. -/
def marked : ConfigManager where
  wlutilDir := "/wlutil"
  cfgs := [("child.yaml", 3), ("base.yaml", 2), ("br-base.json", 1), ("br.1a2b", 0)]

def markedHeap (isDistro : Bool) : Heap where
  val
    | 0 => sampleDistro
    | 1 => { name := "br-base", base := some "br.1a2b", outDir := "/images/br-base", distro := some 4 }
    | 2 =>
      { name := "base", base := some "br-base.json", outDir := "/images/base", isDistro
        hostInit := some { path := some "/base/init.sh" } }
    | 3 => { name := "child", base := some "base.yaml", outDir := "/images/child" }
    | _ => { name := "", outDir := "" }
  done r := r = 0
  calls := []

theorem Loaded.of_lt {w : Ref} (hkeys : m.cfgs.keys.Nodup) (hbases : ∀ r b, (s.val r).base = some b → m.cfgs.hasKey b)
    (hlt : ∀ x y, (m.system s).up x = some y → y < x) (hjobs : ∀ r, r ≠ w → (s.val r).jobs = []) (hcalls : s.calls = [])
    (hdistros : ∀ r, s.done r = true → r ≠ w ∧ (s.val r).base = none) : m.Loaded s :=
  have howner : ∀ r, ∀ j ∈ (s.val r).jobs, r = w := fun r j hj => by_contra fun hne => by simp [hjobs r hne] at hj
  { keys := hkeys
    bases := hbases
    acyclic := acyclic_of_lt id hlt
    jobs := fun j r r' h h' => (howner r j h).trans (howner r' j h').symm
    finite := by
      refine ⟨m.cfgs.vals ++ (s.val w).jobs, fun r hr => List.mem_append_left _ hr, fun r j hj => ?_⟩
      exact List.mem_append_right _ (howner r j hj ▸ hj)
    calls := hcalls
    distros := fun r h => ⟨(hdistros r h).2, hjobs r (hdistros r h).1⟩ }

theorem marked_loaded (isDistro : Bool) : marked.Loaded (markedHeap isDistro) := by
  refine .of_lt (w := 3) (by decide) (fun r b h => ?_) (fun x y h => ?_) (fun r _ => ?_) rfl fun r h => ?_
  · match r with
    | 0 => cases h
    | 1 | 2 | 3 =>
      cases h
      decide
    | _ + 4 => cases h
  · match x with
    | 0 => cases h
    | 1 | 2 | 3 =>
      cases h
      decide
    | _ + 4 => cases h
  · match r with
    | 0 | 1 | 2 | 3 | _ + 4 => rfl
  · obtain rfl : r = 0 := by simpa [markedHeap] using h
    exact ⟨by decide, rfl⟩

theorem marked_fresh (isDistro : Bool) (r : Ref) : ((markedHeap isDistro).val r).Fresh := by
  match r with
  | 0 | 1 | 2 | 3 | _ + 4 => exact ⟨rfl, rfl, rfl⟩

def valuesOf (x : Except (Memo.Failure WorkloadConfigError) Heap) (r : Ref) : Config :=
  match x with
  | .ok t => t.val r
  | .error _ => sampleDistro

theorem exists_valuesOf {x : Except (Memo.Failure WorkloadConfigError) Heap} (h : x.isOk = true) :
    ∃ t, x = .ok t ∧ t.val = valuesOf x := by
  cases x with
  | error e => cases h
  | ok t => exact ⟨t, rfl, rfl⟩

def markedConfigs (isDistro : Bool) : Ref → Config := valuesOf (marked.initializeAll 5 (markedHeap isDistro))

theorem markedConfigs_complete (isDistro : Bool) : ∀ v ∈ visits marked.cfgs (markedConfigs isDistro), v.Complete := by
  cases isDistro <;> decide +kernel

theorem buildDepGraph_closed_unmarked : ∃ t g, marked.initializeAll 5 (markedHeap false) = .ok t ∧
    buildDepGraph sampleEnv marked.cfgs t.val = .ok g ∧
    ∀ u ∈ g, ∀ d, d ∈ u.taskDep ∨ d ∈ u.calcDep → ∃ w ∈ g, w.name = d := by
  obtain ⟨t, hrun, hval⟩ := exists_valuesOf (x := marked.initializeAll 5 (markedHeap false)) rfl
  have hg : buildDepGraph sampleEnv marked.cfgs t.val = .ok _ :=
    buildDepGraph_eq_ok.mpr ⟨hval ▸ markedConfigs_complete false, rfl⟩
  have horphans : ∀ c ∈ visited marked.cfgs (markedConfigs false), ∀ b ∈ baseOf marked.cfgs (markedConfigs false) c,
      b.isDistro = true → b.img.isSome = true → b.hostInit = none ∧ b.bin = none := by decide +kernel
  refine ⟨t, _, hrun, hg, (buildDepGraph_closed_iff (marked_loaded false) (marked_fresh false) hrun hg).1.mpr ?_⟩
  rw [hval]
  intro c hc b hb hd hi
  obtain ⟨hinit, hbin⟩ := horphans c hc b hb hd hi
  exact ⟨fun _ script hscript => by simp [hinit] at hscript, fun _ _ bin hbin' => by simp [hbin] at hbin'⟩

/-- With a base that sets 'isDistro', the child waits for a script that has no task. -/
theorem buildDepGraph_dangling : ∃ t g, marked.Loaded (markedHeap true) ∧
    marked.initializeAll 5 (markedHeap true) = .ok t ∧ buildDepGraph sampleEnv marked.cfgs t.val = .ok g ∧
    ∃ u ∈ g, "/base/init.sh " ∈ u.taskDep ∧ ∀ w ∈ g, w.name ≠ "/base/init.sh " := by
  obtain ⟨t, hrun, hval⟩ := exists_valuesOf (x := marked.initializeAll 5 (markedHeap true)) rfl
  have hg : buildDepGraph sampleEnv marked.cfgs t.val = .ok _ :=
    buildDepGraph_eq_ok.mpr ⟨hval ▸ markedConfigs_complete true, rfl⟩
  refine ⟨t, _, marked_loaded true, hrun, hg, ?_⟩
  rw [hval]
  change ∃ u ∈ Registry.addAll Task.name [] (offered sampleEnv marked.cfgs (markedConfigs true)), _
  decide +kernel

end ConfigManager
end FireMarshal
