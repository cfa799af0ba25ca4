import FireMarshal.Theorems.Build.Closed

/-! Whether tasks wait for the scripts of all configurations that theirs is based on. -/

namespace FireMarshal

/-- `u` is a task of the graph, and a task dependency of `t`. -/
def Waits (g : List Task) (t u : Task) : Prop := u ∈ g ∧ u.name ∈ t.taskDep

section
variable (env : BuildEnv) (cfgs : Dict String Ref) (val : Ref → Config)

def Ancestor : Config → Config → Prop := Relation.TransGen fun c b => baseOf cfgs val c = some b

/-- The tasks of a name that a configuration has for its binaries or image wait for the scripts of all its
    ancestors. -/
def AncestorsFirst (g : List Task) : Prop :=
  ∀ c ∈ visited cfgs val, ∀ r ∈ [Role.bin, .nodisk, .img], ∀ t ∈ g, c.nameOf r = some t.name →
    ∀ a ∈ visited cfgs val, Ancestor cfgs val c a → ∀ s ∈ a.hostInitDeps,
      ∃ u, Relation.ReflTransGen (Waits g) t u ∧ u.name = s

/-- The task of `o` in the role `r` is a binary of `q`, or an image that is made after the binary of `q`. -/
inductive Config.AfterBin (o : Config) : Role → Config → Prop
  | own {r : Role} : r ≠ .img → AfterBin o r o
  | guestInit : o.guestInit.isSome = true → o.Registers env cfgs val .bin → AfterBin o .img o
  | postBin {q : Config} {script : RunSpec} {t : Task} : o.postBin = some script → q.task .postBin = some t →
      kept env cfgs val script.str = some t → q.Registers env cfgs val .bin → AfterBin o .img q

/-- A task of `o` in the role `r` waits for one of its base `b`: for its image, or for its binary if that is copied. -/
def Config.Leads (o b : Config) (r : Role) : Prop :=
  b.Registers env cfgs val .img ∨ b.Registers env cfgs val .bin ∧
    ∃ q, o.AfterBin env cfgs val r q ∧ q.useParentBin = true ∧ baseOf cfgs val q = some b

/-- The script is the own one of `o`, or that of its base, or that of an ancestor of the base if the task of `o` in
    the role `r` waits for one of the base. -/
def Config.Carries (o : Config) (r : Role) (s : String) : Prop :=
  s ∈ o.hostInitDeps ∨ ∃ b ∈ baseOf cfgs val o, s ∈ b.hostInitDeps ∨
    o.Leads env cfgs val b r ∧ ∃ a ∈ visited cfgs val, Ancestor cfgs val b a ∧ s ∈ a.hostInitDeps

/-- For each binary and image, the configuration that is the first one to use its name carries the scripts of all
    ancestors. -/
def Carried : Prop :=
  ∀ c ∈ visited cfgs val, ∀ r ∈ [Role.bin, .nodisk, .img], ∀ name ∈ c.nameOf r,
    ∀ a ∈ visited cfgs val, Ancestor cfgs val c a → ∀ s ∈ a.hostInitDeps,
      ∃ o : Config, ∃ t ∈ o.task r, kept env cfgs val name = some t ∧ o.Carries env cfgs val r s

end

section
variable {env : BuildEnv} {cfgs : Dict String Ref} {val : Ref → Config} {g : List Task}
variable {t u : Task} {a b c d o q : Config} {r r' : Role} {s : String}

/-! ### Scripts of tasks -/

theorem ne_postBin (hr : r ∈ [Role.bin, .nodisk, .img]) : r ≠ .postBin := by
  rintro rfl
  simp at hr

theorem reaches_script (hg : buildDepGraph env cfgs val = .ok g) (hlinked : o.Linked (baseOf cfgs val o))
    (hr : r ∈ [Role.bin, .nodisk, .img]) (ht : o.task r = some t)
    (hs : s ∈ o.hostInitDeps ∨ ∃ b ∈ baseOf cfgs val o, s ∈ b.hostInitDeps) (ha : a ∈ visited cfgs val)
    (has : s ∈ a.hostInitDeps) : ∃ u, Relation.ReflTransGen (Waits g) t u ∧ u.name = s := by
  obtain ⟨script, hscript, rfl⟩ := Option.map_eq_some_iff.mp (Option.mem_toList.mp has)
  obtain ⟨u, hu, hname⟩ := exists_of_offered hg (leaf_offered ha (Config.hostInit_mem_leafTasks hscript))
  refine ⟨u, .single ⟨hu, ?_⟩, hname⟩
  rw [hname]
  rcases hs with hs | ⟨b, hb, hs⟩
  · exact Config.hostInitDeps_subset hr ht hs
  · refine Config.baseDeps_subset_task ht (ne_postBin hr) ((hlinked.baseDeps _).mpr ⟨b, hb, .inr ?_⟩)
    exact Option.mem_toList.mp hs

/-! ### Along the chain -/

section
variable (hg : buildDepGraph env cfgs val = .ok g) (hlinked : ∀ c ∈ visited cfgs val, c.Linked (baseOf cfgs val c))
include hg

theorem Config.AfterBin.reaches (h : o.AfterBin env cfgs val r q) (hr : r ∈ [Role.bin, .nodisk, .img]) (ht : t ∈ g)
    (htask : o.task r = some t) : ∃ r' ∈ [Role.bin, .nodisk], ∃ x ∈ g, q.task r' = some x ∧
      Relation.ReflTransGen (Waits g) t x := by
  cases h with
  | own hne =>
    refine ⟨r, ?_, t, ht, htask, .refl⟩
    simp only [List.mem_cons, List.not_mem_nil, or_false] at hr ⊢
    exact hr.imp_right fun hr => hr.resolve_right hne
  | guestInit hinit hbin =>
    obtain ⟨x, hx, hxtask⟩ := hbin.mem hg
    obtain ⟨bin, hbin, rfl⟩ := Option.map_eq_some_iff.mp hxtask
    obtain ⟨img, -, rfl⟩ := Option.map_eq_some_iff.mp htask
    refine ⟨.bin, by simp, _, hx, hxtask, .single ⟨hx, ?_⟩⟩
    simp [Config.binTask, Config.imgTask, Config.imgTaskDeps, hinit, hbin]
  | @postBin _ script w hscript hw hkept hbin =>
    obtain ⟨x, hx, hxtask⟩ := hbin.mem hg
    obtain ⟨bin, hbin, rfl⟩ := Option.map_eq_some_iff.mp hxtask
    obtain ⟨img, -, rfl⟩ := Option.map_eq_some_iff.mp htask
    have hpost : Waits g (o.imgTask img) w := by
      refine ⟨mem_of_kept hg hkept, ?_⟩
      rw [(kept_offered hkept).2]
      simp [Config.imgTask, Config.imgTaskDeps, hscript]
    have hdep : Waits g w (q.binTask bin) := by
      obtain ⟨_, -, hw⟩ := Option.bind_eq_some_iff.mp hw
      obtain ⟨_, -, rfl⟩ := Option.map_eq_some_iff.mp hw
      exact ⟨hx, by simp [Config.binTask, Config.postBinTask, Config.postBinTaskDeps, hbin]⟩
    exact ⟨.bin, by simp, _, hx, hxtask, (Relation.ReflTransGen.single hpost).tail hdep⟩

include hlinked

theorem Config.Leads.reaches (h : o.Leads env cfgs val b r) (hb : baseOf cfgs val o = some b)
    (hr : r ∈ [Role.bin, .nodisk, .img]) (ht : t ∈ g) (htask : o.task r = some t) :
    ∃ r' ∈ [Role.bin, .nodisk, .img], ∃ x ∈ g, b.task r' = some x ∧ Relation.ReflTransGen (Waits g) t x := by
  rcases h with himg | ⟨hbin, q, hq, hparent, hqb⟩
  · obtain ⟨x, hx, hxtask⟩ := himg.mem hg
    obtain ⟨img, himg, rfl⟩ := Option.map_eq_some_iff.mp hxtask
    refine ⟨.img, by simp, _, hx, hxtask, .single ⟨hx, Config.baseDeps_subset_task htask (ne_postBin hr) ?_⟩⟩
    have ho := visited_of_task hr (offered_of_mem hg ht) htask
    exact ((hlinked o ho).baseDeps img).mpr ⟨b, hb, .inl himg⟩
  · obtain ⟨r', hr', y, hy, hytask, hreach⟩ := hq.reaches hg hr ht htask
    obtain ⟨x, hx, hxtask⟩ := hbin.mem hg
    obtain ⟨bin, hbin, rfl⟩ := Option.map_eq_some_iff.mp hxtask
    refine ⟨.bin, by simp, _, hx, hxtask, hreach.tail ⟨hx, ?_⟩⟩
    have hv : q ∈ visited cfgs val := by
      refine visited_of_task (r := r') ?_ (offered_of_mem hg hy) hytask
      simp only [List.mem_cons, List.not_mem_nil, or_false] at hr' ⊢
      exact hr'.imp_right .inl
    obtain ⟨b', hb', -, heq⟩ := (hlinked q hv).useParentBin hparent
    obtain rfl := Option.some.inj (hqb.symm.trans hb')
    refine Config.binTaskDeps_subset (by simpa using hr') hytask ?_
    simp [Config.binTaskDeps, Config.binTask, hparent, heq, hbin]

/-- The own tasks of a configuration wait for the script of its ancestor. The induction is on the chain. -/
theorem Carried.reaches_ancestor (h : Carried env cfgs val) (ha : a ∈ visited cfgs val) (hs : s ∈ a.hostInitDeps)
    (hpath : Ancestor cfgs val b a) : ∀ r ∈ [Role.bin, .nodisk, .img], ∀ t ∈ g, b.task r = some t →
      ∃ u, Relation.ReflTransGen (Waits g) t u ∧ u.name = s := by
  induction hpath using Relation.TransGen.head_induction_on with
  | single hbase =>
    intro r hr t ht htask
    have hb := visited_of_task hr (offered_of_mem hg ht) htask
    exact reaches_script hg (hlinked _ hb) hr htask (.inr ⟨a, hbase, hs⟩) ha hs
  | @head b b' hbase hpath ih =>
    intro r hr t ht htask
    have hb := visited_of_task hr (offered_of_mem hg ht) htask
    obtain ⟨o, w, hw, hkept, hcarries⟩ := h b hb r hr t.name (by simp [Config.nameOf, htask]) a ha (.head hbase hpath) s hs
    obtain rfl : t = w := Option.some.inj (((mem_iff_kept hg).mp ht).symm.trans hkept)
    obtain rfl : o = b := Config.eq_of_task hr htask hw
    rcases hcarries with hown | ⟨d, hd, hdirect | ⟨hleads, -⟩⟩
    · exact reaches_script hg (hlinked _ hb) hr htask (.inl hown) ha hs
    · exact reaches_script hg (hlinked _ hb) hr htask (.inr ⟨d, hd, hdirect⟩) ha hs
    · obtain rfl : d = b' := Option.some.inj (hd.symm.trans hbase)
      obtain ⟨r', hr', x, hx, hxtask, hreach⟩ := hleads.reaches hg hlinked hbase hr ht htask
      obtain ⟨u, hu, hname⟩ := ih r' hr' x hx hxtask
      exact ⟨u, hreach.trans hu, hname⟩

theorem Carried.ancestorsFirst (h : Carried env cfgs val) : AncestorsFirst cfgs val g := by
  intro c hc r hr t ht hname a ha hpath s hs
  obtain ⟨o, w, hw, hkept, hcarries⟩ := h c hc r hr t.name hname a ha hpath s hs
  obtain rfl : t = w := Option.some.inj (((mem_iff_kept hg).mp ht).symm.trans hkept)
  have ho := visited_of_task hr (offered_of_mem hg ht) hw
  rcases hcarries with hown | ⟨b, hb, hdirect | ⟨hleads, a', ha', hpath', hs'⟩⟩
  · exact reaches_script hg (hlinked o ho) hr hw (.inl hown) ha hs
  · exact reaches_script hg (hlinked o ho) hr hw (.inr ⟨b, hb, hdirect⟩) ha hs
  · obtain ⟨r', hr', x, hx, hxtask, hreach⟩ := hleads.reaches hg hlinked hb hr ht hw
    obtain ⟨u, hu, hname⟩ := h.reaches_ancestor hg hlinked ha' hs' hpath' r' hr' x hx hxtask
    exact ⟨u, hreach.trans hu, hname⟩

end

/-! ### Distinct names -/

/-- Names tell tasks apart, except for binaries that are there already; distros are as their modules make them. -/
structure OwnTasks (env : BuildEnv) (cfgs : Dict String Ref) (val : Ref → Config) : Prop where
  roles : ∀ t ∈ offered env cfgs val, ∀ u ∈ offered env cfgs val, t.name = u.name → t.role = u.role
  scripts : ∀ t ∈ offered env cfgs val, ∀ a ∈ visited cfgs val, t.name ∈ a.hostInitDeps →
    ∃ o, t.action = .handleHostInit o
  registers : ∀ c ∈ visited cfgs val, ∀ r ∈ [Role.img, .postBin], (c.task r).isSome = true → c.Registers env cfgs val r
  bins : ∀ c ∈ visited cfgs val, c.linux.isSome = true ∨ c.postBin.isSome = true ∨ c.guestInit.isSome = true →
    ∀ r ∈ [Role.bin, .nodisk], (c.task r).isSome = true → c.Registers env cfgs val r
  distros : ∀ c ∈ visited cfgs val, ∀ b ∈ baseOf cfgs val c, b.isBaseImage = true →
    b.base = none ∧ b.hostInit = none ∧ b.bin = none

/-- The scripts that tasks of a configuration name, those after its binaries apart. -/
def Config.Scripts (cfgs : Dict String Ref) (val : Ref → Config) (c : Config) (s : String) : Prop :=
  s ∈ c.hostInitDeps ∨ ∃ b ∈ baseOf cfgs val c, s ∈ b.hostInitDeps

inductive Config.Next (c : Config) : Role → Role → Prop
  | nodisk : Next c .nodisk .img
  | postBin {r : Role} : r = .bin ∨ r = .nodisk → Next c .postBin r
  | img {r : Role} : r = .postBin ∨ r = .bin ∧ c.guestInit.isSome = true → Next c .img r

/-- What a task of a configuration depends on: scripts and images, busybox, the binary of the base, or another task
    of the configuration. -/
inductive Config.WaitsFor (c : Config) (r : Role) : String → Prop
  | script {s : String} : s ∈ c.hostInitDeps ∨ s ∈ c.baseDeps → WaitsFor c r s
  | busybox : WaitsFor c r "build_busybox"
  | parentBin {s : String} : r = .bin ∨ r = .nodisk → c.useParentBin = true → c.baseBin = some s → WaitsFor c r s
  | own {r' : Role} {u : Task} : c.Next r r' → c.task r' = some u → WaitsFor c r u.name

theorem Config.waitsFor_binTaskDeps (hr : r = .bin ∨ r = .nodisk) (hs : s ∈ c.binTaskDeps) : c.WaitsFor r s := by
  simp only [binTaskDeps, List.mem_append] at hs
  rcases hs with (hs | hs) | hs
  · exact .script hs
  · split at hs
    · rw [List.mem_singleton.mp hs]
      exact .busybox
    · cases hs
  · split at hs
    · next hparent => exact .parentBin hr hparent (Option.mem_toList.mp hs)
    · cases hs

theorem Config.waitsFor_bin (hnext : c.Next r .bin) (hs : c.bin = some s) : c.WaitsFor r s :=
  .own (u := c.binTask s) hnext (by simp [task, hs])

theorem Config.waitsFor_of_taskDep (hc : c.missingOption = none) (ht : c.task r = some t) (hfiles : r ≠ .fileDeps)
    (hs : s ∈ t.taskDep) : c.WaitsFor r s := by
  cases r with
  | leaf => cases ht
  | fileDeps => exact absurd rfl hfiles
  | bin =>
    obtain ⟨bin, -, rfl⟩ := Option.map_eq_some_iff.mp ht
    exact waitsFor_binTaskDeps (.inl rfl) hs
  | nodisk =>
    obtain ⟨bin, -, rfl⟩ := Option.map_eq_some_iff.mp (Option.ite_none_right_eq_some.mp ht).2
    rcases List.mem_append.mp hs with hs | hs
    · exact waitsFor_binTaskDeps (.inr rfl) hs
    · exact .own (u := c.imgTask s) .nodisk (by simp [task, Option.mem_toList.mp hs])
  | postBin =>
    obtain ⟨_, -, ht⟩ := Option.bind_eq_some_iff.mp ht
    obtain ⟨script, -, rfl⟩ := Option.map_eq_some_iff.mp ht
    rcases List.mem_append.mp hs with hs | hs
    · exact waitsFor_bin (.postBin (.inl rfl)) (Option.mem_toList.mp hs)
    · split at hs
      · next hnodisk =>
        obtain ⟨bin, hbin, rfl⟩ := Option.map_eq_some_iff.mp (Option.mem_toList.mp hs)
        exact .own (u := c.nodiskTask bin) (.postBin (.inr rfl)) (by simp [task, hnodisk, hbin])
      · cases hs
  | img =>
    obtain ⟨img, -, rfl⟩ := Option.map_eq_some_iff.mp ht
    simp only [imgTask, imgTaskDeps, List.mem_append] at hs
    rcases hs with ((hs | hs) | hs) | hs
    · exact .script (.inl hs)
    · obtain ⟨script, hscript, rfl⟩ := Option.map_eq_some_iff.mp (Option.mem_toList.mp hs)
      obtain ⟨bin, hbin⟩ := bin_of_postBin hc hscript
      exact .own (u := c.postBinTask bin script) (.img (.inl rfl)) (by simp [task, hbin, hscript])
    · exact .script (.inr hs)
    · split at hs
      · next hinit => exact waitsFor_bin (.img (.inr ⟨rfl, hinit⟩)) (Option.mem_toList.mp hs)
      · cases hs

theorem Config.Next.ne_fileDeps (h : c.Next r r') : r' ≠ .fileDeps := by
  cases h with
  | nodisk => exact nofun
  | postBin hr => rcases hr with rfl | rfl <;> exact nofun
  | img hr => rcases hr with rfl | ⟨rfl, -⟩ <;> exact nofun

structure TaskOf (cfgs : Dict String Ref) (val : Ref → Config) (g : List Task) (c : Config) (r : Role) (t : Task) :
    Prop where
  visited : c ∈ visited cfgs val
  task : c.task r = some t
  mem : t ∈ g

theorem Config.postBin_of_task (h : c.task .postBin = some t) : c.postBin.isSome = true := by
  obtain ⟨_, -, h⟩ := Option.bind_eq_some_iff.mp h
  obtain ⟨script, hscript, -⟩ := Option.map_eq_some_iff.mp h
  simp [hscript]

theorem Config.bin_of_task (hr : r = .bin ∨ r = .nodisk) (h : c.task r = some t) : ∃ bin, c.bin = some bin := by
  rcases hr with rfl | rfl
  · obtain ⟨bin, hbin, -⟩ := Option.map_eq_some_iff.mp h
    exact ⟨bin, hbin⟩
  · obtain ⟨bin, hbin, -⟩ := Option.map_eq_some_iff.mp (Option.ite_none_right_eq_some.mp h).2
    exact ⟨bin, hbin⟩

/-- From a task of `c` in the role `r` to one of `d` that it waits for. -/
def Config.Hop (cfgs : Dict String Ref) (val : Ref → Config) (c : Config) (r : Role) (d : Config) (r' : Role) : Prop :=
  d = c ∧ c.Next r r' ∨
    baseOf cfgs val c = some d ∧ (r' = .img ∨ r' = .bin ∧ c.useParentBin = true ∧ (r = .bin ∨ r = .nodisk))

/-- Where hops from a task of `o` lead: to other tasks of `o`, or over its base. -/
def Config.Via (env : BuildEnv) (cfgs : Dict String Ref) (val : Ref → Config) (o : Config) (r : Role) (d : Config)
    (r' : Role) : Prop :=
  d = o ∧ (r' = .img ∨ r ≠ .img ∨ o.postBin.isSome = true ∨ o.guestInit.isSome = true) ∨
    ∃ b, baseOf cfgs val o = some b ∧ o.Leads env cfgs val b r ∧
      Relation.ReflTransGen (fun c b => baseOf cfgs val c = some b) b d

namespace OwnTasks
variable (hg : buildDepGraph env cfgs val = .ok g) (hlinked : ∀ c ∈ visited cfgs val, c.Linked (baseOf cfgs val c))
  (h : OwnTasks env cfgs val)
include h

theorem registers_of_next (hc : c ∈ visited cfgs val) (ht : c.task r = some t) (hnext : c.Next r r')
    (hu : c.task r' = some u) : c.Registers env cfgs val r' := by
  have hsome : (c.task r').isSome = true := by simp [hu]
  cases hnext with
  | nodisk => exact h.registers c hc .img (by simp) hsome
  | postBin hr => exact h.bins c hc (.inr (.inl (Config.postBin_of_task ht))) r' (by simpa using hr) hsome
  | img hr =>
    rcases hr with rfl | ⟨rfl, hinit⟩
    · exact h.registers c hc .postBin (by simp) hsome
    · exact h.bins c hc (.inr (.inr hinit)) .bin (by simp) hsome

theorem afterBin {bin : String} (ho : o ∈ visited cfgs val) (hbin : o.bin = some bin)
    (hflags : r ≠ .img ∨ o.postBin.isSome = true ∨ o.guestInit.isSome = true) : o.AfterBin env cfgs val r o := by
  by_cases hr : r = .img
  · subst hr
    have hflags := hflags.resolve_left fun hne => hne rfl
    have hregisters := h.bins o ho (.inr hflags) .bin (by simp) (by simp [Config.task, hbin])
    rcases hflags with hpost | hinit
    · obtain ⟨script, hscript⟩ := Option.isSome_iff_exists.mp hpost
      have htask : o.task .postBin = some (o.postBinTask bin script) := by simp [Config.task, hbin, hscript]
      obtain ⟨t, ht, hkept⟩ := h.registers o ho .postBin (by simp) (by simp [htask])
      obtain rfl : t = o.postBinTask bin script := Option.some.inj (ht.symm.trans htask)
      exact .postBin hscript htask hkept hregisters
    · exact .guestInit hinit hregisters
  · exact .own hr

theorem base_of_script (ho : o ∈ visited cfgs val) (hb : baseOf cfgs val o = some b) (hs : s ∈ b.hostInitDeps) :
    b ∈ visited cfgs val := by
  refine (base_visited hb).resolve_right fun hdistro => ?_
  simp [Config.hostInitDeps, (h.distros o ho b hb hdistro.1).2.1] at hs

theorem carries_of_via (hq : q ∈ visited cfgs val) (hvia : o.Via env cfgs val r q r') (hs : q.Scripts cfgs val s) :
    o.Carries env cfgs val r s := by
  rcases hvia with ⟨rfl, -⟩ | ⟨b, hb, hleads, hpath⟩
  · exact hs.imp_right fun ⟨b, hb, hs⟩ => ⟨b, hb, .inl hs⟩
  refine .inr ⟨b, hb, ?_⟩
  rcases hs with hs | ⟨a, ha, hs⟩
  · rcases Relation.reflTransGen_iff_eq_or_transGen.mp hpath with heq | hpath
    · exact .inl (heq ▸ hs)
    · exact .inr ⟨hleads, q, hq, hpath, hs⟩
  · exact .inr ⟨hleads, a, h.base_of_script hq ha hs, .tail' hpath ha, hs⟩

include hg

theorem via_hop (hc : TaskOf cfgs val g c r' t) (hd : TaskOf cfgs val g d r'' u) (hvia : o.Via env cfgs val r c r')
    (hhop : c.Hop cfgs val r' d r'') : o.Via env cfgs val r d r'' := by
  rcases hhop with ⟨rfl, hnext⟩ | ⟨hbase, hrole⟩
  · refine hvia.imp_left ?_
    rintro ⟨rfl, hflags⟩
    refine ⟨rfl, ?_⟩
    cases hnext with
    | nodisk => exact .inl rfl
    | postBin _ => exact .inr (hflags.resolve_left nofun)
    | img hr =>
      rcases hr with rfl | ⟨rfl, hinit⟩
      · exact .inr (.inr (.inl (Config.postBin_of_task hd.task)))
      · exact .inr (.inr (.inr hinit))
  · refine .inr ?_
    rcases hvia with ⟨rfl, hflags⟩ | ⟨b, hb, hleads, hpath⟩
    · refine ⟨d, hbase, ?_, .refl⟩
      have hregisters := Config.registers_of_mem hg hd.mem hd.task
      rcases hrole with rfl | ⟨rfl, hparent, hr'⟩
      · exact .inl hregisters
      · obtain ⟨bin, hbin⟩ := Config.bin_of_task hr' hc.task
        have hne : r' ≠ .img := by rcases hr' with rfl | rfl <;> exact nofun
        exact .inr ⟨hregisters, c, h.afterBin hc.visited hbin (hflags.resolve_left hne), hparent, hbase⟩
    · exact ⟨b, hb, hleads, hpath.tail hbase⟩

omit h in
theorem script_visited (hu : u ∈ g) (ha : u.action = .handleHostInit o) :
    o ∈ visited cfgs val ∧ u.name ∈ o.hostInitDeps := by
  obtain ⟨v, hv, hmem⟩ := mem_offered.mp (offered_of_mem hg hu)
  cases v with
  | baseImage c img =>
    obtain ⟨_, _, rfl⟩ := List.mem_map.mp hmem
    cases ha
  | workload c =>
    rcases Config.mem_depTasks.mp hmem with hleaf | ⟨r, htask⟩
    · rcases Config.leafTasks_cases hleaf with rfl | ⟨script, hscript, rfl⟩ | rfl | rfl
      · cases ha
      · cases ha
        exact ⟨mem_visited.mpr hv, by simp [Config.hostInitDeps, hscript]⟩
      · cases ha
      · cases ha
    · obtain rfl : r = .leaf := by
        rw [← Config.role_task htask]
        simp [Task.role, Action.role, ha]
      cases htask

theorem not_script {w : Task} (hu : u ∈ g) (hw : w ∈ offered env cfgs val) (hname : u.name = w.name)
    (hnot : ∀ o, w.action ≠ .handleHostInit o) : ∀ o, u.action ≠ .handleHostInit o := by
  intro o ha
  obtain ⟨ho, hmem⟩ := script_visited hg hu ha
  obtain ⟨o', ho'⟩ := h.scripts w hw o ho (hname ▸ hmem)
  exact hnot o' ho'

theorem leaf_of_hostInit (hc : c ∈ visited cfgs val) (hs : u.name ∈ c.hostInitDeps) (hu : u ∈ g) : u.role = .leaf := by
  obtain ⟨script, hscript, hname⟩ := Option.map_eq_some_iff.mp (Option.mem_toList.mp hs)
  exact h.roles u (offered_of_mem hg hu) _ (leaf_offered hc (Config.hostInit_mem_leafTasks hscript)) hname.symm

omit h in
theorem taskOf_of_name (hd : d ∈ visited cfgs val) (hregisters : d.Registers env cfgs val r) {w : Task}
    (hw : d.task r = some w) (hu : u ∈ g) (hname : u.name = w.name) : TaskOf cfgs val g d r u := by
  obtain ⟨x, hx, hxtask⟩ := hregisters.mem hg
  obtain rfl : w = x := Option.some.inj (hw.symm.trans hxtask)
  obtain rfl := eq_of_name hg hu hx hname
  exact ⟨hd, hw, hu⟩

include hlinked

theorem hop_of_waits (ht : TaskOf cfgs val g c r t) (hfiles : r ≠ .fileDeps) (hw : Waits g t u) :
    (∃ d r', TaskOf cfgs val g d r' u ∧ r' ≠ .fileDeps ∧ c.Hop cfgs val r d r') ∨
      u.role = .leaf ∧ ∀ o, u.action = .handleHostInit o → c.Scripts cfgs val u.name := by
  obtain ⟨hu, hdep⟩ := hw
  generalize hs : u.name = s at hdep
  have hwaits : c.WaitsFor r s :=
    Config.waitsFor_of_taskDep (complete_of_visited hg ht.visited) ht.task hfiles hdep
  cases hwaits with
  | script hscript =>
    rcases hscript with hscript | hbase
    · exact .inr ⟨h.leaf_of_hostInit hg ht.visited (hs ▸ hscript) hu, fun _ _ => .inl hscript⟩
    obtain ⟨b, hb, himg | hinit⟩ := ((hlinked c ht.visited).baseDeps s).mp hbase
    · rcases base_visited hb with hv | ⟨-, hvisit⟩
      · have htask : b.task .img = some (b.imgTask s) := by simp [Config.task, himg]
        have hregisters := h.registers b hv .img (by simp) (by simp [htask])
        exact .inl ⟨b, .img, taskOf_of_name hg hv hregisters htask hu hs, by simp, .inr ⟨hb, .inl rfl⟩⟩
      · -- The builder of a distro makes the image.
        obtain ⟨builder, hoffered⟩ := baseImage_offered hg (hvisit s himg)
        refine .inr ⟨h.roles u (offered_of_mem hg hu) _ hoffered hs, fun o ha => ?_⟩
        exact absurd ha (h.not_script hg hu hoffered hs (by simp [baseImageTask]) o)
    · have hdeps : s ∈ b.hostInitDeps := Option.mem_toList.mpr hinit
      have hv := h.base_of_script ht.visited hb hdeps
      exact .inr ⟨h.leaf_of_hostInit hg hv (hs ▸ hdeps) hu, fun _ _ => .inr ⟨b, hb, hdeps⟩⟩
  | busybox =>
    have hoffered := leaf_offered ht.visited (List.mem_cons_self : Config.busyboxTask env ∈ c.leafTasks env)
    refine .inr ⟨h.roles u (offered_of_mem hg hu) _ hoffered hs, fun o ha => ?_⟩
    exact absurd ha (h.not_script hg hu hoffered hs (by simp [Config.busyboxTask]) o)
  | parentBin hr hparent hbin =>
    obtain ⟨b, hb, hlinux, heq⟩ := (hlinked c ht.visited).useParentBin hparent
    rw [heq] at hbin
    have hv : b ∈ visited cfgs val := by
      refine (base_visited hb).resolve_right fun hdistro => ?_
      simp [(h.distros c ht.visited b hb hdistro.1).2.2] at hbin
    have htask : b.task .bin = some (b.binTask s) := by simp [Config.task, hbin]
    have hregisters := h.bins b hv (.inl hlinux) .bin (by simp) (by simp [htask])
    exact .inl ⟨b, .bin, taskOf_of_name hg hv hregisters htask hu hs, by simp, .inr ⟨hb, .inr ⟨rfl, hparent, hr⟩⟩⟩
  | @own r' x hnext htask =>
    have hregisters := h.registers_of_next ht.visited ht.task hnext htask
    exact .inl ⟨c, r', taskOf_of_name hg ht.visited hregisters htask hu hs, hnext.ne_fileDeps, .inl ⟨rfl, hnext⟩⟩

/-- Where a task of `o` leads, step by step. -/
theorem via_of_reaches (ho : TaskOf cfgs val g o r t) (hr : r ∈ [Role.bin, .nodisk, .img])
    (hreach : Relation.ReflTransGen (Waits g) t u) :
    (∃ d r', TaskOf cfgs val g d r' u ∧ r' ≠ .fileDeps ∧ o.Via env cfgs val r d r') ∨
      u.role = .leaf ∧ u ∈ g ∧ ∀ x, u.action = .handleHostInit x → o.Carries env cfgs val r u.name := by
  induction hreach with
  | refl =>
    refine .inl ⟨o, r, ho, ?_, .inl ⟨rfl, (em (r = .img)).imp_right .inl⟩⟩
    rintro rfl
    simp at hr
  | @tail x u _ hwaits ih =>
    rcases ih with ⟨c, r', hc, hfiles, hvia⟩ | ⟨hleaf, hx, -⟩
    · rcases h.hop_of_waits hg hlinked hc hfiles hwaits with ⟨d, r'', hd, hne, hhop⟩ | ⟨hleaf, hscript⟩
      · exact .inl ⟨d, r'', hd, hne, h.via_hop hg hc hd hvia hhop⟩
      · exact .inr ⟨hleaf, hwaits.1, fun w hw => h.carries_of_via hc.visited hvia (hscript w hw)⟩
    · have hdep := hwaits.2
      simp [(isLeaf_of_offered (offered_of_mem hg hx) hleaf).1] at hdep

theorem carried (hfirst : AncestorsFirst cfgs val g) : Carried env cfgs val := by
  intro c hc r hr name hname a ha hpath s hs
  obtain ⟨x, hx, rfl⟩ := Option.map_eq_some_iff.mp hname
  have hxo : x ∈ offered env cfgs val := task_offered hc hx
  obtain ⟨t, hkept⟩ := exists_kept hxo
  have ht := mem_of_kept hg hkept
  obtain ⟨hoffered, htname⟩ := kept_offered hkept
  have hrole : t.role = r := (h.roles t hoffered x hxo htname).trans (Config.role_task hx)
  obtain ⟨o, ho, htask⟩ := config_of_offered hoffered (by rw [hrole]; rintro rfl; simp at hr)
  rw [hrole] at htask
  refine ⟨o, t, htask, hkept, ?_⟩
  obtain ⟨u, hreach, rfl⟩ := hfirst c hc r hr t ht (by rw [hname, htname]) a ha hpath s hs
  rcases h.via_of_reaches hg hlinked ⟨ho, htask, ht⟩ hr hreach with ⟨d, r', hd, -, -⟩ | ⟨-, hu, hcarries⟩
  · obtain ⟨w, hw⟩ := h.scripts u (offered_of_mem hg hd.mem) a ha hs
    obtain rfl : r' = .leaf := by
      rw [← Config.role_task hd.task]
      simp [Task.role, Action.role, hw]
    cases hd.task
  · obtain ⟨w, hw⟩ := h.scripts u (offered_of_mem hg hu) a ha hs
    exact hcarries w hw

end OwnTasks
end

namespace ConfigManager
variable {m : ConfigManager} {s t : Heap} {n : Nat}

/-- The workload of a distro with an image, or of that for bare metal. -/
def distroOf : Bool → Config
  | true => { sampleDistro with name := "br.1a2b" }
  | false =>
    { name := "bare", outDir := "/images/bare", isDistro := true, builder := some "bare", distro := some 0
      launch := some true }

def threeChain (images : Bool) : ConfigManager where
  wlutilDir := "/wlutil"
  cfgs := [("child.yaml", 3), ("parent.yaml", 2), ("root.yaml", 1), ((distroOf images).name, 0)]

/-- The script of 'root.yaml' makes the binary that all of them use. That configuration sets 'distro' and is based on
    the distro workload since it was forked. Where there are images, the child has two jobs with the same script after
    the binary. -/
def threeHeap (images : Bool) : Heap where
  val
    | 0 => distroOf images
    | 1 =>
      { name := "root", base := some (distroOf images).name, outDir := "/images/root", distro := some 4
        bin := some "/root/root.riscv", hostInit := some { path := some "/root/build.sh" } }
    | 2 => { name := "parent", base := some "root.yaml", outDir := "/images/parent" }
    | 3 =>
      { name := "child", base := some "parent.yaml", outDir := "/images/child"
        jobs := if images then [4, 5] else [] }
    | 4 => job "child-a"
    | 5 => job "child-b"
    | _ => { name := "", outDir := "" }
  done r := r = 0
  calls := []
where
  job (name : String) : Config :=
    { name, base := some "child.yaml", outDir := joinPath "/images" name
      postBin := some { path := some "/child/post.sh" } }

theorem threeChain_loaded (images : Bool) : (threeChain images).Loaded (threeHeap images) := by
  refine .of_lt (w := 3) (by cases images <;> decide) (fun r b h => ?_) (fun x y h => ?_) (fun r hr => ?_) rfl
    fun r h => ?_
  · match r with
    | 0 => cases images <;> cases h
    | 1 | 2 | 3 | 4 | 5 => cases images <;> cases h <;> decide
    | _ + 6 => cases h
  · match x with
    | 0 => cases images <;> cases h
    | 1 | 2 | 3 | 4 | 5 => cases images <;> cases h <;> decide
    | _ + 6 => cases h
  · match r with
    | 0 => cases images <;> rfl
    | 3 => exact absurd rfl hr
    | 1 | 2 | 4 | 5 | _ + 6 => rfl
  · obtain rfl : r = 0 := by simpa [threeHeap] using h
    exact ⟨by decide, by cases images <;> rfl⟩

theorem threeHeap_fresh (images : Bool) (r : Ref) : ((threeHeap images).val r).Fresh := by
  match r with
  | 0 => cases images <;> exact ⟨rfl, rfl, rfl⟩
  | 1 | 2 | 3 | 4 | 5 | _ + 6 => exact ⟨rfl, rfl, rfl⟩

def threeConfigs (images : Bool) : Ref → Config := valuesOf ((threeChain images).initializeAll 5 (threeHeap images))

theorem threeConfigs_complete (images : Bool) :
    ∀ v ∈ visits (threeChain images).cfgs (threeConfigs images), v.Complete := by
  cases images <;> decide +kernel

theorem threeConfigs_bases (images : Bool) :
    baseOf (threeChain images).cfgs (threeConfigs images) (threeConfigs images 3) = some (threeConfigs images 2) ∧
      baseOf (threeChain images).cfgs (threeConfigs images) (threeConfigs images 2) = some (threeConfigs images 1) := by
  cases images <;> decide +kernel

theorem threeConfigs_carries {o : Config} {r : Role} {script : String}
    (ho : o ∈ visited (threeChain true).cfgs (threeConfigs true)) (hs : script ∈ (threeConfigs true 1).hostInitDeps) :
    o.Carries sampleEnv (threeChain true).cfgs (threeConfigs true) r script := by
  have hvisited : visited (threeChain true).cfgs (threeConfigs true) =
    [3, 4, 5, 2, 1].map (threeConfigs true) := by decide +kernel
  have hroot : threeConfigs true 1 ∈ visited (threeChain true).cfgs (threeConfigs true) := by decide +kernel
  obtain ⟨hchild, hparent⟩ := threeConfigs_bases true
  have hjobs : ∀ job ∈ [4, 5], baseOf (threeChain true).cfgs (threeConfigs true) (threeConfigs true job) =
    some (threeConfigs true 3) := by decide +kernel
  have himgs : ∀ b ∈ [2, 3], (threeConfigs true b).Registers sampleEnv (threeChain true).cfgs (threeConfigs true) .img := by
    decide +kernel
  rw [hvisited] at ho
  obtain ⟨ref, href, rfl⟩ := List.mem_map.mp ho
  simp only [List.mem_cons, List.not_mem_nil, or_false] at href
  rcases href with rfl | rfl | rfl | rfl | rfl
  · exact .inr ⟨_, hchild, .inr ⟨.inl (himgs 2 (by decide)), _, hroot, .single hparent, hs⟩⟩
  · exact .inr ⟨_, hjobs 4 (by decide), .inr ⟨.inl (himgs 3 (by decide)), _, hroot, .head hchild (.single hparent), hs⟩⟩
  · exact .inr ⟨_, hjobs 5 (by decide), .inr ⟨.inl (himgs 3 (by decide)), _, hroot, .head hchild (.single hparent), hs⟩⟩
  · exact .inr ⟨_, hparent, .inl hs⟩
  · exact .inl hs

end ConfigManager
end FireMarshal
