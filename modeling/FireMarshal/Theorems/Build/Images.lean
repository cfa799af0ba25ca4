import Mathlib.Logic.Relation
import FireMarshal.Theorems.Build.Requests

/-! Which builds rewrite a root filesystem that the user supplied.

The image task of a workload removes its image first. A build does not ask for the image that a user hard-coded,
but other tasks wait for it. -/

namespace FireMarshal

/-- The image is a file of the user, not made from that of a base. -/
def Config.UserImage (c : Config) : Prop := c.imgHardcoded = true ∧ c.img.isSome = true ∧ c.baseImg = none

inductive Reached (g : List Task) (ts : List String) : Task → Prop
  | target {t : Task} : t ∈ g → t.name ∈ ts → Reached g ts t
  | dep {t u : Task} : Reached g ts t → u ∈ g → u.name ∈ t.taskDep ∨ u.name ∈ t.calcDep → Reached g ts u

/-- The image of a workload is a copy of that of a base, which is made for `b`. -/
def BasedOn (env : BuildEnv) (cfgs : Dict String Ref) (val : Ref → Config) (c b : Config) : Prop :=
  ∃ img ∈ c.baseImg, kept env cfgs val img = some (b.imgTask img)

/-- The image goes back to one of the user, over any number of bases. -/
def Config.FromUserImage (env : BuildEnv) (cfgs : Dict String Ref) (val : Ref → Config) (c : Config) : Prop :=
  ∃ p, Relation.TransGen (BasedOn env cfgs val) c p ∧ p.UserImage

def Config.Risky (env : BuildEnv) (cfgs : Dict String Ref) (val : Ref → Config) (c : Config) (r : Role) : Prop :=
  c.FromUserImage env cfgs val ∨ c.UserImage ∧
    match r with
    | .nodisk | .img => True
    | .postBin | .fileDeps => c.nodisk = true ∧ c.postBin.isSome = true
    | .leaf | .bin => False

def RiskyTask (env : BuildEnv) (cfgs : Dict String Ref) (val : Ref → Config) (t : Task) : Prop :=
  ∃ c ∈ visited cfgs val, c.task t.role = some t ∧ c.Risky env cfgs val t.role

/-- A name under which a task is kept that leads to an image of the user is used only by configurations with such an
    image, or based on one. -/
structure Apart (env : BuildEnv) (cfgs : Dict String Ref) (val : Ref → Config) (ref : Ref) : Prop where
  /-- As the name of an own task, also of a workload that is asked for. -/
  own : ∀ c ∈ visited cfgs val ++ (ref :: (val ref).jobs).map val, ∀ r, ∀ w ∈ c.task r,
    ∀ t ∈ kept env cfgs val w.name, RiskyTask env cfgs val t → c.Risky env cfgs val r
  leaf : ∀ c ∈ visited cfgs val, ∀ w ∈ c.leafTasks env, ∀ t ∈ kept env cfgs val w.name, ¬ RiskyTask env cfgs val t
  baseDeps : ∀ c ∈ visited cfgs val, ∀ s ∈ c.baseDeps, ∀ t ∈ kept env cfgs val s, RiskyTask env cfgs val t →
    c.FromUserImage env cfgs val
  parentBin : ∀ c ∈ visited cfgs val, c.useParentBin = true → ∀ s ∈ c.baseBin, ∀ t ∈ kept env cfgs val s,
    RiskyTask env cfgs val t → c.FromUserImage env cfgs val

/-- The tasks for which a workload that is asked for may lead to an image of the user are its own, and images of bases
    are dependencies. -/
structure Followed (env : BuildEnv) (cfgs : Dict String Ref) (val : Ref → Config) (ref : Ref) : Prop where
  own : ∀ q ∈ ref :: (val ref).jobs, (val q).UserImage ∨ (val q).FromUserImage env cfgs val →
    ∀ r ∈ [Role.bin, .nodisk, .img], (val q).task r = none ∨ (val q).Registers env cfgs val r
  baseDeps : ∀ c ∈ visited cfgs val, ∀ s ∈ c.baseImg, s ∈ c.baseDeps

instance : DecidablePred Config.UserImage := fun c =>
  inferInstanceAs (Decidable (c.imgHardcoded = true ∧ c.img.isSome = true ∧ c.baseImg = none))

section
variable {env : BuildEnv} {cfgs : Dict String Ref} {val : Ref → Config} {g : List Task} {ts : List String}
variable {t u : Task} {c o : Config} {r r' : Role} {s : String} {ref : Ref}

theorem visited_of_kept {img : String} (h : kept env cfgs val img = some (c.imgTask img)) :
    c ∈ visited cfgs val ∧ c.img = some img := by
  obtain ⟨o, ho, htask⟩ := config_of_offered (kept_offered h).1 (by exact nofun)
  obtain ⟨img', himg, heq⟩ := Option.map_eq_some_iff.mp htask
  obtain rfl : o = c := Action.makeImage.inj (congrArg Task.action heq)
  obtain rfl : img' = img := congrArg Task.name heq
  exact ⟨ho, himg⟩

theorem Config.Risky.before (ht : c.task r = some t) (hu : c.task r' = some u) (hbefore : r' ∈ r.before)
    (h : c.Risky env cfgs val r') : c.Risky env cfgs val r := by
  rcases h with h | ⟨huser, h⟩
  · exact .inl h
  refine .inr ⟨huser, ?_⟩
  cases r with
  | leaf | bin => cases hbefore
  | nodisk | img => trivial
  | fileDeps =>
    simp only [Role.before, List.mem_cons, List.not_mem_nil, or_false] at hbefore
    rcases hbefore with rfl | rfl
    · cases h
    · exact h
  | postBin =>
    obtain ⟨bin, -, ht⟩ := Option.bind_eq_some_iff.mp ht
    obtain ⟨script, hscript, -⟩ := Option.map_eq_some_iff.mp ht
    simp only [Role.before, List.mem_cons, List.not_mem_nil, or_false] at hbefore
    rcases hbefore with rfl | rfl
    · cases h
    · exact ⟨(Option.ite_none_right_eq_some.mp hu).1, by simp [hscript]⟩

theorem Reached.mem (h : Reached g ts t) : t ∈ g := by
  cases h with
  | target ht _ => exact ht
  | dep _ ht _ => exact ht

theorem Config.baseDeps_subset_bin (c : Config) : c.baseDeps ⊆ c.binTaskDeps := by
  intro s hs
  simp [binTaskDeps, hs]

theorem Config.baseDeps_subset_img (c : Config) (img : String) : c.baseDeps ⊆ (c.imgTask img).taskDep := by
  intro s hs
  simp [imgTask, imgTaskDeps, hs]

/-! ### What leads to a risky task is risky -/

namespace Apart
variable (hg : buildDepGraph env cfgs val = .ok g) (h : Apart env cfgs val ref)
include hg h

theorem risky_step (ht : t ∈ g) (hu : u ∈ g) (hdep : u.name ∈ t.taskDep ∨ u.name ∈ t.calcDep)
    (hrisky : RiskyTask env cfgs val u) : RiskyTask env cfgs val t := by
  have hleaf : t.role ≠ .leaf := by
    intro hr
    obtain ⟨htask, hcalc⟩ := isLeaf_of_offered (offered_of_mem hg ht) hr
    simp [htask, hcalc] at hdep
  obtain ⟨c, hc, htask⟩ := config_of_mem hg ht hleaf
  refine ⟨c, hc, htask, ?_⟩
  have hkept := (mem_iff_kept hg).mp hu
  have hdep : c.Dep env t.role u.name := Config.dep_of_task (complete_of_visited hg hc) htask hdep
  generalize u.name = s at hdep hkept
  cases hdep with
  | leaf hw => exact absurd hrisky (h.leaf c hc _ hw u hkept)
  | base _ hbase => exact .inl (h.baseDeps c hc s hbase u hkept hrisky)
  | parentBin _ hparent hbin => exact .inl (h.parentBin c hc hparent s hbin u hkept hrisky)
  | own hbefore hw => exact (h.own c (List.mem_append_left _ hc) _ _ hw u hkept hrisky).before htask hw hbefore

theorem risky_target (ht : Reached g ts t) (hrisky : RiskyTask env cfgs val t) :
    ∃ u ∈ g, u.name ∈ ts ∧ RiskyTask env cfgs val u := by
  induction ht with
  | target ht hname => exact ⟨_, ht, hname, hrisky⟩
  | dep hreached hu hdep ih => exact ih (h.risky_step hg hreached.mem hu hdep hrisky)

end Apart

/-! ### Risky tasks lead to images of the user -/

namespace Followed
variable (hg : buildDepGraph env cfgs val = .ok g) (h : Followed env cfgs val ref)
include hg h

theorem reached_base (hc : c ∈ visited cfgs val) (hreached : Reached g ts t) (hr : c.baseDeps ⊆ t.taskDep)
    (hbase : BasedOn env cfgs val c o) : ∃ img, o.img = some img ∧ Reached g ts (o.imgTask img) := by
  obtain ⟨img, himg, hkept⟩ := hbase
  refine ⟨img, (visited_of_kept hkept).2, .dep hreached (mem_of_kept hg hkept) (.inl (hr ?_))⟩
  exact h.baseDeps c hc img himg

theorem reached_user (hc : c ∈ visited cfgs val) (hreached : Reached g ts t) (hr : c.baseDeps ⊆ t.taskDep)
    (huser : c.FromUserImage env cfgs val) : ∃ u, Reached g ts u ∧ ∃ p, u.action = .makeImage p ∧ p.UserImage := by
  obtain ⟨p, hp, huser⟩ := huser
  induction hp using Relation.TransGen.head_induction_on generalizing t with
  | single hbase =>
    obtain ⟨img, -, hreached⟩ := h.reached_base hg hc hreached hr hbase
    exact ⟨_, hreached, p, rfl, huser⟩
  | head hbase _ ih =>
    obtain ⟨img, -, hreached⟩ := h.reached_base hg hc hreached hr hbase
    obtain ⟨_, _, hkept⟩ := hbase
    exact ih (visited_of_kept hkept).1 hreached (Config.baseDeps_subset_img _ _)

end Followed

/-! ### Builds -/

/-- A build of a workload, or of one of its jobs, comes to an image of the user: it is based on one and a target is
    asked for, or it has one itself and its binary without a disk is asked for. -/
def Config.Endangers (env : BuildEnv) (cfgs : Dict String Ref) (val : Ref → Config) (buildBin buildImg : Bool)
    (c : Config) : Prop :=
  (c.FromUserImage env cfgs val ∧ (buildBin = true ∧ c.bin.isSome = true ∨
      buildImg = true ∧ c.img.isSome = true ∧ c.imgHardcoded = false)) ∨
    c.UserImage ∧ buildBin = true ∧ c.bin.isSome = true ∧ c.nodisk = true

/-- A build may ask for the task of a workload, or of one of its jobs, in this role. -/
def Config.Asked (buildBin buildImg : Bool) (c : Config) (r : Role) : Prop :=
  buildBin = true ∧ c.bin.isSome = true ∧ (r = .bin ∨ r = .nodisk ∧ c.nodisk = true) ∨
    r = .img ∧ buildImg = true ∧ c.img.isSome = true ∧ c.imgHardcoded = false

variable {buildBin buildImg : Bool} {n : String}

theorem task_of_target (hts : targets buildBin buildImg val ref = .ok ts) (hn : n ∈ ts) :
    ∃ q ∈ ref :: (val ref).jobs, ∃ r t, (val q).task r = some t ∧ t.name = n ∧
      (val q).Asked buildBin buildImg r := by
  have hbin : ∀ q bin, (val q).bin = some bin → (val q).task .bin = some ((val q).binTask bin) :=
    fun q bin h => by simp [Config.task, h]
  have hnodisk : ∀ q bin, (val q).bin = some bin → (val q).nodisk = true →
      (val q).task .nodisk = some ((val q).nodiskTask bin) := fun q bin h hflag => by simp [Config.task, h, hflag]
  rcases (mem_targets hts).mp hn with ⟨hbuild, hn | ⟨job, hjob, hn⟩⟩ | ⟨hbuild, q, hq, hn⟩
  · obtain ⟨bin, hb, hname⟩ := Config.mem_requestedBins.mp hn
    refine ⟨ref, List.mem_cons_self, ?_⟩
    split at hname
    · next hflag =>
      exact ⟨.nodisk, _, hnodisk _ _ hb hflag, hname,
        .inl ⟨hbuild, by simp [Option.mem_def.mp hb], .inr ⟨rfl, hflag⟩⟩⟩
    · exact ⟨.bin, _, hbin _ _ hb, hname, .inl ⟨hbuild, by simp [Option.mem_def.mp hb], .inl rfl⟩⟩
  · obtain ⟨bin, hb, rfl | ⟨hflag, rfl⟩⟩ := Config.mem_requestedJobBins.mp hn
    · exact ⟨job, List.mem_cons_of_mem _ hjob, .bin, _, hbin _ _ hb, rfl,
        .inl ⟨hbuild, by simp [Option.mem_def.mp hb], .inl rfl⟩⟩
    · exact ⟨job, List.mem_cons_of_mem _ hjob, .nodisk, _, hnodisk _ _ hb hflag, rfl,
        .inl ⟨hbuild, by simp [Option.mem_def.mp hb], .inr ⟨rfl, hflag⟩⟩⟩
  · obtain ⟨hhard, himg⟩ := Config.mem_requestedImgs.mp hn
    exact ⟨q, hq, .img, (val q).imgTask n, by simp [Config.task, himg], rfl,
      .inr ⟨rfl, hbuild, by simp [himg], hhard⟩⟩

theorem target_of_bin {q : Ref} {bin : String} (hts : targets buildBin buildImg val ref = .ok ts)
    (hq : q ∈ ref :: (val ref).jobs) (hbuild : buildBin = true) (hbin : (val q).bin = some bin) :
    (if (val q).nodisk then noDiskPath bin else bin) ∈ ts := by
  refine (mem_targets hts).mpr (.inl ⟨hbuild, ?_⟩)
  rcases List.mem_cons.mp hq with rfl | hq
  · exact .inl (Config.mem_requestedBins.mpr ⟨bin, hbin, rfl⟩)
  · refine .inr ⟨q, hq, Config.mem_requestedJobBins.mpr ⟨bin, hbin, ?_⟩⟩
    split
    · next hflag => exact .inr ⟨hflag, rfl⟩
    · exact .inl rfl

theorem risky_of_makeImage (hg : buildDepGraph env cfgs val = .ok g) (ht : t ∈ g) (haction : t.action = .makeImage c)
    (huser : c.UserImage) : RiskyTask env cfgs val t := by
  have hrole : t.role = .img := by rw [Task.role, haction]; rfl
  obtain ⟨o, ho, htask⟩ := config_of_mem hg ht (by simp [hrole])
  refine ⟨o, ho, htask, ?_⟩
  rw [hrole] at htask ⊢
  obtain ⟨img, -, rfl⟩ := Option.map_eq_some_iff.mp htask
  obtain rfl : o = c := Action.makeImage.inj haction
  exact .inr ⟨huser, trivial⟩

theorem Config.Risky.endangers (h : c.Risky env cfgs val r) (hasked : c.Asked buildBin buildImg r) :
    c.Endangers env cfgs val buildBin buildImg := by
  rcases h with hfrom | ⟨huser, hrisky⟩
  · exact .inl ⟨hfrom, hasked.imp (fun ⟨hbuild, hbin, _⟩ => ⟨hbuild, hbin⟩) And.right⟩
  · rcases hasked with ⟨hbuild, hbin, rfl | ⟨rfl, hnodisk⟩⟩ | ⟨-, -, -, hhard⟩
    · cases hrisky
    · exact .inr ⟨huser, hbuild, hbin, hnodisk⟩
    · exact absurd huser.1 (by simp [hhard])

namespace Followed
variable (hg : buildDepGraph env cfgs val = .ok g) (h : Followed env cfgs val ref) {q : Ref}
  (hts : targets buildBin buildImg val ref = .ok ts) (hq : q ∈ ref :: (val ref).jobs)
include hg h hq

omit hts in
theorem mem_own (huser : (val q).UserImage ∨ (val q).FromUserImage env cfgs val)
    (hr : r ∈ [Role.bin, .nodisk, .img]) (ht : (val q).task r = some t) : t ∈ g := by
  rcases h.own q hq huser r hr with hnone | hregisters
  · rw [hnone] at ht
    cases ht
  · obtain ⟨w, hw, hwtask⟩ := hregisters.mem hg
    rwa [Option.some.inj (ht.symm.trans hwtask)]

omit hts in
theorem visited_own (huser : (val q).UserImage ∨ (val q).FromUserImage env cfgs val)
    (hr : r ∈ [Role.bin, .nodisk, .img]) (ht : (val q).task r = some t) : val q ∈ visited cfgs val :=
  visited_of_task hr (offered_of_mem hg (h.mem_own hg hq huser hr ht)) ht

include hts

theorem reached_bin (huser : (val q).UserImage ∨ (val q).FromUserImage env cfgs val) (hbuild : buildBin = true)
    (hbin : (val q).bin.isSome = true) : val q ∈ visited cfgs val ∧ ∃ t, Reached g ts t ∧
      (val q).baseDeps ⊆ t.taskDep ∧ ((val q).nodisk = true → (val q).img.toList ⊆ t.taskDep) := by
  obtain ⟨bin, hbin⟩ := Option.isSome_iff_exists.mp hbin
  have htarget := target_of_bin hts hq hbuild hbin
  cases hflag : (val q).nodisk with
  | false =>
    rw [hflag] at htarget
    have ht : (val q).task .bin = some ((val q).binTask bin) := by simp [Config.task, hbin]
    refine ⟨h.visited_own hg hq huser (by simp) ht, (val q).binTask bin,
      .target (h.mem_own hg hq huser (by simp) ht) htarget, ?_, ?_⟩
    · exact Config.baseDeps_subset_bin _
    · exact fun h => absurd h Bool.false_ne_true
  | true =>
    rw [hflag] at htarget
    have ht : (val q).task .nodisk = some ((val q).nodiskTask bin) := by simp [Config.task, hbin, hflag]
    refine ⟨h.visited_own hg hq huser (by simp) ht, (val q).nodiskTask bin,
      .target (h.mem_own hg hq huser (by simp) ht) htarget, ?_, ?_⟩
    · exact List.subset_append_of_subset_left _ (Config.baseDeps_subset_bin _)
    · exact fun _ => List.subset_append_right _ _

theorem reached_of_endangers (hendangers : (val q).Endangers env cfgs val buildBin buildImg) :
    ∃ u, Reached g ts u ∧ ∃ p, u.action = .makeImage p ∧ p.UserImage := by
  rcases hendangers with ⟨hfrom, hasked⟩ | ⟨huser, hbuild, hbin, hnodisk⟩
  · rcases hasked with ⟨hbuild, hbin⟩ | ⟨hbuild, himg, hhard⟩
    · obtain ⟨hc, t, hreached, hbase, -⟩ := h.reached_bin hg hts hq (.inr hfrom) hbuild hbin
      exact h.reached_user hg hc hreached hbase hfrom
    · obtain ⟨img, himg⟩ := Option.isSome_iff_exists.mp himg
      have htask : (val q).task .img = some ((val q).imgTask img) := by simp [Config.task, himg]
      have hmem := h.mem_own hg hq (.inr hfrom) (by simp) htask
      have hc := h.visited_own hg hq (.inr hfrom) (by simp) htask
      have htarget : img ∈ ts :=
        (mem_targets hts).mpr (.inr ⟨hbuild, q, hq, Config.mem_requestedImgs.mpr ⟨hhard, himg⟩⟩)
      exact h.reached_user hg hc (.target hmem htarget) (Config.baseDeps_subset_img _ _) hfrom
  · obtain ⟨img, himg⟩ := Option.isSome_iff_exists.mp huser.2.1
    obtain ⟨-, t, hreached, -, hdep⟩ := h.reached_bin hg hts hq (.inl huser) hbuild hbin
    have htask : (val q).task .img = some ((val q).imgTask img) := by simp [Config.task, himg]
    have hmem := h.mem_own hg hq (.inl huser) (by simp) htask
    refine ⟨_, .dep hreached hmem (.inl (hdep hnodisk ?_)), val q, rfl, huser⟩
    simp [Config.imgTask, himg]

end Followed

theorem Apart.of_no_user_image (h : ∀ c ∈ visited cfgs val, ¬ c.UserImage) : Apart env cfgs val ref := by
  have hfrom : ∀ c : Config, ¬ c.FromUserImage env cfgs val := by
    rintro c ⟨p, hp, huser⟩
    obtain ⟨o, -, img, -, hkept⟩ := Relation.TransGen.tail'_iff.mp hp
    exact h p (visited_of_kept hkept).1 huser
  have hrisky : ∀ t, ¬ RiskyTask env cfgs val t := by
    rintro t ⟨c, hc, -, hc' | ⟨huser, -⟩⟩
    · exact hfrom c hc'
    · exact h c hc huser
  exact
    { own := fun c _ r w _ t _ ht => absurd ht (hrisky t)
      leaf := fun c _ w _ t _ => hrisky t
      baseDeps := fun c _ s _ t _ ht => absurd ht (hrisky t)
      parentBin := fun c _ _ s _ t _ ht => absurd ht (hrisky t) }

end

/-! ### A workload on a root filesystem of the user -/

def userRootfs : Config :=
  { name := "rootfs", outDir := "/images/rootfs", img := some "/home/rootfs.img", imgHardcoded := true
    launch := some true }

def userImageConfigs : Ref → Config
  | 0 => sampleDistro
  | 1 => userRootfs
  | 2 => { hello with jobs := [4, 5] }
  | 3 => sampleInit (sampleLinux "child" none) userRootfs
  | 4 => sampleInit (sampleLinux "hello-a" (some { path := some "/hello/post.sh" })) hello
  | _ => sampleInit (sampleLinux "hello-b" (some { path := some "/hello/post.sh" })) hello
where
  hello : Config := sampleInit (sampleLinux "hello" none) sampleDistro

def userImageCfgs : Dict String Ref := [("br", 0), ("rootfs", 1), ("hello", 2), ("child", 3)]

example : Apart sampleEnv [("br", 0), ("hello", 2)] userImageConfigs 2 := .of_no_user_image (by decide +kernel)

theorem userImage_based {c b : Config} (hc : c ∈ visited userImageCfgs userImageConfigs)
    (h : BasedOn sampleEnv userImageCfgs userImageConfigs c b) (hb : b.UserImage) : c = userImageConfigs 3 := by
  have hall : ∀ c ∈ visited userImageCfgs userImageConfigs, ∀ img ∈ c.baseImg,
      ∀ t ∈ kept sampleEnv userImageCfgs userImageConfigs img, t.action = .makeImage (userImageConfigs 1) →
        c = userImageConfigs 3 := by decide +kernel
  have huser : ∀ b ∈ visited userImageCfgs userImageConfigs, b.UserImage → b = userImageConfigs 1 := by decide +kernel
  obtain ⟨img, himg, hkept⟩ := h
  refine hall c hc img himg _ hkept ?_
  rw [huser b (visited_of_kept hkept).1 hb]
  rfl

theorem userImage_from {c : Config} (hc : c ∈ visited userImageCfgs userImageConfigs)
    (h : c.FromUserImage sampleEnv userImageCfgs userImageConfigs) : c = userImageConfigs 3 := by
  have hlast : ∀ c ∈ visited userImageCfgs userImageConfigs, ∀ img ∈ c.baseImg,
      ∀ t ∈ kept sampleEnv userImageCfgs userImageConfigs img, t.action ≠ .makeImage (userImageConfigs 3) := by
    decide +kernel
  obtain ⟨p, hp, huser⟩ := h
  induction hp using Relation.TransGen.head_induction_on with
  | single hbase => exact userImage_based hc hbase huser
  | @head c b hbase _ ih =>
    obtain ⟨img, himg, hkept⟩ := hbase
    obtain rfl := ih (visited_of_kept hkept).1
    exact absurd rfl (hlast c hc img himg _ hkept)

theorem userImage_apart : Apart sampleEnv userImageCfgs userImageConfigs 2 := by
  -- A risky task is that of the child, or one of the file of the user itself.
  have hrisky : ∀ t, RiskyTask sampleEnv userImageCfgs userImageConfigs t →
      (userImageConfigs 3).task t.role = some t ∨ (userImageConfigs 1).task t.role = some t := by
    rintro t ⟨c, hc, htask, hfrom | ⟨huser, -⟩⟩
    · rw [userImage_from hc hfrom] at htask
      exact .inl htask
    · have : ∀ b ∈ visited userImageCfgs userImageConfigs, b.UserImage → b = userImageConfigs 1 := by decide +kernel
      rw [this c hc huser] at htask
      exact .inr htask
  have hchild : (userImageConfigs 3).FromUserImage sampleEnv userImageCfgs userImageConfigs :=
    ⟨userImageConfigs 1, .single ⟨"/home/rootfs.img", by decide +kernel, by decide +kernel⟩, by decide +kernel⟩
  have hown : ∀ c ∈ visited userImageCfgs userImageConfigs ++ (2 :: (userImageConfigs 2).jobs).map userImageConfigs,
      ∀ r, ∀ w ∈ c.task r, ∀ t ∈ kept sampleEnv userImageCfgs userImageConfigs w.name,
        (userImageConfigs 3).task t.role = some t ∨ (userImageConfigs 1).task t.role = some t →
          c = userImageConfigs 3 ∨ c = userImageConfigs 1 ∧ r = .img := by decide +kernel
  have hleaf : ∀ c ∈ visited userImageCfgs userImageConfigs, ∀ w ∈ c.leafTasks sampleEnv,
      ∀ t ∈ kept sampleEnv userImageCfgs userImageConfigs w.name,
        ¬ ((userImageConfigs 3).task t.role = some t ∨ (userImageConfigs 1).task t.role = some t) := by decide +kernel
  have hbase : ∀ c ∈ visited userImageCfgs userImageConfigs, ∀ s ∈ c.baseDeps ++ c.baseBin.toList,
      ∀ t ∈ kept sampleEnv userImageCfgs userImageConfigs s,
        (userImageConfigs 3).task t.role = some t ∨ (userImageConfigs 1).task t.role = some t →
          c = userImageConfigs 3 := by decide +kernel
  refine ⟨fun c hc r w hw t ht hr => ?_, fun c hc w hw t ht hr => hleaf c hc w hw t ht (hrisky t hr),
    fun c hc s hs t ht hr => ?_, fun c hc _ s hs t ht hr => ?_⟩
  · rcases hown c hc r w hw t ht (hrisky t hr) with rfl | ⟨rfl, rfl⟩
    · exact .inl hchild
    · exact .inr ⟨by decide +kernel, trivial⟩
  · exact hbase c hc s (List.mem_append_left _ hs) t ht (hrisky t hr) ▸ hchild
  · exact hbase c hc s (List.mem_append_right _ (Option.mem_toList.mpr hs)) t ht (hrisky t hr) ▸ hchild

end FireMarshal
