import FireMarshal.Build.Workload
import FireMarshal.Theorems.Build.Graph

/-! Whether the builds of one process ask for tasks that exist.

The graph is made at the first build, with the options of that moment, and later builds ask it too. -/

namespace FireMarshal

/-! ### The builds of a process -/

/-- A call of `buildWorkload`, with the configurations at that moment. -/
structure Call where
  ref : Ref
  val : Ref → Config

namespace Args

def builds (args : Args) (c : Config) : Bool :=
  match args.command with
  | .build .. => true
  | .test manual => (c.testing.bind Testing.refDir).isSome && manual.isNone

def targets (args : Args) (call : Call) : Except PyError (List String) :=
  FireMarshal.targets args.command.buildBin args.command.buildImg call.val call.ref

/-- The loop goes on after the turn of a workload, if the graph can be made. -/
def goesOn (args : Args) (call : Call) : Bool :=
  match args.command with
  | .build .. => (args.targets call).isOk
  | .test _ => (call.val call.ref).testing.all fun testCfg => testCfg.refDir.isSome

def calls (args : Args) (cfgs : Dict String Ref) : List String → (Ref → Config) → List Call
  | [], _ => []
  | cfgName :: rest, val =>
    match cfgs.lookup cfgName with
    | none => []
    | some r =>
      (if args.builds (args.mark val r r) then [⟨r, args.mark val r⟩] else []) ++
        if args.goesOn ⟨r, args.mark val r⟩ then args.calls cfgs rest (args.mark val r) else []

def request (args : Args) (g : List Task) (call : Call) : Option Request :=
  (args.targets call).toOption.map fun ts => ⟨ts, g⟩

end Args

section
variable {env : BuildEnv} {cfgs : Dict String Ref} {args : Args} {s : Session} {r : Ref} {cfgName : String}
variable {g : List Task} {val val' : Ref → Config}

theorem buildWorkload_ok (buildBin buildImg : Bool) (hg : s.loader env cfgs = .ok g) :
    (buildWorkload env cfgs buildBin buildImg r s).1 = ⟨s.val, some g, s.requests ++
        ((targets buildBin buildImg s.val r).toOption.map fun ts => ⟨ts, g⟩).toList⟩ ∧
      ((buildWorkload env cfgs buildBin buildImg r s).2 = none ↔
        (targets buildBin buildImg s.val r).isOk = true) := by
  unfold buildWorkload
  simp only [hg]
  cases targets buildBin buildImg s.val r <;> simp [Except.toOption, Except.isOk, Except.toBool]

theorem runCommand_idle (hr : cfgs.lookup cfgName = some r) (hb : args.builds (args.mark s.val r r) = false) :
    (runCommand env cfgs args cfgName s).1 = { s with val := args.mark s.val r } ∧
      ((runCommand env cfgs args cfgName s).2 = none ↔ args.goesOn ⟨r, args.mark s.val r⟩ = true) := by
  cases hcmd : args.command with
  | build binOnly imgOnly => simp [Args.builds, hcmd] at hb
  | test manual =>
    simp only [runCommand, hr, hcmd, testWorkload, Args.goesOn]
    simp only [Args.builds, hcmd] at hb
    cases htest : (args.mark s.val r r).testing with
    | none => simp
    | some testCfg => cases hdir : testCfg.refDir <;> cases manual <;> simp_all

theorem runCommand_build (hr : cfgs.lookup cfgName = some r) (hb : args.builds (args.mark s.val r r) = true)
    (hg : ({ s with val := args.mark s.val r } : Session).loader env cfgs = .ok g) :
    (runCommand env cfgs args cfgName s).1 =
        ⟨args.mark s.val r, some g, s.requests ++ (args.request g ⟨r, args.mark s.val r⟩).toList⟩ ∧
      ((runCommand env cfgs args cfgName s).2 = none ↔ args.goesOn ⟨r, args.mark s.val r⟩ = true) := by
  cases hcmd : args.command with
  | build binOnly imgOnly =>
    obtain ⟨hs, he⟩ := buildWorkload_ok (r := r) args.command.buildBin args.command.buildImg hg
    simp only [runCommand, hr, hcmd, Args.goesOn, Args.request, Args.targets, Option.map_eq_none_iff]
    simp only [hcmd] at hs he
    exact ⟨hs, he⟩
  | test manual =>
    obtain ⟨hs, -⟩ := buildWorkload_ok (r := r) true true hg
    simp only [Args.builds, hcmd, Bool.and_eq_true, Option.isNone_iff_eq_none, Option.isSome_iff_exists,
      Option.bind_eq_some_iff] at hb
    obtain ⟨⟨refDir, testCfg, htest, hdir⟩, rfl⟩ := hb
    simp only [runCommand, hr, hcmd, testWorkload, htest, hdir, Args.goesOn, Args.request, Args.targets]
    exact ⟨hs, by simp [hdir]⟩

theorem runCommand_stuck {e : PyError} (hr : cfgs.lookup cfgName = some r)
    (hg : ({ s with val := args.mark s.val r } : Session).loader env cfgs = .error e) :
    (runCommand env cfgs args cfgName s).1 = { s with val := args.mark s.val r } := by
  have hbuild : ∀ buildBin buildImg,
      (buildWorkload env cfgs buildBin buildImg r { s with val := args.mark s.val r }).1 =
        { s with val := args.mark s.val r } := fun buildBin buildImg => by simp [buildWorkload, hg]
  simp only [runCommand, hr]
  split
  · exact hbuild _ _
  · unfold testWorkload
    split
    · rfl
    · split <;> first | rfl | exact hbuild _ _

/-! ### The record of requests -/

theorem filterMap_cons_toList {α β : Type} (f : α → Option β) (a : α) (l : List α) :
    (a :: l).filterMap f = (f a).toList ++ l.filterMap f := by
  rw [List.filterMap_cons]
  cases f a <;> rfl

theorem requests_cons {s' : Session} {on : Bool} {rest : List String} {l : List Request}
    (hturn : (runCommand env cfgs args cfgName s).1 = s' ∧ ((runCommand env cfgs args cfgName s).2 = none ↔ on = true))
    (hrest : on = true → (runCommands env cfgs args rest s').1.requests = s'.requests ++ l) :
    (runCommands env cfgs args (cfgName :: rest) s).1.requests = s'.requests ++ if on then l else [] := by
  obtain ⟨rfl, he⟩ := hturn
  unfold runCommands
  split
  · next s' e hturn =>
    have hoff : ¬ on = true := fun hon => by simpa [hturn] using he.mpr hon
    simp [hoff, hturn]
  · next s' hturn =>
    have hon : on = true := he.mp (by rw [hturn])
    rw [hturn] at hrest
    simpa [hon, hturn] using hrest hon

theorem requests_of_loader (env : BuildEnv) (names : List String) (s : Session)
    (hg : ∀ first ∈ (args.calls cfgs names s.val).head?,
      ({ s with val := first.val } : Session).loader env cfgs = .ok g) :
    (runCommands env cfgs args names s).1.requests =
      s.requests ++ (args.calls cfgs names s.val).filterMap (args.request g) := by
  induction names generalizing s with
  | nil => simp [runCommands, Args.calls]
  | cons cfgName rest ih =>
    cases hr : cfgs.lookup cfgName with
    | none => simp [runCommands, runCommand, Args.calls, hr]
    | some r =>
      rw [Args.calls, hr] at hg ⊢
      cases hb : args.builds (args.mark s.val r r) with
      | false =>
        rw [requests_cons (runCommand_idle hr hb) fun hon => ih _ (by simpa [hb, hon] using hg)]
        cases hon : args.goesOn ⟨r, args.mark s.val r⟩ <;> simp [hb, hon]
      | true =>
        -- From here on the loader is the one that this call has made.
        have hloader := hg ⟨r, args.mark s.val r⟩ (by simp [hb])
        rw [requests_cons (runCommand_build hr hb hloader) fun _ => ih _ fun _ _ => rfl]
        cases hon : args.goesOn ⟨r, args.mark s.val r⟩ <;> simp [hb, hon, filterMap_cons_toList]

/-! ### Options that only differ in 'nodisk' -/

/-- The configurations are the same, up to the option 'nodisk'. -/
def SameOptions (val val' : Ref → Config) : Prop := ∀ q, val' q = { val q with nodisk := (val' q).nodisk }

theorem SameOptions.symm (h : SameOptions val val') : SameOptions val' val := fun q => by rw [h q]

theorem SameOptions.trans {val'' : Ref → Config} (h : SameOptions val val') (h' : SameOptions val' val'') :
    SameOptions val val'' := fun q => by rw [h' q, h q]

theorem SameOptions.mark (args : Args) (val : Ref → Config) (r : Ref) : SameOptions val (args.mark val r) := by
  intro q
  unfold Args.mark
  split
  · unfold setNoDisk
    split <;> rfl
  · rfl

theorem Args.mem_calls_cons {rest : List String} {call : Call} (h : call ∈ args.calls cfgs (cfgName :: rest) val) :
    ∃ r, cfgs.lookup cfgName = some r ∧
      (call = ⟨r, args.mark val r⟩ ∨ call ∈ args.calls cfgs rest (args.mark val r)) := by
  rw [Args.calls] at h
  split at h
  · cases h
  · next r hr =>
    refine ⟨r, hr, (List.mem_append.mp h).imp (fun h => ?_) fun h => ?_⟩
    · split at h
      · exact List.mem_singleton.mp h
      · cases h
    · split at h
      · exact h
      · cases h

theorem Args.mem_calls {names : List String} {call : Call} (h : call ∈ args.calls cfgs names val) :
    call.ref ∈ cfgs.vals ∧ SameOptions val call.val := by
  induction names generalizing val with
  | nil => cases h
  | cons cfgName rest ih =>
    obtain ⟨r, hr, rfl | h⟩ := Args.mem_calls_cons h
    · exact ⟨Dict.mem_vals_of_lookup hr, .mark args val r⟩
    · exact ⟨(ih h).1, (SameOptions.mark args val r).trans (ih h).2⟩

section
variable (h : SameOptions val val') (q : Ref)
include h

theorem SameOptions.jobs : (val' q).jobs = (val q).jobs := by rw [h q]

theorem SameOptions.bin : (val' q).bin = (val q).bin := by rw [h q]

theorem SameOptions.img : (val' q).img = (val q).img := by rw [h q]

theorem SameOptions.isBaseImage : (val' q).isBaseImage = (val q).isBaseImage := by rw [h q]; rfl

end

theorem SameOptions.complete_visitsOf (h : SameOptions val val') (hval : ∀ v ∈ visitsOf val r, v.Complete) :
    ∀ v ∈ visitsOf val' r, v.Complete := by
  have hwork : ∀ q, (Visit.workload (val q)).Complete → (Visit.workload (val' q)).Complete := by
    intro q hq
    rw [h q]
    exact hq
  cases hb : (val r).isBaseImage with
  | true =>
    obtain ⟨hd, img, hi⟩ := isBaseImage_iff.mp hb
    rw [visitsOf_baseImage hd hi, List.forall_mem_singleton] at hval
    rw [visitsOf_baseImage (by rw [h r]; exact hd) (by rw [h r]; exact hi), List.forall_mem_singleton, h r]
    exact hval
  | false =>
    rw [visitsOf_workload hb, List.forall_mem_cons, List.forall_mem_map] at hval
    rw [visitsOf_workload ((h.isBaseImage r).trans hb), List.forall_mem_cons, List.forall_mem_map, h.jobs]
    exact ⟨hwork r hval.1, fun job hjob => hwork job (hval.2 job hjob)⟩

theorem SameOptions.complete (h : SameOptions val val') :
    (∀ v ∈ visits cfgs val', v.Complete) ↔ ∀ v ∈ visits cfgs val, v.Complete := by
  simp only [visits, List.mem_flatMap, forall_exists_index, and_imp]
  exact ⟨fun hval v r hr => h.symm.complete_visitsOf (fun v hv => hval v r hr hv) v,
    fun hval v r hr => h.complete_visitsOf (fun v hv => hval v r hr hv) v⟩

theorem requests_of_incomplete (names : List String) (s : Session) (hs : s.taskLoader = none)
    (hval : ¬ ∀ v ∈ visits cfgs s.val, v.Complete) :
    (runCommands env cfgs args names s).1.requests = s.requests := by
  induction names generalizing s with
  | nil => rfl
  | cons cfgName rest ih =>
    cases hr : cfgs.lookup cfgName with
    | none => simp [runCommands, runCommand, hr]
    | some r =>
      have hmark : ¬ ∀ v ∈ visits cfgs (args.mark s.val r), v.Complete :=
        fun h => hval ((SameOptions.mark args s.val r).complete.mp h)
      have hturn : (runCommand env cfgs args cfgName s).1 = { s with val := args.mark s.val r } := by
        cases hg : ({ s with val := args.mark s.val r } : Session).loader env cfgs with
        | error e => exact runCommand_stuck hr hg
        | ok g =>
          rw [Session.loader, hs] at hg
          exact absurd (buildDepGraph_eq_ok.mp hg).1 hmark
      unfold runCommands
      split
      · next s' e h =>
        rw [h] at hturn
        rw [hturn]
      · next s' h =>
        rw [h] at hturn
        obtain rfl : s' = _ := hturn
        exact ih _ hs hmark

/-! ### Which builds are served -/

def Call.configs (call : Call) : List Config := (call.ref :: (call.val call.ref).jobs).map call.val

/-- The graph has the binary without a disk: some configuration had the option when the graph was made, and has that
    binary. Otherwise the name can only be that of another task by coincidence. -/
def OffersNoDisk (env : BuildEnv) (cfgs : Dict String Ref) (val : Ref → Config) (bin : String) : Prop :=
  (∃ c ∈ visited cfgs val, c.nodisk = true ∧ c.bin = some bin) ∨
    ∃ t ∈ offered env cfgs val, t.role ≠ .nodisk ∧ t.name = noDiskPath bin

/-- A call is served by the graph that was made from `val`. For the workload of a distro itself the graph has the image
    only: its binary, and the binaries and images of its jobs, have to be those of other configurations. -/
structure Served (env : BuildEnv) (cfgs : Dict String Ref) (val : Ref → Config) (args : Args) (call : Call) :
    Prop where
  nodisk : args.command.buildBin = true → ∀ c ∈ call.configs, c.nodisk = true → ∀ bin ∈ c.bin,
    OffersNoDisk env cfgs val bin
  distroBin : (call.val call.ref).isBaseImage = true → args.command.buildBin = true →
    (call.val call.ref).nodisk = false → ∀ bin ∈ (call.val call.ref).bin, Named cfgs val bin
  jobBins : (call.val call.ref).isBaseImage = true → args.command.buildBin = true →
    ∀ job ∈ (call.val call.ref).jobs, ∀ bin ∈ (call.val job).bin, Named cfgs val bin
  jobImgs : (call.val call.ref).isBaseImage = true → args.command.buildImg = true →
    ∀ job ∈ (call.val call.ref).jobs, (call.val job).imgHardcoded = false → ∀ img ∈ (call.val job).img,
      Named cfgs val img

theorem noDiskPath_inj {p q : String} (h : noDiskPath p = noDiskPath q) : p = q := by
  have := congrArg String.toList h
  simp only [noDiskPath, String.toList_append] at this
  exact String.toList_inj.mp (List.append_cancel_right this)

theorem offersNoDisk_iff {bin : String} :
    OffersNoDisk env cfgs val bin ↔ ∃ t ∈ offered env cfgs val, t.name = noDiskPath bin := by
  constructor
  · rintro (⟨c, hc, hnodisk, hbin⟩ | ⟨t, ht, -, hname⟩)
    · exact ⟨c.nodiskTask bin, task_offered hc (r := .nodisk) (by simp [Config.task, hnodisk, hbin]), rfl⟩
    · exact ⟨t, ht, hname⟩
  · rintro ⟨t, ht, hname⟩
    by_cases hr : t.role = .nodisk
    · obtain ⟨v, hv, htask⟩ := mem_offered.mp ht
      obtain ⟨c, rfl, hc⟩ := Visit.mem_tasks htask (by simp [hr])
      rw [hr] at hc
      obtain ⟨hnodisk, hc⟩ := Option.ite_none_right_eq_some.mp hc
      obtain ⟨bin', hbin, rfl⟩ := Option.map_eq_some_iff.mp hc
      exact .inl ⟨c, mem_visited.mpr hv, hnodisk, by rw [hbin, noDiskPath_inj hname]⟩
    · exact .inr ⟨t, ht, hr, hname⟩

theorem mem_targets {buildBin buildImg : Bool} {ts : List String} {n : String}
    (h : targets buildBin buildImg val r = .ok ts) :
    n ∈ ts ↔ (buildBin = true ∧ (n ∈ (val r).requestedBins ∨ ∃ job ∈ (val r).jobs, n ∈ (val job).requestedJobBins)) ∨
      buildImg = true ∧ ∃ q ∈ r :: (val r).jobs, n ∈ (val q).requestedImgs := by
  unfold targets at h
  split at h
  · cases h
  · obtain rfl := Except.ok.inj h
    cases buildBin <;> cases buildImg <;> simp [or_assoc]

theorem visited_of_ref {q : Ref} (hr : r ∈ cfgs.vals) (hbase : (val r).isBaseImage = false)
    (hq : q ∈ r :: (val r).jobs) : val q ∈ visited cfgs val := by
  refine mem_visited.mpr (List.mem_flatMap.mpr ⟨r, hr, ?_⟩)
  rw [visitsOf_workload hbase]
  rcases List.mem_cons.mp hq with rfl | hq
  · exact List.mem_cons_self
  · exact List.mem_cons_of_mem _ (List.mem_map.mpr ⟨q, hq, rfl⟩)

theorem Config.mem_requestedBins {c : Config} {n : String} :
    n ∈ c.requestedBins ↔ ∃ bin ∈ c.bin, (if c.nodisk then noDiskPath bin else bin) = n := by
  simp [Config.requestedBins]

theorem Config.mem_requestedJobBins {c : Config} {n : String} :
    n ∈ c.requestedJobBins ↔ ∃ bin ∈ c.bin, n = bin ∨ c.nodisk = true ∧ n = noDiskPath bin := by
  simp [Config.requestedJobBins]

theorem Config.mem_requestedImgs {c : Config} {n : String} :
    n ∈ c.requestedImgs ↔ c.imgHardcoded = false ∧ c.img = some n := by
  cases h : c.imgHardcoded <;> simp [Config.requestedImgs, h]

section
variable {call : Call} {ts : List String} (hval : ∀ v ∈ visits cfgs val, v.Complete) (hts : args.targets call = .ok ts)
include hval hts

theorem served_of_offered (h : ∀ n ∈ ts, ∃ t ∈ offered env cfgs val, t.name = n) : Served env cfgs val args call := by
  have hnamed : ∀ n ∈ ts, Named cfgs val n := fun n hn =>
    (named_iff (buildDepGraph_eq_ok.mpr ⟨hval, rfl⟩)).mpr (h n hn)
  refine ⟨fun hbuild c hc hnodisk bin hbin => offersNoDisk_iff.mpr (h _ ?_), fun _ hbuild hnodisk bin hbin => ?_,
    fun _ hbuild job hmem bin hbin => ?_, fun _ hbuild job hmem hcoded img himg => ?_⟩
  · obtain ⟨q, hq, rfl⟩ := List.mem_map.mp hc
    refine (mem_targets hts).mpr (.inl ⟨hbuild, ?_⟩)
    rcases List.mem_cons.mp hq with rfl | hq
    · exact .inl (Config.mem_requestedBins.mpr ⟨bin, hbin, if_pos hnodisk⟩)
    · exact .inr ⟨q, hq, Config.mem_requestedJobBins.mpr ⟨bin, hbin, .inr ⟨hnodisk, rfl⟩⟩⟩
  · refine hnamed bin ((mem_targets hts).mpr (.inl ⟨hbuild, .inl ?_⟩))
    exact Config.mem_requestedBins.mpr ⟨bin, hbin, by simp [hnodisk]⟩
  · refine hnamed bin ((mem_targets hts).mpr (.inl ⟨hbuild, .inr ⟨job, hmem, ?_⟩⟩))
    exact Config.mem_requestedJobBins.mpr ⟨bin, hbin, .inl rfl⟩
  · refine hnamed img ((mem_targets hts).mpr (.inr ⟨hbuild, job, List.mem_cons_of_mem _ hmem, ?_⟩))
    exact Config.mem_requestedImgs.mpr ⟨hcoded, himg⟩

variable (hr : call.ref ∈ cfgs.vals) (hsame : SameOptions val call.val)
include hr hsame

theorem Served.offered (h : Served env cfgs val args call) {n : String} (hn : n ∈ ts) :
    ∃ t ∈ offered env cfgs val, t.name = n := by
  have hnamed : Named cfgs val n → ∃ t ∈ FireMarshal.offered env cfgs val, t.name = n :=
    (named_iff (buildDepGraph_eq_ok.mpr ⟨hval, rfl⟩)).mp
  -- Unless the workload is that of a distro, `addDep` is called for it and for its jobs.
  have hown : (call.val call.ref).isBaseImage = false → ∀ q ∈ call.ref :: (call.val call.ref).jobs,
      ∀ role t, (val q).task role = some t → t.name = n → ∃ t ∈ FireMarshal.offered env cfgs val, t.name = n := by
    intro hbase q hq role t ht hname
    rw [hsame.jobs] at hq
    exact ⟨t, task_offered (visited_of_ref hr (by rw [← hsame.isBaseImage, hbase]) hq) ht, hname⟩
  have hnodisk : ∀ q ∈ call.ref :: (call.val call.ref).jobs, args.command.buildBin = true →
      (call.val q).nodisk = true → ∀ bin ∈ (call.val q).bin, noDiskPath bin = n →
        ∃ t ∈ FireMarshal.offered env cfgs val, t.name = n := by
    rintro q hq hbuild hnodisk bin hbin rfl
    exact offersNoDisk_iff.mp (h.nodisk hbuild _ (List.mem_map.mpr ⟨q, hq, rfl⟩) hnodisk bin hbin)
  rcases (mem_targets hts).mp hn with ⟨hbuild, hn | ⟨job, hjob, hn⟩⟩ | ⟨hbuild, q, hq, hn⟩
  · obtain ⟨bin, hbin, hname⟩ := Config.mem_requestedBins.mp hn
    split at hname
    · next hflag => exact hnodisk _ List.mem_cons_self hbuild hflag bin hbin hname
    · next hflag =>
      obtain rfl := hname
      cases hbase : (call.val call.ref).isBaseImage with
      | true => exact hnamed (h.distroBin hbase hbuild (Bool.eq_false_iff.mpr hflag) bin hbin)
      | false =>
        rw [Option.mem_def, hsame.bin] at hbin
        exact hown hbase _ List.mem_cons_self .bin ((val call.ref).binTask bin) (by simp [Config.task, hbin]) rfl
  · obtain ⟨bin, hbin, rfl | ⟨hflag, rfl⟩⟩ := Config.mem_requestedJobBins.mp hn
    · cases hbase : (call.val call.ref).isBaseImage with
      | true => exact hnamed (h.jobBins hbase hbuild job hjob n hbin)
      | false =>
        rw [Option.mem_def, hsame.bin] at hbin
        exact hown hbase job (List.mem_cons_of_mem _ hjob) .bin ((val job).binTask n) (by simp [Config.task, hbin]) rfl
    · exact hnodisk job (List.mem_cons_of_mem _ hjob) hbuild hflag bin hbin rfl
  · obtain ⟨hcoded, himg⟩ := Config.mem_requestedImgs.mp hn
    cases hbase : (call.val call.ref).isBaseImage with
    | true =>
      rcases List.mem_cons.mp hq with rfl | hq
      · -- The image of the distro itself is made by its builder.
        rw [hsame.isBaseImage] at hbase
        rw [hsame.img] at himg
        exact hnamed (.inr ⟨call.ref, hr, (isBaseImage_iff.mp hbase).1, himg⟩)
      · exact hnamed (h.jobImgs hbase hbuild q hq hcoded n himg)
    | false =>
      rw [hsame.img] at himg
      exact hown hbase q hq .img ((val q).imgTask n) (by simp [Config.task, himg]) rfl

end

theorem mem_requests (hval : ∀ v ∈ visits cfgs val, v.Complete) {names : List String} {first : Call} {q : Request}
    (hfirst : (args.calls cfgs names val).head? = some first) :
    q ∈ (runCommands env cfgs args names { val }).1.requests ↔ ∃ call ∈ args.calls cfgs names val,
      args.targets call = .ok q.targets ∧ q.graph = Registry.addAll Task.name [] (offered env cfgs first.val) := by
  have hsame : SameOptions val first.val := (Args.mem_calls (List.mem_of_mem_head? hfirst)).2
  have hg : buildDepGraph env cfgs first.val = .ok _ := buildDepGraph_eq_ok.mpr ⟨hsame.complete.mpr hval, rfl⟩
  rw [requests_of_loader env names { val } fun first' h => by
    rw [Option.some.inj (h.symm.trans hfirst)]
    exact hg]
  simp only [List.nil_append, List.mem_filterMap, Args.request, Option.map_eq_some_iff]
  refine exists_congr fun call => and_congr_right fun _ => ⟨?_, ?_⟩
  · rintro ⟨ts, hts, rfl⟩
    cases htargets : args.targets call with
    | error e => simp [htargets, Except.toOption] at hts
    | ok ts' => exact ⟨by simpa [htargets, Except.toOption] using hts, rfl⟩
  · rintro ⟨hts, hq⟩
    exact ⟨q.targets, by rw [hts]; rfl, by rw [← hq]⟩

/-- Every build asks for tasks of the graph in use just if the graph, which has the options of the first build, serves
    each of them. -/
theorem requests_in_graph_iff (env : BuildEnv) (cfgs : Dict String Ref) (args : Args) (names : List String)
    (val : Ref → Config) :
    (∀ q ∈ (runCommands env cfgs args names { val }).1.requests, ∀ n ∈ q.targets, ∃ t ∈ q.graph, t.name = n) ↔
      ((∀ v ∈ visits cfgs val, v.Complete) → ∀ first ∈ (args.calls cfgs names val).head?,
        ∀ call ∈ args.calls cfgs names val, (args.targets call).isOk = true →
          Served env cfgs first.val args call) := by
  by_cases hval : ∀ v ∈ visits cfgs val, v.Complete
  case neg => simp [requests_of_incomplete names { val } rfl hval, hval]
  cases hfirst : (args.calls cfgs names val).head? with
  | none =>
    have hnone : (runCommands env cfgs args names { val }).1.requests = [] := by
      have hrun := requests_of_loader (g := []) env names { val } fun first h => by
        cases h.symm.trans hfirst
      rw [hrun, List.head?_eq_none_iff.mp hfirst]
      rfl
    simp [hnone]
  | some first =>
    have hsame : ∀ call ∈ args.calls cfgs names val, SameOptions first.val call.val := fun call hcall =>
      (Args.mem_calls (List.mem_of_mem_head? hfirst)).2.symm.trans (Args.mem_calls hcall).2
    have hfirstVal : ∀ v ∈ visits cfgs first.val, v.Complete :=
      (Args.mem_calls (List.mem_of_mem_head? hfirst)).2.complete.mpr hval
    simp only [mem_requests hval hfirst, Option.mem_def, Option.some.injEq, forall_eq']
    constructor
    · intro h _ call hcall hok
      obtain ⟨ts, hts⟩ : ∃ ts, args.targets call = .ok ts := by
        cases hts : args.targets call with
        | error e => simp [hts, Except.isOk, Except.toBool] at hok
        | ok ts => exact ⟨ts, rfl⟩
      refine served_of_offered hfirstVal hts fun n hn => ?_
      exact Registry.exists_key_addAll.mp (h ⟨ts, _⟩ ⟨call, hcall, hts, rfl⟩ n hn)
    · rintro h q ⟨call, hcall, hts, hq⟩ n hn
      rw [hq]
      refine Registry.exists_key_addAll.mpr ?_
      exact (h hval call hcall (by rw [hts]; rfl)).offered hfirstVal hts (Args.mem_calls hcall).1 (hsame call hcall) hn

/-- The build that makes the graph is always served, as every build would be in a process of its own. -/
theorem served_first {call : Call} (hr : call.ref ∈ cfgs.vals) (hbase : (call.val call.ref).isBaseImage = false) :
    Served env cfgs call.val args call := by
  have hnot : (call.val call.ref).isBaseImage ≠ true := by simp [hbase]
  refine ⟨fun _ c hc hnodisk bin hbin => ?_, (absurd · hnot), (absurd · hnot), (absurd · hnot)⟩
  obtain ⟨q, hq, rfl⟩ := List.mem_map.mp hc
  exact .inl ⟨_, visited_of_ref hr hbase hq, hnodisk, hbin⟩

end

/-! ### Two workloads without a disk -/

def twoWorkloads : Ref → Config
  | 0 => sampleDistro
  | r => sampleInit (sampleLinux (if r = 1 then "hello" else "world") none) sampleDistro

/-- `marshal --no-disk build hello world` asks for the binary of the second workload without a disk, which no task
    makes. -/
theorem requests_outside_graph :
    ∃ q ∈ (runCommands sampleEnv [("br", 0), ("hello", 1), ("world", 2)]
        { command := .build false false, noDisk := true } ["hello", "world"] { val := twoWorkloads }).1.requests,
      "/images/world/world-bin-nodisk" ∈ q.targets ∧ ∀ t ∈ q.graph, t.name ≠ "/images/world/world-bin-nodisk" := by
  decide +kernel

end FireMarshal
