import FireMarshal.Theorems.Launch.Outputs

/-! Which jobs `marshal launch` starts for each of its configuration files. The loop of `main` assigns the names it
    makes for one file to `args.job`, and the next file starts from them. -/

namespace FireMarshal

open Raising

variable {env : LaunchEnv} {setRunName : Nat → String} {cfgs : Dict String Ref} {args : LaunchArgs}
  {val v w : Ref → Config} {cfgName : String} {cfgNames : List String} {r : Ref} {s : LaunchSession} {k : Nat}

/-! ### Names of jobs -/

def qualify (pre : String) (job : Option (List String)) : Option (List String) := job.map fun jobs => jobs.map (pre ++ ·)

theorem qualify_empty (job : Option (List String)) : qualify "" job = job := by simp [qualify]

theorem qualify_qualify (pre pre' : String) (job : Option (List String)) :
    qualify pre (qualify pre' job) = qualify (pre ++ pre') job := by
  cases job with
  | none => rfl
  | some jobs => simp [qualify, String.append_assoc]

theorem nextJob_of_all (hall : args.all = true) (job job' : Option (List String)) :
    LaunchArgs.nextJob env { args with job } val r = LaunchArgs.nextJob env { args with job := job' } val r := by
  simp [LaunchArgs.nextJob, hall]

theorem nextJob_of_not_all (hall : args.all = false) :
    args.nextJob env val r = .ok (qualify ((val r).name ++ "-") args.job) := by
  simp [LaunchArgs.nextJob, hall, qualify]

/-- The file has a configuration, whose jobs can be read if all are asked for. -/
def Launchable (env : LaunchEnv) (cfgs : Dict String Ref) (args : LaunchArgs) (cfgName : String) : Prop :=
  ∃ r, cfgs.lookup cfgName = some r ∧ (args.all = true → env.hasJobs r = true)

theorem exists_nextJob (val : Ref → Config) (hjobs : args.all = true → env.hasJobs r = true) :
    ∃ job, args.nextJob env val r = .ok job := by
  unfold LaunchArgs.nextJob
  split
  next hall =>
    rw [if_pos (hjobs hall)]
    exact ⟨_, rfl⟩
  next => exact ⟨_, rfl⟩

/-! ### Selected configurations -/

/-- The option 'nodisk' is all that the loop changes, so that jobs are found as before. -/
def SameJobs (v w : Ref → Config) : Prop := ∀ q, (v q).name = (w q).name ∧ (v q).jobs = (w q).jobs

theorem sameJobs_mark (args : LaunchArgs) (val : Ref → Config) (r : Ref) : SameJobs (args.mark val r) val := by
  intro q
  unfold LaunchArgs.mark
  split
  · unfold setNoDisk
    split <;> exact ⟨rfl, rfl⟩
  · exact ⟨rfl, rfl⟩

theorem SameJobs.nextJob (h : SameJobs v w) : args.nextJob env v r = args.nextJob env w r := by
  simp [LaunchArgs.nextJob, h _]

theorem SameJobs.selectConfigs (h : SameJobs v w) (jobs : Option (List String)) :
    selectConfigs env v r jobs = selectConfigs env w r jobs := by
  have hget : getJob env v r = getJob env w r := by
    funext j
    simp [getJob, h _]
  cases jobs with
  | none => rfl
  | some jobs => simp only [FireMarshal.selectConfigs, hget]

theorem getJob_name {j : String} {job : Ref} (h : getJob env val r j = .ok job) : (val job).name = j := by
  unfold getJob at h
  split at h
  · split at h
    · cases h
    · rename_i hfind
      cases h
      simpa using List.find?_some hfind
  · cases h

theorem selectConfigs_names {jobs : List String} {refs : List Ref} (h : selectConfigs env val r (some jobs) = .ok refs) :
    refs.map (fun q => (val q).name) = jobs := by
  induction jobs generalizing refs with
  | nil =>
    cases h
    rfl
  | cons j jobs ih =>
    rw [selectConfigs, List.mapM_cons] at h
    obtain ⟨job, hjob, h⟩ := Except.bind_ok h
    obtain ⟨rest, hrest, h⟩ := Except.bind_ok h
    cases h
    simp [getJob_name hjob, ih hrest]

def LacksJob (env : LaunchEnv) (val : Ref → Config) (r : Ref) (j : String) : Prop :=
  env.hasJobs r = false ∨ ∀ job ∈ (val r).jobs, (val job).name ≠ j

theorem getJob_eq_none {j : String} : (getJob env val r j).toOption = none ↔ LacksJob env val r j := by
  unfold getJob LacksJob
  cases hjobs : env.hasJobs r with
  | false => simp [Except.toOption]
  | true =>
    cases hfind : (val r).jobs.find? fun job => (val job).name = j with
    | none => simpa [Except.toOption] using hfind
    | some job =>
      have hname : (val job).name = j := by simpa using List.find?_some hfind
      simpa [Except.toOption] using ⟨job, List.mem_of_find?_eq_some hfind, hname⟩

theorem selectConfigs_eq_none {jobs : List String} :
    (selectConfigs env val r (some jobs)).toOption = none ↔ ∃ j ∈ jobs, LacksJob env val r j := by
  induction jobs with
  | nil => simp [selectConfigs, Except.toOption, pure, Except.pure]
  | cons j jobs ih =>
    rw [selectConfigs] at ih
    rw [selectConfigs, List.mapM_cons, List.exists_mem_cons_iff, ← ih, ← getJob_eq_none]
    cases getJob env val r j with
    | error e => simp [Except.toOption, bind, Except.bind]
    | ok job => cases List.mapM (getJob env val r) jobs <;> simp [Except.toOption, bind, Except.bind, pure, Except.pure]

/-! ### Rounds of the loop -/

structure Round (env : LaunchEnv) (cfgs : Dict String Ref) (cfgName : String) (s : LaunchSession) (r : Ref)
    (call : LaunchCall) (t : LaunchSession) : Prop where
  lookup : cfgs.lookup cfgName = some r
  nextJob : s.args.nextJob env s.val r = .ok call.jobs
  configs : call.configs = (selectConfigs env s.val r call.jobs).toOption
  same : SameJobs t.val s.val
  args : t.args = { s.args with job := call.jobs }
  calls : t.calls = s.calls ++ [call]

theorem launchCommand_round (setRunName : Nat → String) (h : Launchable env cfgs s.args cfgName) :
    ∃ r call t, launchCommand env setRunName cfgs cfgName s = (t, none) ∧ Round env cfgs cfgName s r call t := by
  obtain ⟨r, hr, hjobs⟩ := h
  obtain ⟨job, hjob⟩ := exists_nextJob s.val hjobs
  have hsame := sameJobs_mark s.args s.val r
  simp only [launchCommand, hr, hsame.nextJob, hjob]
  exact ⟨r, _, _, rfl, hr, hjob, by rw [hsame.selectConfigs], hsame, rfl, rfl⟩

theorem launchCommand_exit (setRunName : Nat → String) (h : ¬ Launchable env cfgs s.args cfgName) :
    ∃ t e, launchCommand env setRunName cfgs cfgName s = (t, some e) ∧ t.calls = s.calls := by
  unfold launchCommand
  split
  · exact ⟨s, _, rfl, rfl⟩
  · rename_i r hr
    simp only
    split
    · exact ⟨_, _, rfl, rfl⟩
    · rename_i job hjob
      refine absurd ⟨r, hr, fun hall => ?_⟩ h
      simp only [LaunchArgs.nextJob, hall, if_true] at hjob
      by_contra hnone
      rw [if_neg hnone] at hjob
      cases hjob

theorem calls_isPrefix (env : LaunchEnv) (setRunName : Nat → String) (cfgs : Dict String Ref) (cfgNames : List String)
    (s : LaunchSession) :
    s.calls <+: (launchCommands env setRunName cfgs cfgNames s).1.calls := by
  refine each_state (P := fun t : LaunchSession => s.calls <+: t.calls) (List.prefix_refl _) fun cfgName _ t ht => ?_
  by_cases h : Launchable env cfgs t.args cfgName
  · obtain ⟨r, call, u, hu, hround⟩ := launchCommand_round setRunName h
    rw [hu, hround.calls]
    exact ht.trans (List.prefix_append _ _)
  · obtain ⟨u, e, hu, hcalls⟩ := launchCommand_exit setRunName h
    rw [hu, hcalls]
    exact ht

def launchPrefix (cfgs : Dict String Ref) (val : Ref → Config) : List String → String
  | [] => ""
  | n :: names => launchPrefix cfgs val names ++ (cfgs.lookup n).elim "" fun r => (val r).name ++ "-"

theorem SameJobs.launchPrefix (h : SameJobs v w) (names : List String) :
    launchPrefix cfgs v names = launchPrefix cfgs w names := by
  induction names with
  | nil => rfl
  | cons n names ih => simp only [FireMarshal.launchPrefix, ih, (h _).1]

theorem launchPrefix_eq_empty (val : Ref → Config) {names : List String}
    (h : ∀ n ∈ names, Launchable env cfgs args n) : launchPrefix cfgs val names = "" ↔ names = [] := by
  cases names with
  | nil => simp [launchPrefix]
  | cons n names =>
    obtain ⟨r, hr, -⟩ := h n List.mem_cons_self
    simp [launchPrefix, hr, String.append_eq_empty_iff]

/-- The call for a file, after those for other files. Its jobs are made from those that the earlier rounds left in
    `args.job`. -/
structure KthCall (env : LaunchEnv) (cfgs : Dict String Ref) (s : LaunchSession) (r : Ref) (names : List String)
    (call : LaunchCall) : Prop where
  configs : call.configs = (selectConfigs env s.val r call.jobs).toOption
  nextJob : LaunchArgs.nextJob env { s.args with job := qualify (launchPrefix cfgs s.val names) s.args.job } s.val r =
    .ok call.jobs

theorem Round.kthCall_zero {call : LaunchCall} {t : LaunchSession} (h : Round env cfgs cfgName s r call t) :
    KthCall env cfgs s r [] call := by
  refine ⟨h.configs, ?_⟩
  rw [launchPrefix, qualify_empty]
  exact h.nextJob

theorem Round.kthCall_succ {call call' : LaunchCall} {t : LaunchSession} {q : Ref} {names : List String}
    (h : Round env cfgs cfgName s q call t) (ht : KthCall env cfgs t r names call') :
    KthCall env cfgs s r (cfgName :: names) call' := by
  obtain ⟨hconfigs, hnext⟩ := ht
  rw [h.same.selectConfigs] at hconfigs
  rw [h.same.nextJob, h.args, h.same.launchPrefix] at hnext
  refine ⟨hconfigs, ?_⟩
  rw [← hnext]
  cases hall : s.args.all with
  | true => exact nextJob_of_all hall _ _
  | false =>
    have hjobs := h.nextJob
    rw [nextJob_of_not_all hall] at hjobs
    simp only [← Except.ok.inj hjobs, qualify_qualify, launchPrefix, h.lookup, Option.elim_some]

theorem launchCommands_kth (hk : cfgNames[k]? = some cfgName) :
    (∀ n ∈ cfgNames.take (k + 1), Launchable env cfgs s.args n) ∧
        (∃ r call, cfgs.lookup cfgName = some r ∧ KthCall env cfgs s r (cfgNames.take k) call ∧
          (launchCommands env setRunName cfgs cfgNames s).1.calls[s.calls.length + k]? = some call) ∨
      (¬ ∀ n ∈ cfgNames.take (k + 1), Launchable env cfgs s.args n) ∧
        (launchCommands env setRunName cfgs cfgNames s).1.calls[s.calls.length + k]? = none := by
  induction cfgNames generalizing s k with
  | nil => simp at hk
  | cons n cfgNames ih =>
    by_cases h : Launchable env cfgs s.args n
    · obtain ⟨q, call, t, ht, hround⟩ := launchCommand_round setRunName h
      have hrun : launchCommands env setRunName cfgs (n :: cfgNames) s = launchCommands env setRunName cfgs cfgNames t := by
        rw [launchCommands, each, ht]
        rfl
      rw [hrun]
      cases k with
      | zero =>
        obtain rfl : n = cfgName := by simpa using hk
        refine .inl ⟨by simpa using h, q, call, hround.lookup, hround.kthCall_zero, ?_⟩
        obtain ⟨rest, hrest⟩ := calls_isPrefix env setRunName cfgs cfgNames t
        rw [← hrest, hround.calls]
        simp
      | succ k =>
        have hlaunchable : ∀ n, Launchable env cfgs t.args n ↔ Launchable env cfgs s.args n := by
          simp [Launchable, hround.args]
        have hindex : s.calls.length + (k + 1) = t.calls.length + k := by
          rw [hround.calls, List.length_append, List.length_singleton]
          omega
        rw [hindex]
        obtain ⟨hall, r, call', hr, hcall', hget⟩ | ⟨hnot, hget⟩ := ih (s := t) (k := k) (by simpa using hk)
        · refine .inl ⟨?_, r, call', hr, hround.kthCall_succ hcall', hget⟩
          simpa [hlaunchable, h] using hall
        · refine .inr ⟨?_, hget⟩
          simpa [hlaunchable, h] using hnot
    · obtain ⟨t, e, ht, hcalls⟩ := launchCommand_exit setRunName h
      have hrun : launchCommands env setRunName cfgs (n :: cfgNames) s = (t, some e) := by
        rw [launchCommands, each, ht]
        rfl
      refine .inr ⟨fun hall => h (hall n (by simp)), ?_⟩
      simp [hrun, hcalls]

/-! ### Launches of several files -/

/-- The configurations that are launched for the k-th file; `none` if there is no call for it, or if it does not find
    them all. -/
def launchedJobs (env : LaunchEnv) (setRunName : Nat → String) (cfgs : Dict String Ref) (val : Ref → Config)
    (args : LaunchArgs) (cfgNames : List String) (k : Nat) : Option (List Ref) :=
  (launchCommands env setRunName cfgs cfgNames { val, args }).1.calls[k]?.bind LaunchCall.configs

section

variable (env setRunName cfgs args val)

theorem launchedJobs_reached (hk : cfgNames[k]? = some cfgName)
    (hreached : ∀ n ∈ cfgNames.take (k + 1), Launchable env cfgs args n) :
    ∃ r job, cfgs.lookup cfgName = some r ∧
      LaunchArgs.nextJob env { args with job := qualify (launchPrefix cfgs val (cfgNames.take k)) args.job } val r =
        .ok job ∧
      launchedJobs env setRunName cfgs val args cfgNames k = (selectConfigs env val r job).toOption := by
  obtain ⟨-, r, call, hr, ⟨hconfigs, hnext⟩, hget⟩ | ⟨hnot, -⟩ := launchCommands_kth (s := { val, args }) hk
  · refine ⟨r, call.jobs, hr, hnext, ?_⟩
    rw [List.length_nil, Nat.zero_add] at hget
    rw [launchedJobs, hget, ← hconfigs]
    rfl
  · exact absurd hreached hnot

theorem launchedJobs_not_reached (hk : cfgNames[k]? = some cfgName)
    (hnot : ¬ ∀ n ∈ cfgNames.take (k + 1), Launchable env cfgs args n) :
    launchedJobs env setRunName cfgs val args cfgNames k = none := by
  obtain ⟨hreached, -⟩ | ⟨-, hget⟩ := launchCommands_kth (s := { val, args }) hk
  · exact absurd hreached hnot
  · rw [List.length_nil, Nat.zero_add] at hget
    rw [launchedJobs, hget]
    rfl

end

theorem qualify_inj {name pre : String} {jobs : List String} (hjobs : jobs ≠ [])
    (h : qualify name (qualify pre (some jobs)) = qualify name (some jobs)) : pre = "" := by
  obtain ⟨j, rest, rfl⟩ := List.exists_cons_of_ne_nil hjobs
  simp only [qualify, Option.map_some, List.map_cons, Option.some.injEq, List.cons.injEq] at h
  have hlength := congrArg String.length h.1
  simp only [String.length_append] at hlength
  have hzero : pre.length = 0 := by omega
  simpa using hzero

theorem nextJob_qualify {pre : String}
    (h : args.all = true ∨ args.job = none ∨ args.job = some [] ∨ pre = "") :
    LaunchArgs.nextJob env { args with job := qualify pre args.job } val r = args.nextJob env val r := by
  obtain hall | hjob | hjob | rfl := h
  · exact nextJob_of_all hall _ _
  · simp [LaunchArgs.nextJob, hjob, qualify]
  · simp [LaunchArgs.nextJob, hjob, qualify]
  · rw [qualify_empty]

theorem selectConfigs_qualify {pre : String} {job job' : Option (List String)}
    (hcase : ¬ (args.all = true ∨ args.job = none ∨ args.job = some [] ∨ pre = ""))
    (hjob : LaunchArgs.nextJob env { args with job := qualify pre args.job } val r = .ok job)
    (hjob' : args.nextJob env val r = .ok job')
    (heq : (selectConfigs env val r job).toOption = (selectConfigs env val r job').toOption) :
    (selectConfigs env val r job').toOption = none := by
  simp only [not_or, Bool.not_eq_true] at hcase
  obtain ⟨hall, hsome, hne, hpre⟩ := hcase
  obtain ⟨jobs, hjobs⟩ := Option.ne_none_iff_exists'.mp hsome
  have hall' : ({ args with job := qualify pre args.job } : LaunchArgs).all = false := hall
  rw [nextJob_of_not_all hall'] at hjob
  rw [nextJob_of_not_all hall] at hjob'
  simp only [hjobs] at hne hjob hjob'
  obtain rfl := Except.ok.inj hjob
  obtain rfl := Except.ok.inj hjob'
  cases hrefs : (selectConfigs env val r (qualify ((val r).name ++ "-") (some jobs))).toOption with
  | none => rfl
  | some refs =>
    rw [hrefs] at heq
    have hnames := selectConfigs_names (Except.toOption_eq_some.mp heq)
    have hnames' := selectConfigs_names (Except.toOption_eq_some.mp hrefs)
    have hsame := congrArg some (hnames.symm.trans hnames')
    exact absurd (qualify_inj (fun hnil => hne (congrArg some hnil)) hsame) hpre

/-- Nothing is launched for a file after the others: the loop does not come to it, or a name that it makes of a
    requested job is not that of a job. -/
def Unlaunched (env : LaunchEnv) (cfgs : Dict String Ref) (val : Ref → Config) (args : LaunchArgs) (names : List String)
    (cfgName : String) : Prop :=
  (∃ n ∈ names ++ [cfgName], ¬ Launchable env cfgs args n) ∨
    args.all = false ∧ ∃ jobs ∈ args.job, ∃ j ∈ jobs, ∃ r ∈ cfgs.lookup cfgName,
      LacksJob env val r ((val r).name ++ "-" ++ (launchPrefix cfgs val names ++ j))

theorem launchedJobs_eq_none (setRunName : Nat → String) (hk : cfgNames[k]? = some cfgName) :
    launchedJobs env setRunName cfgs val args cfgNames k = none ↔
      Unlaunched env cfgs val args (cfgNames.take k) cfgName := by
  have htake : cfgNames.take (k + 1) = cfgNames.take k ++ [cfgName] := by rw [List.take_add_one, hk]; rfl
  by_cases hreached : ∀ n ∈ cfgNames.take (k + 1), Launchable env cfgs args n
  case neg =>
    refine iff_of_true (launchedJobs_not_reached env setRunName cfgs args val hk hreached) (.inl ?_)
    rw [htake] at hreached
    push Not at hreached
    exact hreached
  obtain ⟨r, job, hr, hjob, hrun⟩ := launchedJobs_reached env setRunName cfgs args val hk hreached
  have hnone : ¬ ∃ n ∈ cfgNames.take k ++ [cfgName], ¬ Launchable env cfgs args n := by
    rw [← htake]
    push Not
    exact hreached
  rw [hrun, Unlaunched, or_iff_right hnone]
  cases hall : args.all with
  | true =>
    -- All jobs of the workload are found.
    obtain ⟨q, hq, hjobs⟩ := hreached cfgName (by rw [htake]; simp)
    obtain rfl : r = q := Option.some.inj (hr.symm.trans hq)
    simp only [LaunchArgs.nextJob, hall, if_true, hjobs hall, Except.ok.injEq] at hjob
    subst hjob
    rw [selectConfigs_eq_none]
    simpa [LacksJob, hjobs hall] using fun job hjob => ⟨job, hjob, rfl⟩
  | false =>
    have hall' : ({ args with job := qualify (launchPrefix cfgs val (cfgNames.take k)) args.job } : LaunchArgs).all = false :=
      hall
    rw [nextJob_of_not_all hall'] at hjob
    obtain rfl := Except.ok.inj hjob
    cases hjobs : args.job with
    | none => simp [qualify, selectConfigs, Except.toOption]
    | some jobs =>
      rw [qualify, qualify, Option.map_some, Option.map_some, selectConfigs_eq_none]
      simp [hr]

/-- What is launched for a file is what is launched for it alone only for the first file, if no job is named, or if
    nothing is launched in either case. -/
theorem launchedJobs_alone_iff (hk : cfgNames[k]? = some cfgName) :
    launchedJobs env setRunName cfgs val args cfgNames k = launchedJobs env setRunName cfgs val args [cfgName] 0 ↔
      (∀ n ∈ cfgNames.take (k + 1), Launchable env cfgs args n) ∧
          (args.all = true ∨ args.job = none ∨ args.job = some [] ∨ k = 0) ∨
        Unlaunched env cfgs val args (cfgNames.take k) cfgName ∧ Unlaunched env cfgs val args [] cfgName := by
  have hsingle : launchedJobs env setRunName cfgs val args [cfgName] 0 = none ↔
      Unlaunched env cfgs val args ([cfgName].take 0) cfgName := launchedJobs_eq_none setRunName rfl
  rw [List.take_zero] at hsingle
  rw [← launchedJobs_eq_none setRunName hk, ← hsingle]
  by_cases hreached : ∀ n ∈ cfgNames.take (k + 1), Launchable env cfgs args n
  · have hmem : cfgName ∈ cfgNames.take (k + 1) := List.mem_of_getElem? (i := k) (by simpa using hk)
    have halone : ∀ n ∈ [cfgName].take 1, Launchable env cfgs args n := by simpa using hreached cfgName hmem
    obtain ⟨r, job, hr, hjob, hrun⟩ := launchedJobs_reached env setRunName cfgs args val hk hreached
    obtain ⟨q, job', hq, hjob', hrun'⟩ := launchedJobs_reached env setRunName cfgs args val rfl halone
    obtain rfl : r = q := Option.some.inj (hr.symm.trans hq)
    have hpre : launchPrefix cfgs val (cfgNames.take k) = "" ↔ k = 0 := by
      have hshort : ∀ n ∈ cfgNames.take k, Launchable env cfgs args n :=
        fun n hn => hreached n ((List.take_prefix_take_left (Nat.le_succ k)).subset hn)
      rw [launchPrefix_eq_empty val hshort, List.take_eq_nil_iff]
      have hne : cfgNames ≠ [] := by
        rintro rfl
        simp at hk
      simp [hne]
    rw [List.take_zero, launchPrefix, qualify_empty] at hjob'
    rw [hrun, hrun', ← hpre]
    constructor
    · intro heq
      by_cases hcase : args.all = true ∨ args.job = none ∨ args.job = some [] ∨
          launchPrefix cfgs val (cfgNames.take k) = ""
      · exact .inl ⟨hreached, hcase⟩
      · have hnone := selectConfigs_qualify hcase hjob hjob' heq
        exact .inr ⟨heq.trans hnone, hnone⟩
    · rintro (⟨-, hcase⟩ | ⟨hnone, hnone'⟩)
      · rw [nextJob_qualify hcase, hjob'] at hjob
        rw [Except.ok.inj hjob]
      · rw [hnone, hnone']
  · rw [launchedJobs_not_reached env setRunName cfgs args val hk hreached]
    constructor
    · intro heq
      exact .inr ⟨rfl, heq.symm⟩
    · rintro (⟨h, -⟩ | ⟨-, halone⟩)
      · exact absurd h hreached
      · exact halone.symm

/-! ### Two workloads with a job of the same name -/

def pairVal : Ref → Config
  | 0 => { name := "a", outDir := "/images/a", jobs := [1] }
  | 1 => { smokeJob "j" with name := "a-j" }
  | 2 => { name := "b", outDir := "/images/b", jobs := [3] }
  | _ => { smokeJob "j" with name := "b-j" }

def pairCfgs : Dict String Ref := [("a.yaml", 0), ("a-j", 1), ("b.yaml", 2), ("b-j", 3)]

def pairEnv : LaunchEnv := { quietEnv with hasJobs := fun r => r == 0 || r == 2 }

theorem launchedJobs_first :
    launchedJobs pairEnv (fun _ => "run") pairCfgs pairVal { job := some ["j"] } ["a.yaml", "b.yaml"] 0 =
      launchedJobs pairEnv (fun _ => "run") pairCfgs pairVal { job := some ["j"] } ["a.yaml"] 0 := by
  refine (launchedJobs_alone_iff rfl).mpr (.inl ⟨fun n hn => ?_, .inr (.inr (.inr rfl))⟩)
  obtain rfl : n = "a.yaml" := by simpa using hn
  exact ⟨0, rfl, fun _ => rfl⟩

/-- For the second file, the job is looked for under the names of both workloads. -/
theorem launchedJobs_second :
    (launchCommands pairEnv (fun _ => "run") pairCfgs ["a.yaml", "b.yaml"]
        { val := pairVal, args := { job := some ["j"] } }).1.calls.map (·.jobs) = [some ["a-j"], some ["b-a-j"]] ∧
      launchedJobs pairEnv (fun _ => "run") pairCfgs pairVal { job := some ["j"] } ["a.yaml", "b.yaml"] 1 = none ∧
      launchedJobs pairEnv (fun _ => "run") pairCfgs pairVal { job := some ["j"] } ["b.yaml"] 0 = some [3] := by
  decide +kernel

end FireMarshal
