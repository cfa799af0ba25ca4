import Mathlib.Algebra.Order.BigOperators.Group.List
import Mathlib.Algebra.Order.Group.Nat
import Mathlib.Data.List.Nodup
import FireMarshal.Launch.Launch

/-! Where the files that jobs leave go after a launch: the copies use the directory of the configuration that was
    launched last, whichever job the files are from. -/

namespace FireMarshal

open Raising

theorem eq_of_flatMap_eq {α β : Type} {f g : α → List β} {xs : List α}
    (hle : ∀ x ∈ xs, (g x).length ≤ (f x).length) (h : xs.flatMap f = xs.flatMap g) : ∀ x ∈ xs, f x = g x := by
  induction xs with
  | nil => simp
  | cons x xs ih =>
    obtain ⟨hx, hxs⟩ := List.forall_mem_cons.mp hle
    have hrest : (xs.flatMap g).length ≤ (xs.flatMap f).length := by
      simp only [List.length_flatMap]
      exact List.sum_le_sum hxs
    simp only [List.flatMap_cons] at h
    have hlength := congrArg List.length h
    simp only [List.length_append] at hlength
    obtain ⟨hhead, htail⟩ := List.append_inj h (by omega)
    exact List.forall_mem_cons.mpr ⟨hhead, ih hxs htail⟩

variable {env : LaunchEnv} {baseResDir : String} {spike : Bool} {baseConfig c : Config} {configs : List Config}
  {l m : Launch}

def launched (configs : List Config) : List Config := configs.filter fun c => c.launch = some true

def lastLaunched (configs : List Config) : Option Config := (launched configs).getLast?

namespace Config

def resDir (baseResDir : String) (c : Config) : String := joinPath baseResDir c.name

def outputFiles (c : Config) : List String := c.outputs.getD []

/-- The output files of a configuration, copied to a directory. -/
def copiesTo (dir : String) (c : Config) : List (String × FileSpec) :=
  c.img.toList.flatMap fun img => c.outputFiles.map fun f => (img, ⟨f, dir⟩)

def ownCopies (baseResDir : String) (c : Config) : List (String × FileSpec) :=
  if c.launch = some true then c.copiesTo (c.resDir baseResDir) else []

theorem length_copiesTo (dir dir' : String) (c : Config) : (c.copiesTo dir).length = (c.copiesTo dir').length := by
  simp [copiesTo, List.length_flatMap]

theorem length_ownCopies_le (dir : String) (c : Config) :
    (c.ownCopies baseResDir).length ≤ (c.copiesTo dir).length := by
  unfold ownCopies
  split
  · exact (length_copiesTo _ _ c).le
  · exact Nat.zero_le _

theorem copiesTo_of_nil (h : c.outputFiles = []) (dir : String) : c.copiesTo dir = [] := by simp [copiesTo, h]

theorem copiesTo_eq_nil (himg : c.outputFiles ≠ [] → c.img.isSome) (dir : String) :
    c.copiesTo dir = [] ↔ c.outputFiles = [] := by
  cases h : c.img with
  | none =>
    simp only [h, Option.isSome_none, Bool.false_eq_true, imp_false, not_not] at himg
    simp [copiesTo_of_nil, himg]
  | some img => simp [copiesTo, h]

theorem copiesTo_inj (himg : c.outputFiles ≠ [] → c.img.isSome) {dir dir' : String} :
    c.copiesTo dir = c.copiesTo dir' ↔ c.outputFiles = [] ∨ dir = dir' := by
  cases hfiles : c.outputFiles with
  | nil => simp [copiesTo, hfiles]
  | cons f files =>
    obtain ⟨img, himg⟩ := Option.isSome_iff_exists.mp (himg (by simp [hfiles]))
    simp only [copiesTo, himg, hfiles]
    constructor
    · intro h
      simp at h
      exact .inr h.1
    · rintro (h | rfl)
      · cases h
      · rfl

end Config

/-! ### The first loop -/

theorem startJob_none (h : startJob env baseResDir spike c l = (m, none)) :
    c.launch = some false ∧ m = l ∨
      c.launch = some true ∧ c.resDir baseResDir ∉ l.resDirs ∧ m.runResDir = some (c.resDir baseResDir) ∧
        m.resDirs = l.resDirs ++ [c.resDir baseResDir] ∧ m.copies = l.copies := by
  unfold startJob at h
  split at h
  next => cases h
  next hlaunch =>
    cases h
    exact .inl ⟨hlaunch, rfl⟩
  next hlaunch =>
    simp only at h
    split at h
    · cases h
    · rename_i hnew
      simp only [Bool.or_eq_true, List.contains_iff_mem, not_or] at hnew
      split at h
      · cases h
      · cases h
        exact .inr ⟨hlaunch, hnew.2, rfl, rfl, rfl⟩

structure Started (baseResDir : String) (configs : List Config) (l : Launch) : Prop where
  resDirs : l.resDirs = (launched configs).map (Config.resDir baseResDir)
  nodup : l.resDirs.Nodup
  runResDir : l.runResDir = l.resDirs.getLast?
  copies : l.copies = []

theorem Started.concat {pre : List Config} (hl : Started baseResDir pre l)
    (h : startJob env baseResDir spike c l = (m, none)) : Started baseResDir (pre ++ [c]) m := by
  obtain ⟨hlaunch, rfl⟩ | ⟨hlaunch, hnew, hdir, hdirs, hcopies⟩ := startJob_none h
  · refine ⟨?_, hl.nodup, hl.runResDir, hl.copies⟩
    simp [hl.resDirs, launched, hlaunch]
  · refine ⟨?_, ?_, ?_, hcopies.trans hl.copies⟩
    · simp [hdirs, hl.resDirs, launched, hlaunch]
    · rw [hdirs]
      exact hl.nodup.append (List.nodup_singleton _) (List.disjoint_singleton.mpr hnew)
    · simp [hdir, hdirs]

theorem started_of_each {pre : List Config} (hl : Started baseResDir pre l)
    (h : each (startJob env baseResDir spike) configs l = (m, none)) : Started baseResDir (pre ++ configs) m := by
  induction configs generalizing pre l with
  | nil =>
    cases h
    simpa using hl
  | cons c configs ih =>
    obtain ⟨k, hk, h⟩ := each_cons_none h
    have hrest := ih (hl.concat hk) h
    simpa using hrest

/-! ### The other loops -/

theorem checkUartlog_fst (u : String) (l : Launch) : (checkUartlog env u l).1 = l := by
  unfold checkUartlog
  split
  · rfl
  · split
    · rfl
    · split <;> rfl

theorem each_checkUartlog_fst (us : List String) (l : Launch) : (each (checkUartlog env) us l).1 = l :=
  each_state (P := (· = l)) rfl fun u _ _ hm => (checkUartlog_fst u _).trans hm

theorem outputSpec_ok {runResDir : Option String} {outputs : List String} {files : List FileSpec}
    (h : outputSpec runResDir outputs = .ok files) :
    (outputs ≠ [] → runResDir.isSome) ∧ files = outputs.map fun f => ⟨f, runResDir.getD ""⟩ := by
  cases runResDir with
  | none =>
    cases outputs with
    | nil =>
      cases h
      exact ⟨fun hne => absurd rfl hne, rfl⟩
    | cons f outputs =>
      rw [outputSpec, List.mapM_cons] at h
      cases h
  | some dir =>
    have hmap : outputSpec (some dir) outputs = .ok (outputs.map fun f => ⟨f, dir⟩) := List.mapM_pure
    rw [hmap] at h
    exact ⟨fun _ => rfl, (Except.ok.inj h).symm⟩

theorem copyOutputs_none (h : copyOutputs env c l = (m, none)) :
    (c.outputFiles ≠ [] → l.runResDir.isSome ∧ c.img.isSome) ∧
      m = { l with copies := l.copies ++ c.copiesTo (l.runResDir.getD "") } := by
  unfold copyOutputs at h
  split at h
  next houtputs =>
    cases h
    have hnil : c.outputFiles = [] := by simp [Config.outputFiles, houtputs]
    refine ⟨fun hne => absurd hnil hne, ?_⟩
    rw [Config.copiesTo_of_nil hnil, List.append_nil]
  next outputs houtputs =>
    split at h
    · cases h
    · rename_i files hfiles
      obtain ⟨hdir, rfl⟩ := outputSpec_ok hfiles
      split at h
      · cases h
      · rename_i img himg
        have hm := congrArg Prod.fst h
        simp only at hm
        rw [← hm]
        simp [Config.copiesTo, Config.outputFiles, houtputs, himg, Function.comp_def]
        simpa using hdir

theorem each_copyOutputs_none (h : each (copyOutputs env) configs l = (m, none)) :
    (∀ c ∈ configs, c.outputFiles ≠ [] → l.runResDir.isSome ∧ c.img.isSome) ∧
      m = { l with copies := l.copies ++ configs.flatMap (Config.copiesTo (l.runResDir.getD "")) } := by
  induction configs generalizing l with
  | nil =>
    cases h
    simp
  | cons c configs ih =>
    obtain ⟨k, hk, h⟩ := each_cons_none h
    obtain ⟨hc, rfl⟩ := copyOutputs_none hk
    obtain ⟨hcs, rfl⟩ := ih h
    refine ⟨List.forall_mem_cons.mpr ⟨hc, hcs⟩, ?_⟩
    simp

/-! ### Whole launches -/

def lastResDir (baseResDir : String) (configs : List Config) : Option String :=
  (lastLaunched configs).map (Config.resDir baseResDir)

theorem Started.runResDir_eq (h : Started baseResDir configs l) : l.runResDir = lastResDir baseResDir configs := by
  rw [h.runResDir, h.resDirs, List.getLast?_map]
  rfl

theorem runPostRunHook_copies (baseConfig : Config) (configs : List Config) (l : Launch) :
    (runPostRunHook env baseResDir baseConfig configs l).1.copies = l.copies := by
  unfold runPostRunHook
  split
  · rfl
  · split
    · rfl
    · rfl
    · simp only
      split <;> rfl

theorem startJob_copies (c : Config) (l : Launch) : (startJob env baseResDir spike c l).1.copies = l.copies := by
  unfold startJob
  split
  · rfl
  · rfl
  · simp only
    split
    · rfl
    · split <;> rfl

theorem copyOutputs_state (env : LaunchEnv) (c : Config) (l : Launch) :
    (copyOutputs env c l).1.runResDir = l.runResDir ∧
      ∀ x ∈ (copyOutputs env c l).1.copies, x ∈ l.copies ∨ l.runResDir = some x.2.dst := by
  unfold copyOutputs
  split
  · exact ⟨rfl, fun x hx => .inl hx⟩
  · split
    · exact ⟨rfl, fun x hx => .inl hx⟩
    · rename_i files hfiles
      split
      · exact ⟨rfl, fun x hx => .inl hx⟩
      · refine ⟨rfl, fun x hx => (List.mem_append.mp hx).imp_right fun hx => ?_⟩
        obtain ⟨hdir, rfl⟩ := outputSpec_ok hfiles
        obtain ⟨f, hf, rfl⟩ := List.mem_map.mp hx
        obtain ⟨src, hsrc, rfl⟩ := List.mem_map.mp hf
        obtain ⟨dir, hdir⟩ := Option.isSome_iff_exists.mp (hdir (List.ne_nil_of_mem hsrc))
        simp [hdir]

def Launch.CopiedTo (dir : Option String) (l : Launch) : Prop := ∀ x ∈ l.copies, dir = some x.2.dst

theorem Launch.copiedTo_of_nil {dir : Option String} (h : l.copies = []) : l.CopiedTo dir := by
  intro x hx
  rw [h] at hx
  cases hx

theorem each_copyOutputs_copiedTo (env : LaunchEnv) (configs : List Config) (hl : l.copies = []) :
    (each (copyOutputs env) configs l).1.CopiedTo l.runResDir := by
  have hstep : ∀ c ∈ configs, ∀ m : Launch, m.runResDir = l.runResDir ∧ m.CopiedTo l.runResDir →
      (copyOutputs env c m).1.runResDir = l.runResDir ∧ (copyOutputs env c m).1.CopiedTo l.runResDir := by
    rintro c - m ⟨hm, hcopied⟩
    obtain ⟨hdir, hcopies⟩ := copyOutputs_state env c m
    refine ⟨hdir.trans hm, fun x hx => ?_⟩
    obtain hx | hx := hcopies x hx
    · exact hcopied x hx
    · exact hm.symm.trans hx
  exact (each_state (P := fun m : Launch => m.runResDir = l.runResDir ∧ m.CopiedTo l.runResDir)
    ⟨rfl, Launch.copiedTo_of_nil hl⟩ hstep).2

/-- However far a launch comes, all that it copies goes to the directory of the configuration it launched last. -/
theorem launchConfigs_copiedTo :
    (launchConfigs env baseResDir spike baseConfig configs).1.CopiedTo (lastResDir baseResDir configs) := by
  have hnone : (each (startJob env baseResDir spike) configs {}).1.copies = [] :=
    each_state (P := fun l => l.copies = []) rfl fun c _ l hl => (startJob_copies c l).trans hl
  refine andThen_state (P := Launch.CopiedTo _) (Launch.copiedTo_of_nil hnone) fun l hl => ?_
  have hstarted : Started baseResDir ([] ++ configs) l := started_of_each ⟨rfl, List.nodup_nil, rfl, rfl⟩ hl
  rw [List.nil_append] at hstarted
  have hchecked : (each (checkUartlog env) l.uartlogs l).1.copies = [] := by
    rw [each_checkUartlog_fst, hstarted.copies]
  refine andThen_state (Launch.copiedTo_of_nil hchecked) fun l' hl' => ?_
  obtain rfl : l = l' := by rw [← each_checkUartlog_fst l.uartlogs l, hl']
  have hcopied := each_copyOutputs_copiedTo env configs hstarted.copies
  rw [hstarted.runResDir_eq] at hcopied
  refine andThen_state hcopied fun k hk => ?_
  rw [hk] at hcopied
  intro x hx
  rw [runPostRunHook_copies] at hx
  exact hcopied x hx

structure Returned (baseResDir : String) (configs : List Config) (l : Launch) : Prop where
  nodup : ((launched configs).map (Config.resDir baseResDir)).Nodup
  img : ∀ c ∈ configs, c.outputFiles ≠ [] → c.img.isSome
  copies : l.copies = configs.flatMap (Config.copiesTo ((lastResDir baseResDir configs).getD ""))
  isSome : ∀ c ∈ configs, c.outputFiles ≠ [] → (lastLaunched configs).isSome

theorem returned_of_launchConfigs (h : launchConfigs env baseResDir spike baseConfig configs = (m, none)) :
    Returned baseResDir configs m := by
  obtain ⟨l, hstart, h⟩ := andThen_none.mp h
  obtain ⟨l', hcheck, h⟩ := andThen_none.mp h
  obtain ⟨k, hcopy, h⟩ := andThen_none.mp h
  obtain rfl : l = l' := by rw [← each_checkUartlog_fst l.uartlogs l, hcheck]
  have hstarted : Started baseResDir ([] ++ configs) l := started_of_each ⟨rfl, List.nodup_nil, rfl, rfl⟩ hstart
  rw [List.nil_append] at hstarted
  obtain ⟨hfiles, rfl⟩ := each_copyOutputs_none hcopy
  have hm := congrArg Prod.fst h
  simp only [hstarted.runResDir_eq] at hfiles hm
  refine ⟨hstarted.resDirs ▸ hstarted.nodup, fun c hc hne => (hfiles c hc hne).2, ?_, fun c hc hne => ?_⟩
  · rw [← hm, runPostRunHook_copies, hstarted.copies, List.nil_append]
  · simpa [lastResDir] using (hfiles c hc hne).1

theorem mem_launched : c ∈ launched configs ↔ c ∈ configs ∧ c.launch = some true := by simp [launched]

theorem Returned.copies_iff (h : Returned baseResDir configs l) :
    l.copies = configs.flatMap (Config.ownCopies baseResDir) ↔
      ∀ c ∈ configs, c.outputFiles ≠ [] → lastLaunched configs = some c := by
  rw [h.copies]
  constructor
  · intro heq c hc hne
    have hown := eq_of_flatMap_eq (fun c _ => c.length_ownCopies_le _) heq c hc
    obtain ⟨d, hd⟩ := Option.isSome_iff_exists.mp (h.isSome c hc hne)
    unfold Config.ownCopies at hown
    split at hown
    next hlaunch =>
      obtain hnil | hdir := (Config.copiesTo_inj (h.img c hc)).mp hown
      · exact absurd hnil hne
      · -- Two launched configurations do not share a directory.
        rw [lastResDir, hd] at hdir
        rw [hd, List.inj_on_of_nodup_map h.nodup (List.mem_of_getLast? hd) (mem_launched.mpr ⟨hc, hlaunch⟩) hdir]
    next => exact absurd ((Config.copiesTo_eq_nil (h.img c hc) _).mp hown) hne
  · intro hlast
    refine List.flatMap_congr fun c hc => ?_
    by_cases hnil : c.outputFiles = []
    · unfold Config.ownCopies
      split <;> simp [Config.copiesTo_of_nil hnil]
    · have hc := hlast c hc hnil
      have hlaunch := (mem_launched.mp (List.mem_of_getLast? hc)).2
      simp [lastResDir, hc, Config.ownCopies, hlaunch]

section

variable {val : Ref → Config} {r : Ref} {jobs : Option (List String)} {refs : List Ref} {runName : String}

theorem launchConfigs_of_launchWorkload (hselect : selectConfigs env val r jobs = .ok refs)
    (h : launchWorkload env runName val r jobs spike = (l, none)) :
    launchConfigs env (joinPath env.resDir runName) spike (val r) (refs.map val) = (l, none) := by
  unfold launchWorkload at h
  rw [hselect] at h
  split at h
  · cases h
  · split at h
    · cases h
    · exact h

/-- A launch that returns has made a directory for each configuration that it launched, but has put the output files
    of every configuration where they belong only if all of them are from the configuration it launched last. -/
theorem outputs_own_iff (hselect : selectConfigs env val r jobs = .ok refs)
    (h : launchWorkload env runName val r jobs spike = (l, none)) :
    ((launched (refs.map val)).map (Config.resDir (joinPath env.resDir runName))).Nodup ∧
      (l.copies = (refs.map val).flatMap (Config.ownCopies (joinPath env.resDir runName)) ↔
        ∀ c ∈ refs.map val, c.outputFiles ≠ [] → lastLaunched (refs.map val) = some c) := by
  have hreturned := returned_of_launchConfigs (launchConfigs_of_launchWorkload hselect h)
  exact ⟨hreturned.nodup, hreturned.copies_iff⟩

end

/-! ### Two jobs with outputs -/

def smokeJob (job : String) : Config where
  name := "smoke2-" ++ job
  outDir := "/images/smoke2-" ++ job
  bin := some ("/images/smoke2-" ++ job ++ "/smoke2-" ++ job ++ "-bin")
  img := some ("/images/smoke2-" ++ job ++ "/smoke2-" ++ job ++ ".img")
  outputs := some ["/root/" ++ job ++ "_output", "/root/runOutput"]
  launch := some true

def smokeVal : Ref → Config
  | 1 => smokeJob "j0"
  | 2 => smokeJob "j1"
  | _ => { name := "smoke2", outDir := "/images/smoke2", jobs := [1, 2] }

def quietEnv : LaunchEnv where
  resDir := "/runOutput"
  riscv := none
  isFile _ := false
  pathExists _ := false
  freeTcpPort _ := "10000"
  readlines _ := some ["Script done [COMMAND_EXIT_CODE=\"0\"]"]
  copyImgFiles _ _ := none
  run _ _ := none
  hasJobs r := r == 0

/-- The file that both jobs leave is copied twice to the same place. -/
theorem outputs_overwritten :
    (launchWorkload quietEnv "run" smokeVal 0 (some ["smoke2-j0", "smoke2-j1"]) false).2 = none ∧
    (launchWorkload quietEnv "run" smokeVal 0 (some ["smoke2-j0", "smoke2-j1"]) false).1.copies =
      [("/images/smoke2-j0/smoke2-j0.img", ⟨"/root/j0_output", "/runOutput/run/smoke2-j1"⟩),
        ("/images/smoke2-j0/smoke2-j0.img", ⟨"/root/runOutput", "/runOutput/run/smoke2-j1"⟩),
        ("/images/smoke2-j1/smoke2-j1.img", ⟨"/root/j1_output", "/runOutput/run/smoke2-j1"⟩),
        ("/images/smoke2-j1/smoke2-j1.img", ⟨"/root/runOutput", "/runOutput/run/smoke2-j1"⟩)] := by
  decide +kernel

def lastOutputs : Ref → Config
  | 1 => { smokeJob "j0" with outputs := none }
  | r => smokeVal r

theorem outputs_own_last :
    (launchWorkload quietEnv "run" lastOutputs 0 (some ["smoke2-j0", "smoke2-j1"]) false).1.copies =
      ([1, 2].map lastOutputs).flatMap (Config.ownCopies "/runOutput/run") := by
  have hselect : selectConfigs quietEnv lastOutputs 0 (some ["smoke2-j0", "smoke2-j1"]) = .ok [1, 2] := by
    decide +kernel
  have herror : (launchWorkload quietEnv "run" lastOutputs 0 (some ["smoke2-j0", "smoke2-j1"]) false).2 = none := by
    decide +kernel
  refine (outputs_own_iff hselect (Prod.ext rfl herror)).2.mpr ?_
  decide +kernel

end FireMarshal
