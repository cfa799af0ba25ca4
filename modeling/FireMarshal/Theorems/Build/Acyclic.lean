import FireMarshal.Lib.Acyclic
import FireMarshal.Theorems.Build.Graph

/-! When the task graph has no cycles. Within one configuration there is just one way for its tasks to wait for each
other; between configurations the tasks have to come in some order. -/

namespace FireMarshal

/-- A task depends on another one: by its name, or for a file that it makes. -/
def Task.Names (t u : Task) : Prop :=
  u.name ∈ t.taskDep ∨ u.name ∈ t.calcDep ∨ u ≠ t ∧ ∃ f ∈ t.fileDep, f ∈ u.targets

instance (t u : Task) : Decidable (t.Names u) := inferInstanceAs (Decidable (_ ∨ _ ∨ _))

/-- Both are tasks of one configuration, and in these roles the first one may wait for the second. -/
def SameConfig (cfgs : Dict String Ref) (val : Ref → Config) (t u : Task) : Prop :=
  ∃ c ∈ visited cfgs val, c.task t.role = some t ∧ ∃ r ∈ t.role.before, c.task r = some u

instance (cfgs : Dict String Ref) (val : Ref → Config) (t u : Task) : Decidable (SameConfig cfgs val t u) :=
  inferInstanceAs (Decidable (∃ c ∈ _, _ ∧ ∃ r ∈ _, _))

/-- Of the tasks that are kept, each ranks above those of other configurations that it depends on, and not below those
    of its own. -/
def Ranked (env : BuildEnv) (cfgs : Dict String Ref) (val : Ref → Config) (rank : Task → Nat) : Prop :=
  ∀ t ∈ offered env cfgs val, kept env cfgs val t.name = some t →
    ∀ u ∈ offered env cfgs val, kept env cfgs val u.name = some u → t.Names u →
      rank u < rank t ∨ rank u = rank t ∧ SameConfig cfgs val t u

instance (env : BuildEnv) (cfgs : Dict String Ref) (val : Ref → Config) (rank : Task → Nat) :
    Decidable (Ranked env cfgs val rank) := inferInstanceAs (Decidable (∀ t ∈ _, _ → ∀ u ∈ _, _ → _ → _))

/-- The binary without a disk needs the image, the image needs the script after the binaries, and that script
    needs the binary without a disk. -/
def Config.Loops (env : BuildEnv) (cfgs : Dict String Ref) (val : Ref → Config) (c : Config) : Prop :=
  c.nodisk = true ∧ ∃ bin ∈ c.bin, ∃ img ∈ c.img, ∃ script ∈ c.postBin,
    kept env cfgs val (noDiskPath bin) = some (c.nodiskTask bin) ∧ kept env cfgs val img = some (c.imgTask img) ∧
    kept env cfgs val script.str = some (c.postBinTask bin script)

instance (env : BuildEnv) (cfgs : Dict String Ref) (val : Ref → Config) (c : Config) :
    Decidable (c.Loops env cfgs val) := inferInstanceAs (Decidable (_ ∧ _))

section
variable {env : BuildEnv} {cfgs : Dict String Ref} {val : Ref → Config} {rank : Task → Nat} {g : List Task}
variable {t u : Task} {c : Config}

/-! ### Levels -/

/-- The place of a task among those of its configuration. The binary without a disk comes after the image, if that is
    made for the same configuration. -/
def offset (env : BuildEnv) (cfgs : Dict String Ref) (val : Ref → Config) (t : Task) : Nat :=
  match t.action with
  | .makeBin _ false => 1
  | .makeBin c true => if ∃ img ∈ c.img, kept env cfgs val img = some (c.imgTask img) then 6 else 2
  | .handlePostBin .. => 3
  | .fileDeps .. => 4
  | .makeImage _ => 5
  | _ => 0

theorem offset_le (env : BuildEnv) (cfgs : Dict String Ref) (val : Ref → Config) (t : Task) :
    offset env cfgs val t ≤ 6 := by
  unfold offset
  split <;> (try split) <;> omega

theorem offset_nodisk (env : BuildEnv) (cfgs : Dict String Ref) (val : Ref → Config) (c : Config) (bin : String) :
    offset env cfgs val (c.nodiskTask bin) =
      if ∃ img ∈ c.img, kept env cfgs val img = some (c.imgTask img) then 6 else 2 := rfl

theorem offset_lt (hloop : ¬ c.Loops env cfgs val) {r r' : Role} (ht : c.task r = some t) (hu : c.task r' = some u)
    (hbefore : r' ∈ r.before) (htkept : kept env cfgs val t.name = some t)
    (hukept : kept env cfgs val u.name = some u) : offset env cfgs val u < offset env cfgs val t := by
  cases r with
  | leaf | bin => cases hbefore
  | nodisk =>
    obtain rfl := List.mem_singleton.mp hbefore
    obtain ⟨img, himg, rfl⟩ := Option.map_eq_some_iff.mp hu
    obtain ⟨bin, -, rfl⟩ := Option.map_eq_some_iff.mp (Option.ite_none_right_eq_some.mp ht).2
    rw [offset_nodisk, if_pos ⟨img, himg, hukept⟩]
    exact Nat.lt_succ_self 5
  | postBin =>
    obtain ⟨bin, hbin, ht⟩ := Option.bind_eq_some_iff.mp ht
    obtain ⟨script, hscript, rfl⟩ := Option.map_eq_some_iff.mp ht
    simp only [Role.before, List.mem_cons, List.not_mem_nil, or_false] at hbefore
    rcases hbefore with rfl | rfl
    · obtain ⟨_, -, rfl⟩ := Option.map_eq_some_iff.mp hu
      exact show (1 : Nat) < 3 by decide
    -- The binary without a disk is lower, unless it waits for an image that waits for this script.
    · obtain ⟨hnodisk, hu⟩ := Option.ite_none_right_eq_some.mp hu
      rw [hbin] at hu
      obtain rfl := Option.some.inj hu
      rw [offset_nodisk, if_neg]
      · exact Nat.lt_succ_self 2
      · rintro ⟨img, himg, himgKept⟩
        exact hloop ⟨hnodisk, bin, hbin, img, himg, script, hscript, hukept, himgKept, htkept⟩
  | fileDeps =>
    obtain rfl := Option.some.inj (Option.ite_none_right_eq_some.mp ht).2
    simp only [Role.before, List.mem_cons, List.not_mem_nil, or_false] at hbefore
    rcases hbefore with rfl | rfl
    · obtain ⟨_, -, rfl⟩ := Option.map_eq_some_iff.mp hu
      exact show (1 : Nat) < 4 by decide
    · obtain ⟨_, -, hu⟩ := Option.bind_eq_some_iff.mp hu
      obtain ⟨_, -, rfl⟩ := Option.map_eq_some_iff.mp hu
      exact Nat.lt_succ_self 3
  | img =>
    obtain ⟨_, -, rfl⟩ := Option.map_eq_some_iff.mp ht
    simp only [Role.before, List.mem_cons, List.not_mem_nil, or_false] at hbefore
    rcases hbefore with rfl | rfl | rfl
    · obtain ⟨_, -, rfl⟩ := Option.map_eq_some_iff.mp hu
      exact show (1 : Nat) < 5 by decide
    · obtain ⟨_, -, hu⟩ := Option.bind_eq_some_iff.mp hu
      obtain ⟨_, -, rfl⟩ := Option.map_eq_some_iff.mp hu
      exact show (3 : Nat) < 5 by decide
    · obtain rfl := Option.some.inj (Option.ite_none_right_eq_some.mp hu).2
      exact Nat.lt_succ_self 4

def level (env : BuildEnv) (cfgs : Dict String Ref) (val : Ref → Config) (rank : Task → Nat) (t : Task) : Nat :=
  7 * rank t + offset env cfgs val t

theorem Ranked.level_lt (h : Ranked env cfgs val rank) (hloops : ∀ c ∈ visited cfgs val, ¬ c.Loops env cfgs val)
    (hg : buildDepGraph env cfgs val = .ok g) (hneeds : Needs g t u) :
    level env cfgs val rank u < level env cfgs val rank t := by
  obtain ⟨ht, hu, hnames⟩ := hneeds
  have htkept := (mem_iff_kept hg).mp ht
  have hukept := (mem_iff_kept hg).mp hu
  have hle := offset_le env cfgs val u
  unfold level
  rcases h t (offered_of_mem hg ht) htkept u (offered_of_mem hg hu) hukept hnames with
    hlt | ⟨heq, c, hc, htask, r, hbefore, hutask⟩
  · omega
  · have := offset_lt (hloops c hc) htask hutask hbefore htkept hukept
    omega

/-! ### The loop -/

theorem Config.Loops.cycle (hg : buildDepGraph env cfgs val = .ok g) (h : c.Loops env cfgs val) :
    ∃ t, Relation.TransGen (Needs g) t t := by
  obtain ⟨hnodisk, bin, hbin, img, himg, script, hscript, hnodiskKept, himgKept, hscriptKept⟩ := h
  rw [Option.mem_def] at hbin himg hscript
  have hn := mem_of_kept hg hnodiskKept
  have hi := mem_of_kept hg himgKept
  have hp := mem_of_kept hg hscriptKept
  have hni : Needs g (c.nodiskTask bin) (c.imgTask img) :=
    ⟨hn, hi, .inl (by simp [Config.nodiskTask, Config.imgTask, himg])⟩
  have hip : Needs g (c.imgTask img) (c.postBinTask bin script) :=
    ⟨hi, hp, .inl (by simp [Config.imgTask, Config.postBinTask, Config.imgTaskDeps, hscript])⟩
  have hpn : Needs g (c.postBinTask bin script) (c.nodiskTask bin) :=
    ⟨hp, hn, .inl (by simp [Config.nodiskTask, Config.postBinTask, Config.postBinTaskDeps, hnodisk, hbin])⟩
  exact ⟨_, .head hni (.head hip (.single hpn))⟩

end

/-! ### A workload with a script after its binaries -/

def postBinConfigs (nodisk : Bool) : Ref → Config
  | 0 => sampleDistro
  | _ => { sampleInit (sampleLinux "hello" (some { path := some "/hello/post.sh" })) sampleDistro with nodisk }

def postBinCfgs : Dict String Ref := [("br", 0), ("hello", 1)]

def sharedBinConfigs : Ref → Config
  | 0 => sampleDistro
  | 1 => sharedBase
  | _ => sampleInit { name := "child", outDir := "/images/child" } sharedBase
where
  sharedBase : Config := sampleInit { name := "x", outDir := "/images/x", bin := some "/x/x.riscv" } sampleDistro

def sharedBinCfgs : Dict String Ref := [("child", 2), ("x", 1), ("br", 0)]

end FireMarshal
