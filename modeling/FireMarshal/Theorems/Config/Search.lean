import FireMarshal.Theorems.Config.Load

/-! Which of several files of the same name is loaded. -/

namespace FireMarshal

variable {ω : Type} {env : LoadEnv ω} {m : Marshal ω} {dirs : List String} {configNames : List ConfigName} {p : Pool ω}
  {r : Ref} {k d : String}

def LoadEnv.holding (env : LoadEnv ω) (name : String) (dirs : List String) : List String :=
  dirs.filter fun dir => (env.listed dir).contains name

theorem holding_append (dirs dirs' : List String) :
    env.holding k (dirs ++ dirs') = env.holding k dirs ++ env.holding k dirs' := List.filter_append ..

theorem mem_holding_singleton {dir : String} (h : d ∈ env.holding k [dir]) :
    d = dir ∧ (env.listed dir).contains k = true := by
  obtain ⟨hmem, hheld⟩ := List.mem_filter.mp h
  obtain rfl := List.mem_singleton.mp hmem
  exact ⟨rfl, hheld⟩

theorem findConfig_first {path : FilePath} (h : findConfig env.iterdir k dirs = .ok (some path)) :
    path.name = k ∧ (env.holding k dirs).head? = some path.dir := by
  induction dirs with
  | nil => cases h
  | cons dir dirs ih =>
    obtain ⟨names, hnames, h⟩ := Except.bind_ok h
    have hlisted : env.listed dir = names := by simp [LoadEnv.listed, hnames]
    rw [LoadEnv.holding, List.filter_cons, hlisted]
    split at h
    · next hmem =>
      cases h
      simp [hmem]
    · next hmem =>
      simp only [hmem, if_false, List.contains_iff_mem]
      exact ih h

/-! ### Configurations and their files -/

def Pool.From (env : LoadEnv ω) (m : Marshal ω) (p : Pool ω) (r : Ref) (path : FilePath) : Prop :=
  ∃ c, env.readConfig m path = .ok c ∧ p.Holds r c.main

def NotAsked (env : LoadEnv ω) (m : Marshal ω) (dirs : List String) (configNames : List ConfigName) (k : String) : Prop :=
  ∀ node jobs, ¬ Asked env m dirs configNames k node jobs

/-- No file for the name but that in the directory `d` comes into question: other files of the name are not asked for,
    no job has the name, and where the name is looked for, the first directory with the file is `d`. If none of the
    search paths has the file for a base, it is looked for beside all workloads that need the base. -/
structure Sole (env : LoadEnv ω) (m : Marshal ω) (dirs : List String) (configNames : List ConfigName) (k d : String) :
    Prop where
  paths : ∀ file, .path file ∈ configNames → file.name = k → file.dir = d
  jobs : ∀ cfgName ∈ configNames, ∀ path c, env.locate dirs cfgName = .ok (some path) → env.readConfig m path = .ok c →
    ∀ job ∈ c.jobs.vals, job.cfg.name ≠ k
  first : .name k ∈ configNames ∨ NotAsked env m dirs configNames k → ∀ dir ∈ (env.holding k dirs).head?, dir = d
  beside : NotAsked env m dirs configNames k → env.holding k dirs = [] →
    ∀ cfgFile k' node jobs, Loads env m dirs configNames (some cfgFile) k' node jobs → node.cfg.base = some k →
      (env.listed (parentDir cfgFile)).contains k = true → parentDir cfgFile = d

theorem Sole.asked (h : Sole env m dirs configNames k d) {node : ConfigNode ω} {jobs : List (ConfigNode ω)}
    (hask : Asked env m dirs configNames k node jobs) : ∃ c, env.readConfig m ⟨d, k⟩ = .ok c ∧ c.main = node := by
  cases hask with
  | @target cfgName path c hname hpath hc =>
    obtain ⟨dir, name⟩ := path
    suffices hdir : dir = d from ⟨c, hdir ▸ hc, rfl⟩
    cases cfgName with
    | path file =>
      cases hpath
      exact h.paths _ hname rfl
    | name cfgName =>
      obtain ⟨rfl, hfirst⟩ := findConfig_first hpath
      exact h.first (.inl hname) dir hfirst
  | job hname hpath hc hnode => exact absurd rfl (h.jobs _ hname _ _ hpath hc _ hnode)

theorem Sole.found (h : Sole env m dirs configNames k d) (hnot : NotAsked env m dirs configNames k)
    {cfgFile : Option String} {path : FilePath} {c : Parsed ω} (hbase : LoadsBase env m dirs configNames cfgFile k path c) :
    path = ⟨d, k⟩ := by
  obtain ⟨k', node, jobs, hloads, hnode⟩ := hbase.named
  have hfound := hbase.found
  cases cfgFile with
  | none => cases hfound
  | some cfgFile =>
    obtain ⟨dir, name⟩ := path
    obtain ⟨rfl, hfirst⟩ := findConfig_first hfound
    suffices hdir : dir = d by rw [hdir]
    rw [holding_append, List.head?_append] at hfirst
    cases hdirs : env.holding name dirs with
    | cons dir' rest =>
      rw [hdirs, List.head?_cons, Option.some_or] at hfirst
      cases hfirst
      exact h.first (.inr hnot) dir (Option.mem_def.mpr (congrArg List.head? hdirs))
    | nil =>
      rw [hdirs, List.head?_nil, Option.none_or] at hfirst
      obtain ⟨rfl, hheld⟩ := mem_holding_singleton (List.mem_of_head? hfirst)
      exact h.beside hnot hdirs cfgFile k' node jobs hloads hnode hheld

theorem Sole.loaded [Inhabited ω] (hsole : Sole env m dirs configNames k d) {n : Nat}
    (h : env.loadConfigs m dirs n configNames = .ok p) (hk : p.cfgs.lookup k = some r) : p.From env m r ⟨d, k⟩ := by
  rcases ((loadConfigs_spec h).2 k r hk).2 with ⟨node, jobs, hask, hholds⟩ | ⟨hnot, cfgFile, path, c, hbase, hholds⟩
  · obtain ⟨c, hc, rfl⟩ := hsole.asked hask
    exact ⟨c, hc, hholds.toHolds⟩
  · obtain rfl := hsole.found hnot hbase
    exact ⟨c, hbase.read, hholds.toHolds⟩

def shadowEnv : LoadEnv Unit where
  toInitEnv := { imageDir := "/images", resolve := id, parseSize := fun _ => .ok 0, int := fun _ => .ok 0 }
  iterdir dir :=
    .ok (if dir = "/board/base-workloads" then ["br-base.json"]
      else if dir = "/wl" then ["br-base.json", "own.yaml", "own-base.yaml"]
      else if dir = "/cwd" then ["br-base.json", "tool.yaml"] else [])
  load file :=
    .ok { main := { raw :=
      { name := "x"
        base := if file.name = "own.yaml" then some "own-base.yaml"
          else if file.name = "own-base.yaml" then some "br-base.json" else none } } }
  initOpts _ _ _ opts := .ok opts

def noModules : Marshal Unit := ⟨[], "/images"⟩

def shadowDirs : List String := workdirs "/board/base-workloads" [] none "/cwd"

def toolAndOwn : List ConfigName := [.name "tool.yaml", .path ⟨"/wl", "own.yaml"⟩]

theorem shadow_jobs {path : FilePath} {c : Parsed Unit} (hc : shadowEnv.readConfig noModules path = .ok c) :
    c.jobs = [] := by
  obtain ⟨file, hfile, hc⟩ := Except.bind_ok hc
  cases hfile
  obtain ⟨main, -, hc⟩ := Except.bind_ok hc
  cases hc
  rfl

theorem shadow_listed {dir k : String} (h : (shadowEnv.listed dir).contains k = true) (hk : k ≠ "br-base.json") :
    dir = if k = "tool.yaml" then "/cwd" else "/wl" := by
  simp only [LoadEnv.listed, shadowEnv] at h
  split at h
  · simp [hk] at h
  split at h
  · next hdir =>
    have hne : k ≠ "tool.yaml" := by
      rintro rfl
      simp at h
    rw [hdir, if_neg hne]
  split at h
  · next hdir =>
    obtain rfl : k = "tool.yaml" := by simpa [hk] using h
    rw [hdir, if_pos rfl]
  · simp at h

theorem shadow_sole {k : String} (hk : k ≠ "br-base.json") :
    Sole shadowEnv noModules shadowDirs toolAndOwn k (if k = "tool.yaml" then "/cwd" else "/wl") where
  paths file hfile hname := by
    obtain rfl : file = ⟨"/wl", "own.yaml"⟩ := by simpa [toolAndOwn] using hfile
    obtain rfl : "own.yaml" = k := hname
    rfl
  jobs _ _ _ _ _ hc job hjob := by
    rw [shadow_jobs hc] at hjob
    cases hjob
  first _ dir hfirst := shadow_listed (List.mem_filter.mp (List.mem_of_head? hfirst)).2 hk
  beside _ _ _ _ _ _ _ _ hheld := shadow_listed hheld hk

def Pool.fileOf (p : Pool ω) (k : String) : Option String := (p.cfgs.lookup k).bind fun r => (p.cfg r).cfgFile

end FireMarshal
