import Mathlib.Data.List.Forall2
import FireMarshal.Lib.Acyclic
import FireMarshal.Config.Load
import FireMarshal.Theorems.Config.Pool

/-! Which bases are in the pool once configurations are loaded. -/

namespace FireMarshal

open Pool (Extends)

variable {ω : Type} {env : LoadEnv ω} {m : Marshal ω} {searchPaths : List String} {p q t : Pool ω} {r : Ref}

theorem liftPython_eq_ok {α : Type} {x : Except PyError α} {a : α} : liftPython x = .ok a ↔ x = .ok a := by
  cases x with
  | error e => exact ⟨nofun, nofun⟩
  | ok b => exact ⟨fun h => by cases h; rfl, fun h => by cases h; rfl⟩

/-! ### New objects -/

theorem exists_of_forall₂ {α β : Type} {R : α → β → Prop} {l : List α} {l' : List β} (h : List.Forall₂ R l l') {a : α}
    (ha : a ∈ l) : ∃ b ∈ l', R a b := by
  induction h with
  | nil => cases ha
  | cons hab _ ih =>
    rcases List.mem_cons.mp ha with rfl | ha
    · exact ⟨_, List.mem_cons_self, hab⟩
    · obtain ⟨b, hb, hab⟩ := ih ha
      exact ⟨b, List.mem_cons_of_mem _ hb, hab⟩

namespace Pool

structure Holds (p : Pool ω) (r : Ref) (node : ConfigNode ω) : Prop where
  alloc : r < p.next
  cfg : ∃ distro jobs, p.cfg r = { node.cfg with distro, jobs }
  distAlloc : ∀ d ∈ (p.cfg r).distro, d < p.next
  dist : (p.cfg r).distro.map p.dist = node.distro

structure HoldsAll (p : Pool ω) (r : Ref) (node : ConfigNode ω) (jobs : List (ConfigNode ω)) : Prop
    extends p.Holds r node where
  jobs : ∀ j ∈ (p.cfg r).jobs, ∃ job ∈ jobs, p.Holds j job

section
variable {node : ConfigNode ω} {nodes : List (ConfigNode ω)}

theorem Holds.base (h : p.Holds r node) : (p.cfg r).base = node.cfg.base := by
  obtain ⟨distro, jobs, hcfg⟩ := h.cfg
  rw [hcfg]

theorem Holds.cfgFile (h : p.Holds r node) : (p.cfg r).cfgFile = node.cfg.cfgFile := by
  obtain ⟨distro, jobs, hcfg⟩ := h.cfg
  rw [hcfg]

theorem Holds.name (h : p.Holds r node) : (p.cfg r).name = node.cfg.name := by
  obtain ⟨distro, jobs, hcfg⟩ := h.cfg
  rw [hcfg]

theorem Holds.extend (h : p.Holds r node) (hext : ∀ r, Extends r p q) : q.Holds r node := by
  have hcfg := Extends.cfg_eq hext h.alloc
  refine ⟨Nat.lt_of_lt_of_le h.alloc (hext r).next, by rw [hcfg]; exact h.cfg, fun d hd => ?_, ?_⟩
  · rw [hcfg] at hd
    exact Nat.lt_of_lt_of_le (h.distAlloc d hd) (hext r).next
  · rw [hcfg, ← h.dist]
    refine Option.map_congr fun d hd => ?_
    exact (hext r).dist d (h.distAlloc d hd)

theorem HoldsAll.extend (h : p.HoldsAll r node nodes) (hext : ∀ r, Extends r p q) : q.HoldsAll r node nodes := by
  refine ⟨h.toHolds.extend hext, fun j hj => ?_⟩
  rw [Extends.cfg_eq hext h.alloc] at hj
  obtain ⟨job, hjob, hholds⟩ := h.jobs j hj
  exact ⟨job, hjob, hholds.extend hext⟩

theorem newNode_spec (node : ConfigNode ω) (jobs : List Ref) (p : Pool ω) :
    (∀ r, Extends r p (p.newNode node jobs)) ∧ (p.newNode node jobs).cfgs = p.cfgs ∧
      (p.newNode node jobs).Holds (p.newNode node jobs).last node ∧
      ((p.newNode node jobs).cfg (p.newNode node jobs).last).jobs = jobs := by
  unfold newNode
  split
  · next hnone =>
    have hcfg : (p.newCfg { node.cfg with distro := none, jobs }).cfg p.next = { node.cfg with distro := none, jobs } := by
      simp [newCfg, setCfg]
    refine ⟨fun r => newCfg_extends r _ p, rfl, ⟨Nat.lt_succ_self _, ⟨none, jobs, hcfg⟩, fun d hd => ?_, ?_⟩, ?_⟩
    · rw [show last _ = p.next from rfl, hcfg] at hd
      cases hd
    · rw [show last _ = p.next from rfl, hcfg, hnone, Option.map_none]
    · rw [show last _ = p.next from rfl, hcfg]
  · next d hsome =>
    have hcfg : ((p.newDist d).newCfg { node.cfg with distro := some p.next, jobs }).cfg (p.next + 1) =
        { node.cfg with distro := some p.next, jobs } := by simp [newCfg, newDist, setCfg]
    refine ⟨fun r => (newDist_extends r _ p).trans (newCfg_extends r _ _), rfl,
      ⟨Nat.lt_succ_self _, ⟨some p.next, jobs, hcfg⟩, fun d hd => ?_, ?_⟩, ?_⟩
    · rw [show last _ = p.next + 1 from rfl, hcfg] at hd
      cases hd
      exact Nat.lt_succ_of_lt (Nat.lt_succ_self _)
    · rw [show last _ = p.next + 1 from rfl, hcfg, hsome]
      simp [newCfg, newDist, setCfg]
    · rw [show last _ = p.next + 1 from rfl, hcfg]

theorem newJobs_spec (nodes : List (ConfigNode ω)) (p : Pool ω) :
    (∀ r, Extends r p (p.newJobs nodes).2) ∧ (p.newJobs nodes).2.cfgs = p.cfgs ∧
      List.Forall₂ (fun j node => (p.newJobs nodes).2.HoldsAll j node []) (p.newJobs nodes).1 nodes := by
  induction nodes generalizing p with
  | nil => exact ⟨fun r => .refl r p, rfl, .nil⟩
  | cons node nodes ih =>
    obtain ⟨hext, hcfgs, hnode, hnone⟩ := newNode_spec node [] p
    obtain ⟨hrest, hcfgs', hjobs⟩ := ih (p.newNode node [])
    have hall : (p.newNode node []).HoldsAll (p.newNode node []).last node [] :=
      ⟨hnode, fun j hj => by rw [hnone] at hj; cases hj⟩
    exact ⟨fun r => (hext r).trans (hrest r), hcfgs'.trans hcfgs, .cons (hall.extend hrest) hjobs⟩

theorem newConfig_spec (c : Parsed ω) (p : Pool ω) :
    (∀ r, Extends r p (p.newConfig c)) ∧ (p.newConfig c).cfgs = p.cfgs ∧
      (p.newConfig c).HoldsAll (p.newConfig c).last c.main c.jobs.vals ∧
      List.Forall₂ (fun j node => (p.newConfig c).HoldsAll j node [])
        ((p.newConfig c).cfg (p.newConfig c).last).jobs c.jobs.vals := by
  obtain ⟨hjobs, hcfgs, hholds⟩ := newJobs_spec c.jobs.vals p
  obtain ⟨hext, hcfgs', hmain, hrefs⟩ := newNode_spec c.main (p.newJobs c.jobs.vals).1 (p.newJobs c.jobs.vals).2
  have hall : List.Forall₂ (fun j node => (p.newConfig c).HoldsAll j node [])
      ((p.newConfig c).cfg (p.newConfig c).last).jobs c.jobs.vals := by
    rw [show ((p.newConfig c).cfg (p.newConfig c).last).jobs = (p.newJobs c.jobs.vals).1 from hrefs]
    exact hholds.imp fun _ _ h => h.extend hext
  refine ⟨fun r => (hjobs r).trans (hext r), hcfgs'.trans hcfgs, ⟨hmain, fun j hj => ?_⟩, hall⟩
  obtain ⟨node, hmem, h⟩ := exists_of_forall₂ hall hj
  exact ⟨node, hmem, h.toHolds⟩

end

theorem lookup_setKey (p : Pool ω) (name : String) (r : Ref) (k : String) :
    (p.setKey name r).cfgs.lookup k = if k = name then some r else p.cfgs.lookup k := by
  rw [setKey, Dict.lookup_merge]
  by_cases hk : k = name
  · simp [hk]
  · simp [hk, List.lookup_cons, beq_false_of_ne hk]

theorem hasKey_setKey (p : Pool ω) (name : String) (r : Ref) (k : String) :
    (p.setKey name r).cfgs.hasKey k = true ↔ k = name ∨ p.cfgs.hasKey k = true := by
  rw [Dict.hasKey, lookup_setKey]
  by_cases hk : k = name <;> simp [hk, Dict.hasKey]

theorem Holds.setKey {node : ConfigNode ω} (h : p.Holds r node) (name : String) (x : Ref) :
    (p.setKey name x).Holds r node :=
  ⟨h.alloc, h.cfg, h.distAlloc, h.dist⟩

theorem HoldsAll.setKey {node : ConfigNode ω} {nodes : List (ConfigNode ω)} (h : p.HoldsAll r node nodes)
    (name : String) (x : Ref) : (p.setKey name x).HoldsAll r node nodes := by
  refine ⟨h.toHolds.setKey name x, fun j hj => ?_⟩
  obtain ⟨job, hjob, hholds⟩ := h.jobs j hj
  exact ⟨job, hjob, hholds.setKey name x⟩

theorem setKey_extends {name : String} (hnew : p.cfgs.lookup name = none) (r x : Ref) :
    Extends x p (p.setKey name r) where
  next := Nat.le_refl _
  cfg _ _ _ := rfl
  self _ := ⟨_, rfl⟩
  dist _ _ := rfl
  lookup k y hk := by
    rw [lookup_setKey, if_neg, hk]
    rintro rfl
    rw [hnew] at hk
    cases hk

/-- The name of a base is in the pool, or is that of a distro module. -/
def Finds (m : Marshal ω) (p : Pool ω) (base : Option String) : Prop :=
  ∀ b, base = some b → p.cfgs.hasKey b = true ∨ m.distroMods.hasKey b = true

theorem Finds.extend {base : Option String} (h : p.Finds m base) (hext : Extends r p q) : q.Finds m base := by
  intro b hb
  refine (h b hb).imp_left fun hkey => ?_
  obtain ⟨x, hx⟩ := Dict.hasKey_iff.mp hkey
  exact Dict.hasKey_iff.mpr ⟨x, hext.lookup b x hx⟩

end Pool

/-! ### What is loaded -/

section
variable (env : LoadEnv ω) (m : Marshal ω) (searchPaths : List String) (configNames : List ConfigName)

/-- The configurations that are asked for, with the names and the jobs that they have in the pool. Their jobs are
    configurations of their own. -/
inductive Asked : String → ConfigNode ω → List (ConfigNode ω) → Prop where
  | target {cfgName : ConfigName} {path : FilePath} {c : Parsed ω} (hname : cfgName ∈ configNames)
      (hpath : env.locate searchPaths cfgName = .ok (some path)) (hc : env.readConfig m path = .ok c) :
      Asked path.name c.main c.jobs.vals
  | job {cfgName : ConfigName} {path : FilePath} {c : Parsed ω} {node : ConfigNode ω} (hname : cfgName ∈ configNames)
      (hpath : env.locate searchPaths cfgName = .ok (some path)) (hc : env.readConfig m path = .ok c)
      (hnode : node ∈ c.jobs.vals) : Asked node.cfg.name node []

/-- The same for all configurations that may get into the pool. A base is also looked for beside the file of the
    configuration that was asked for; which one that is is open where several have the same base. -/
inductive Loads : Option String → String → ConfigNode ω → List (ConfigNode ω) → Prop where
  | asked {k : String} {node : ConfigNode ω} {jobs : List (ConfigNode ω)}
      (h : Asked env m searchPaths configNames k node jobs) : Loads node.cfg.cfgFile k node jobs
  | base {cfgFile : Option String} {k b : String} {node : ConfigNode ω} {jobs : List (ConfigNode ω)} {path : FilePath}
      {c : Parsed ω} (h : Loads cfgFile k node jobs) (hbase : node.cfg.base = some b)
      (hmod : m.distroMods.hasKey b = false) (hpath : env.findBase searchPaths cfgFile b = .ok (some path))
      (hc : env.readConfig m path = .ok c) : Loads cfgFile b c.main c.jobs.vals

structure LoadsBase (cfgFile : Option String) (b : String) (path : FilePath) (c : Parsed ω) : Prop where
  named : ∃ k node jobs, Loads env m searchPaths configNames cfgFile k node jobs ∧ node.cfg.base = some b
  notDistro : m.distroMods.hasKey b = false
  found : env.findBase searchPaths cfgFile b = .ok (some path)
  read : env.readConfig m path = .ok c

end

variable {configNames : List ConfigName}

theorem LoadsBase.loads {cfgFile : Option String} {b : String} {path : FilePath} {c : Parsed ω}
    (h : LoadsBase env m searchPaths configNames cfgFile b path c) :
    Loads env m searchPaths configNames cfgFile b c.main c.jobs.vals := by
  obtain ⟨k, node, jobs, hloads, hbase⟩ := h.named
  exact .base hloads hbase h.notDistro h.found h.read

/-! ### Bases of a configuration -/

open Pool (Finds)

def AddsBase (env : LoadEnv ω) (m : Marshal ω) (searchPaths : List String) (configNames : List ConfigName)
    (p q : Pool ω) (k : String) (r : Ref) : Prop :=
  p.cfgs.lookup k = none ∧ (∃ cfgFile path c, LoadsBase env m searchPaths configNames cfgFile k path c ∧
    q.HoldsAll r c.main c.jobs.vals) ∧ q.Finds m (q.cfg r).base

theorem AddsBase.extend {k : String} (h : AddsBase env m searchPaths configNames p q k r)
    (hext : ∀ x, Extends x q t) : AddsBase env m searchPaths configNames p t k r := by
  obtain ⟨hnew, ⟨cfgFile, path, c, hbase, hholds⟩, hfinds⟩ := h
  refine ⟨hnew, ⟨cfgFile, path, c, hbase, hholds.extend hext⟩, ?_⟩
  rw [Extends.cfg_eq hext hholds.alloc]
  exact hfinds.extend (hext 0)

theorem AddsBase.of_later {k : String} (h : AddsBase env m searchPaths configNames q t k r)
    (hext : Extends 0 p q) : AddsBase env m searchPaths configNames p t k r := by
  refine ⟨?_, h.2⟩
  cases hk : p.cfgs.lookup k with
  | none => rfl
  | some x => exact absurd (h.1.symm.trans (hext.lookup k x hk)) nofun

theorem enter_spec {b : String} (c : Parsed ω) (hnew : p.cfgs.lookup b = none) :
    (∀ x, Extends x p ((p.newConfig c).setKey b (p.newConfig c).last)) ∧
      ((p.newConfig c).setKey b (p.newConfig c).last).HoldsAll (p.newConfig c).last c.main c.jobs.vals ∧
      ∀ k, ((p.newConfig c).setKey b (p.newConfig c).last).cfgs.lookup k =
        if k = b then some (p.newConfig c).last else p.cfgs.lookup k := by
  obtain ⟨hext, hcfgs, hholds, -⟩ := Pool.newConfig_spec c p
  refine ⟨fun x => (hext x).trans (Pool.setKey_extends (hcfgs ▸ hnew) _ x), hholds.setKey _ _, fun k => ?_⟩
  rw [Pool.lookup_setKey, hcfgs]

theorem loadParents_cases {cfgFile : Option String} {currentName b : String} {n : Nat}
    (h : env.loadParents m searchPaths cfgFile (n + 1) currentName (some b) p = .ok q) :
    q = p ∧ (p.cfgs.hasKey b = true ∨ m.distroMods.hasKey b = true) ∨
    ∃ path c, p.cfgs.lookup b = none ∧ m.distroMods.hasKey b = false ∧
      env.findBase searchPaths cfgFile b = .ok (some path) ∧ env.readConfig m path = .ok c ∧
      env.loadParents m searchPaths cfgFile n b c.main.cfg.base
        ((p.newConfig c).setKey b (p.newConfig c).last) = .ok q := by
  rw [LoadEnv.loadParents] at h
  split at h
  · next hfound =>
    cases h
    exact .inl ⟨rfl, by simpa using hfound⟩
  next hnew =>
  rw [Bool.or_eq_true, not_or, Bool.not_eq_true, Bool.not_eq_true] at hnew
  obtain ⟨path, hpath, h⟩ := Except.bind_ok h
  cases path with
  | none => cases h
  | some path =>
    obtain ⟨c, hc, h⟩ := Except.bind_ok h
    have hbase : ((p.newConfig c).cfg (p.newConfig c).last).base = c.main.cfg.base :=
      (Pool.newConfig_spec c p).2.2.1.base
    exact .inr ⟨path, c, Dict.lookup_of_not_hasKey (by simp [hnew.1]), hnew.2, liftPython_eq_ok.mp hpath,
      liftPython_eq_ok.mp hc, hbase ▸ h⟩

theorem loadParents_extends {cfgFile base : Option String} {currentName : String} {n : Nat}
    (h : env.loadParents m searchPaths cfgFile n currentName base p = .ok q) (x : Ref) : Extends x p q := by
  induction n generalizing currentName base p with
  | zero => cases h
  | succ n ih =>
    cases base with
    | none =>
      cases h
      exact .refl x q
    | some b =>
      rcases loadParents_cases h with ⟨rfl, -⟩ | ⟨path, c, hnew, -, -, -, h⟩
      · exact .refl x q
      · exact ((enter_spec c hnew).1 x).trans (ih h)

/-- The loop loads the base, and for every configuration that it loads also the base of that. -/
theorem loadParents_spec {cfgFile base : Option String} {currentName : String} {n : Nat}
    (hfrom : ∀ b, base = some b → ∃ k node jobs,
      Loads env m searchPaths configNames cfgFile k node jobs ∧ node.cfg.base = some b)
    (h : env.loadParents m searchPaths cfgFile n currentName base p = .ok q) :
    q.Finds m base ∧ ∀ k r, q.cfgs.lookup k = some r →
      p.cfgs.lookup k = some r ∨ AddsBase env m searchPaths configNames p q k r := by
  induction n generalizing currentName base p with
  | zero => cases h
  | succ n ih =>
    cases base with
    | none =>
      cases h
      exact ⟨nofun, fun k r hk => .inl hk⟩
    | some b =>
      rcases loadParents_cases h with ⟨rfl, hfound⟩ | ⟨path, c, hnew, hmod, hpath, hc, h⟩
      · refine ⟨fun b' hb => ?_, fun k r hk => .inl hk⟩
        cases hb
        exact hfound
      have hloads : LoadsBase env m searchPaths configNames cfgFile b path c := ⟨hfrom b rfl, hmod, hpath, hc⟩
      obtain ⟨hext, hholds, hlookup⟩ := enter_spec c hnew
      have hext' := loadParents_extends h
      obtain ⟨hbase, hadded⟩ := ih (fun b' hb' => ⟨b, c.main, c.jobs.vals, hloads.loads, hb'⟩) h
      refine ⟨fun b' hb => .inl ?_, fun k r hk => ?_⟩
      · cases hb
        exact Dict.hasKey_iff.mpr ⟨_, (hext' 0).lookup b _ (by rw [hlookup, if_pos rfl])⟩
      · rcases hadded k r hk with hold | hadds
        · rw [hlookup] at hold
          split at hold
          · next hkb =>
            subst hkb
            cases hold
            have hholds' := hholds.extend hext'
            exact .inr ⟨hnew, ⟨cfgFile, path, c, hloads, hholds'⟩, hholds'.base ▸ hbase⟩
          · exact .inl hold
        · exact .inr (hadds.of_later (hext 0))

theorem loadBases_run {targets : List Ref} {cfgName : String} {n : Nat}
    (hasked : ∀ r ∈ targets, ∃ k node jobs, Asked env m searchPaths configNames k node jobs ∧ p.HoldsAll r node jobs)
    (h : targets.foldlM (env.loadBases m searchPaths n cfgName) p = .ok q) :
    (∀ x, Extends x p q) ∧ (∀ r ∈ targets, q.Finds m (q.cfg r).base) ∧
      ∀ k r, q.cfgs.lookup k = some r →
        p.cfgs.lookup k = some r ∨ AddsBase env m searchPaths configNames p q k r := by
  induction targets generalizing p with
  | nil =>
    cases h
    exact ⟨fun x => .refl x q, nofun, fun k r hk => .inl hk⟩
  | cons target targets ih =>
    obtain ⟨u, hu, h⟩ := Except.foldlM_cons_ok h
    obtain ⟨k, node, jobs, hask, hholds⟩ := hasked target List.mem_cons_self
    have hfrom : ∀ b, (p.cfg target).base = some b → ∃ k node jobs,
        Loads env m searchPaths configNames (p.cfg target).cfgFile k node jobs ∧ node.cfg.base = some b := by
      intro b hb
      rw [hholds.cfgFile]
      exact ⟨k, node, jobs, .asked hask, hholds.base ▸ hb⟩
    have hext := loadParents_extends hu
    obtain ⟨hfinds, hadded⟩ := loadParents_spec hfrom hu
    obtain ⟨hext', hfinds', hadded'⟩ := ih (fun r hr => by
      obtain ⟨k, node, jobs, hask, hholds⟩ := hasked r (List.mem_cons_of_mem _ hr)
      exact ⟨k, node, jobs, hask, hholds.extend hext⟩) h
    refine ⟨fun x => (hext x).trans (hext' x), fun r hr => ?_, fun k r hk => ?_⟩
    · rcases List.mem_cons.mp hr with rfl | hr
      · rw [Extends.cfg_eq hext' (Nat.lt_of_lt_of_le hholds.alloc (hext 0).next), Extends.cfg_eq hext hholds.alloc]
        exact hfinds.extend (hext' 0)
      · exact hfinds' r hr
    · rcases hadded' k r hk with hold | hnew
      · exact (hadded k r hold).imp_right (·.extend hext')
      · exact .inr (hnew.of_later (hext 0))

/-! ### Configurations that are asked for -/

def Pool.Entries (good : String → ConfigNode ω → List (ConfigNode ω) → Prop) (p : Pool ω) : Prop :=
  ∀ e ∈ p.cfgs, ∃ node jobs, good e.1 node jobs ∧ p.HoldsAll e.2 node jobs

section
variable {good : String → ConfigNode ω → List (ConfigNode ω) → Prop}

theorem Pool.Entries.setKey {name : String} {node : ConfigNode ω} {nodes : List (ConfigNode ω)} (h : p.Entries good)
    (hgood : good name node nodes) (hr : p.HoldsAll r node nodes) : (p.setKey name r).Entries good := by
  intro e he
  rcases Dict.mem_merge_singleton he with he | rfl
  · obtain ⟨node', jobs', hgood', he⟩ := h e he
    exact ⟨node', jobs', hgood', he.setKey name r⟩
  · exact ⟨node, nodes, hgood, hr.setKey name r⟩

theorem Pool.Entries.setKeys {jobs : List Ref} (h : p.Entries good)
    (hjobs : ∀ j ∈ jobs, ∃ node, good node.cfg.name node [] ∧ p.HoldsAll j node []) :
    (jobs.foldl (fun q j => q.setKey (q.cfg j).name j) p).Entries good := by
  induction jobs generalizing p with
  | nil => exact h
  | cons j jobs ih =>
    obtain ⟨node, hgood, hj⟩ := hjobs j List.mem_cons_self
    refine ih (h.setKey (hj.name ▸ hgood) hj) fun j' hj' => ?_
    obtain ⟨node', hgood', hj'⟩ := hjobs j' (List.mem_cons_of_mem _ hj')
    exact ⟨node', hgood', hj'.setKey _ j⟩

end

theorem hasKey_setKeys {jobs : List Ref} {k : String} :
    (jobs.foldl (fun q j => q.setKey (q.cfg j).name j) p).cfgs.hasKey k = true ↔
      p.cfgs.hasKey k = true ∨ ∃ j ∈ jobs, k = (p.cfg j).name := by
  induction jobs generalizing p with
  | nil => simp
  | cons j jobs ih =>
    rw [List.foldl_cons, ih, Pool.hasKey_setKey, or_comm (a := k = _), or_assoc]
    simp only [List.mem_cons, exists_eq_or_imp]
    rfl

theorem loadExplicit_eq_ok {cfgName : ConfigName} {s : String × Pool ω}
    (h : env.loadExplicit m searchPaths p cfgName = .ok s) :
    ∃ path c, env.locate searchPaths cfgName = .ok (some path) ∧ env.readConfig m path = .ok c ∧
      s = (path.name, ((p.newConfig c).cfg (p.newConfig c).last).jobs.foldl (fun q j => q.setKey (q.cfg j).name j)
        ((p.newConfig c).setKey path.name (p.newConfig c).last)) := by
  obtain ⟨path, hpath, h⟩ := Except.bind_ok h
  cases path with
  | none => cases h
  | some path =>
    obtain ⟨c, hc, h⟩ := Except.bind_ok h
    cases h
    exact ⟨path, c, liftPython_eq_ok.mp hpath, liftPython_eq_ok.mp hc, rfl⟩

theorem loadExplicit_entries {cfgName : ConfigName} {s : String × Pool ω} (hname : cfgName ∈ configNames)
    (hp : p.Entries (Asked env m searchPaths configNames)) (h : env.loadExplicit m searchPaths p cfgName = .ok s) :
    s.2.Entries (Asked env m searchPaths configNames) ∧ (∀ k, p.cfgs.hasKey k = true → s.2.cfgs.hasKey k = true) ∧
      ∀ k node jobs, Asked env m searchPaths [cfgName] k node jobs → s.2.cfgs.hasKey k = true := by
  obtain ⟨path, c, hpath, hc, rfl⟩ := loadExplicit_eq_ok h
  obtain ⟨hext, hcfgs, hmain, hjobs⟩ := Pool.newConfig_spec c p
  have hset : ∀ k, ((p.newConfig c).setKey path.name (p.newConfig c).last).cfgs.hasKey k = true ↔
      k = path.name ∨ p.cfgs.hasKey k = true := by
    intro k
    rw [Pool.hasKey_setKey, hcfgs]
  refine ⟨?_, fun k hk => hasKey_setKeys.mpr (.inl ((hset k).mpr (.inr hk))), fun k node jobs hasked => ?_⟩
  · have hentries : (p.newConfig c).Entries (Asked env m searchPaths configNames) := by
      intro e he
      rw [hcfgs] at he
      obtain ⟨node, jobs, hnode, hholds⟩ := hp e he
      exact ⟨node, jobs, hnode, hholds.extend hext⟩
    refine (hentries.setKey (.target hname hpath hc) hmain).setKeys fun j hj => ?_
    obtain ⟨node, hnode, hholds⟩ := exists_of_forall₂ hjobs hj
    exact ⟨node, .job hname hpath hc hnode, hholds.setKey _ _⟩
  · have hread : ∀ {cfgName' path' c'}, cfgName' ∈ [cfgName] → env.locate searchPaths cfgName' = .ok (some path') →
        env.readConfig m path' = .ok c' → path' = path ∧ c' = c := by
      intro cfgName' path' c' hname' hpath' hc'
      obtain rfl := List.mem_singleton.mp hname'
      obtain rfl := Option.some.inj (Except.ok.inj (hpath'.symm.trans hpath))
      exact ⟨rfl, Except.ok.inj (hc'.symm.trans hc)⟩
    cases hasked with
    | target hname' hpath' hc' =>
      obtain ⟨rfl, rfl⟩ := hread hname' hpath' hc'
      exact hasKey_setKeys.mpr (.inl ((hset _).mpr (.inl rfl)))
    | job hname' hpath' hc' hnode =>
      obtain ⟨rfl, rfl⟩ := hread hname' hpath' hc'
      obtain ⟨j, hj, hholds⟩ := exists_of_forall₂ (List.Forall₂.flip hjobs) hnode
      exact hasKey_setKeys.mpr (.inr ⟨j, hj, hholds.name.symm⟩)

theorem loadExplicits_entries {names : List ConfigName} {s t : String × Pool ω}
    (hnames : ∀ cfgName ∈ names, cfgName ∈ configNames) (hs : s.2.Entries (Asked env m searchPaths configNames))
    (h : names.foldlM (fun s cfgName => env.loadExplicit m searchPaths s.2 cfgName) s = .ok t) :
    t.2.Entries (Asked env m searchPaths configNames) ∧ (∀ k, s.2.cfgs.hasKey k = true → t.2.cfgs.hasKey k = true) ∧
      ∀ cfgName ∈ names, ∀ k node jobs, Asked env m searchPaths [cfgName] k node jobs → t.2.cfgs.hasKey k = true := by
  induction names generalizing s with
  | nil =>
    cases h
    exact ⟨hs, fun _ hk => hk, nofun⟩
  | cons cfgName names ih =>
    obtain ⟨u, hu, h⟩ := Except.foldlM_cons_ok h
    obtain ⟨hentries, hkept, hnew⟩ := loadExplicit_entries (hnames cfgName List.mem_cons_self) hs hu
    obtain ⟨hentries', hkept', hnew'⟩ := ih (fun x hx => hnames x (List.mem_cons_of_mem _ hx)) hentries h
    refine ⟨hentries', fun k hk => hkept' k (hkept k hk), List.forall_mem_cons.mpr ⟨fun k node jobs hk => ?_, hnew'⟩⟩
    exact hkept' k (hnew k node jobs hk)

theorem loadExplicit_run [Inhabited ω] {s : String × Pool ω}
    (h : configNames.foldlM (fun s cfgName => env.loadExplicit m searchPaths s.2 cfgName) ("", .empty) = .ok s) :
    s.2.Entries (Asked env m searchPaths configNames) ∧
      ∀ k node jobs, Asked env m searchPaths configNames k node jobs → s.2.cfgs.hasKey k = true := by
  obtain ⟨hentries, -, hkeys⟩ := loadExplicits_entries (fun _ hx => hx) (fun e he => by cases he) h
  refine ⟨hentries, fun k node jobs hasked => ?_⟩
  cases hasked with
  | target hname hpath hc => exact hkeys _ hname _ _ _ (.target List.mem_cons_self hpath hc)
  | job hname hpath hc hnode => exact hkeys _ hname _ _ _ (.job List.mem_cons_self hpath hc hnode)

theorem loadConfigs_read [Inhabited ω] {n : Nat} (h : env.loadConfigs m searchPaths n configNames = .ok p)
    {cfgName : ConfigName} (hname : cfgName ∈ configNames) :
    ∃ path c, env.locate searchPaths cfgName = .ok (some path) ∧ env.readConfig m path = .ok c := by
  obtain ⟨s, hs, -⟩ := Except.bind_ok h
  obtain ⟨s, u, hu⟩ := Except.foldlM_mem_ok hs hname
  obtain ⟨path, c, hpath, hc, -⟩ := loadExplicit_eq_ok hu
  exact ⟨path, c, hpath, hc⟩

/-- What is in the pool after loading: what was asked for, and the bases of that which have other names. The base of
    every configuration in the pool is in the pool too, or is the name of a distro module. -/
theorem loadConfigs_spec [Inhabited ω] {n : Nat} (h : env.loadConfigs m searchPaths n configNames = .ok p) :
    (∀ k node jobs, Asked env m searchPaths configNames k node jobs → p.cfgs.hasKey k = true) ∧
    ∀ k r, p.cfgs.lookup k = some r → p.Finds m (p.cfg r).base ∧
      ((∃ node jobs, Asked env m searchPaths configNames k node jobs ∧ p.HoldsAll r node jobs) ∨
        (∀ node jobs, ¬ Asked env m searchPaths configNames k node jobs) ∧
        ∃ cfgFile path c, LoadsBase env m searchPaths configNames cfgFile k path c ∧
          p.HoldsAll r c.main c.jobs.vals) := by
  obtain ⟨s, hs, h⟩ := Except.bind_ok h
  obtain ⟨hentries, hkeys⟩ := loadExplicit_run hs
  have hasked : ∀ r ∈ s.2.cfgs.vals, ∃ k node jobs, Asked env m searchPaths configNames k node jobs ∧
      s.2.HoldsAll r node jobs := by
    intro r hr
    obtain ⟨e, he, rfl⟩ := List.mem_map.mp hr
    exact ⟨e.1, hentries e he⟩
  obtain ⟨hext, hfinds, hadded⟩ := loadBases_run hasked h
  refine ⟨fun k node jobs hk => ?_, fun k r hk => ?_⟩
  · obtain ⟨x, hx⟩ := Dict.hasKey_iff.mp (hkeys k node jobs hk)
    exact Dict.hasKey_iff.mpr ⟨x, (hext 0).lookup k x hx⟩
  rcases hadded k r hk with hold | ⟨hnew, hbase, hfound⟩
  · obtain ⟨node, jobs, hask, hholds⟩ := hentries (k, r) (Dict.mem_of_lookup hold)
    exact ⟨hfinds r (Dict.mem_vals_of_lookup hold), .inl ⟨node, jobs, hask, hholds.extend hext⟩⟩
  · refine ⟨hfound, .inr ⟨fun node jobs hask => ?_, hbase⟩⟩
    have hkey := hkeys k node jobs hask
    rw [Dict.hasKey, hnew] at hkey
    cases hkey

/-! ### Bases that can be located -/

/-- The bases that are named from `base` on, by the files in its chain and by the jobs in these; `cfgFile` is the file
    of the configuration that was asked for. -/
inductive Names (env : LoadEnv ω) (m : Marshal ω) (searchPaths : List String) (cfgFile base : Option String) :
    String → Prop where
  | here {b : String} (hbase : base = some b) : Names env m searchPaths cfgFile base b
  | above {b b' : String} {path : FilePath} {c : Parsed ω} {node : ConfigNode ω}
      (hb : Names env m searchPaths cfgFile base b)
      (hpath : env.findBase searchPaths cfgFile b = .ok (some path)) (hc : env.readConfig m path = .ok c)
      (hnode : node ∈ c.main :: c.jobs.vals) (hbase : node.cfg.base = some b') : Names env m searchPaths cfgFile base b'

def Located (env : LoadEnv ω) (m : Marshal ω) (searchPaths : List String) (cfgFile base : Option String) : Prop :=
  ∀ b, Names env m searchPaths cfgFile base b →
    m.distroMods.hasKey b = true ∨ ∃ path, env.findBase searchPaths cfgFile b = .ok (some path)

theorem Located.above {cfgFile : Option String} {b : String} {path : FilePath} {c : Parsed ω}
    (h : Located env m searchPaths cfgFile (some b)) (hpath : env.findBase searchPaths cfgFile b = .ok (some path))
    (hc : env.readConfig m path = .ok c) : Located env m searchPaths cfgFile c.main.cfg.base := by
  intro b' hb'
  refine h b' ?_
  induction hb' with
  | here hbase => exact .above (.here rfl) hpath hc List.mem_cons_self hbase
  | above _ hpath' hc' hnode hbase ih => exact .above ih hpath' hc' hnode hbase

def LoadEnv.listed (env : LoadEnv ω) (dir : String) : List String :=
  match env.iterdir dir with
  | .ok names => names
  | .error _ => []

theorem findConfig_listed {dirs : List String} {b : String} {path : FilePath}
    (h : findConfig env.iterdir b dirs = .ok (some path)) :
    path.name = b ∧ path.dir ∈ dirs ∧ b ∈ env.listed path.dir := by
  induction dirs with
  | nil => cases h
  | cons dir dirs ih =>
    obtain ⟨names, hnames, h⟩ := Except.bind_ok h
    split at h
    · next hb =>
      cases h
      exact ⟨rfl, List.mem_cons_self, by simpa [LoadEnv.listed, hnames] using hb⟩
    · obtain ⟨hname, hdir, hb⟩ := ih h
      exact ⟨hname, List.mem_cons_of_mem _ hdir, hb⟩

def LoadEnv.candidates (env : LoadEnv ω) (searchPaths : List String) (cfgFile : Option String) : List String :=
  (searchPaths ++ cfgFile.toList.map parentDir).flatMap env.listed

theorem findBase_candidates {cfgFile : Option String} {b : String} {path : FilePath}
    (h : env.findBase searchPaths cfgFile b = .ok (some path)) : b ∈ env.candidates searchPaths cfgFile := by
  cases cfgFile with
  | none => cases h
  | some cfgFile =>
    obtain ⟨-, hdir, hb⟩ := findConfig_listed h
    exact List.mem_flatMap.mpr ⟨path.dir, hdir, hb⟩

/-! ### Errors of the loops -/

def LoadError.missingBase : LoadError → Bool
  | .config e => e.opt = some "base"
  | .python _ => false

/-- A run that comes to an end, and not because a base could not be located. -/
def FoundAll {α : Type} : Except (Memo.Failure LoadError) α → Prop
  | .ok _ => True
  | .error .outOfFuel => False
  | .error (.raised e) => e.missingBase = false

section
variable {α β : Type}

theorem FoundAll.bind {x : Except (Memo.Failure LoadError) α} {f : α → Except (Memo.Failure LoadError) β}
    (hx : FoundAll x) (hf : ∀ a, x = .ok a → FoundAll (f a)) : FoundAll (x >>= f) := by
  cases x with
  | error e => cases e <;> exact hx
  | ok a => exact hf a rfl

theorem foundAll_liftPython (x : Except PyError α) : FoundAll (liftPython x) := by
  cases x with
  | error e => rfl
  | ok a => trivial

theorem FoundAll.cases {x : Except (Memo.Failure LoadError) α} (h : FoundAll x) :
    (∃ e, x = .error (.raised e) ∧ e.missingBase = false) ∨ ∃ a, x = .ok a := by
  cases x with
  | ok a => exact .inr ⟨a, rfl⟩
  | error e =>
    cases e with
    | outOfFuel => exact h.elim
    | raised e => exact .inl ⟨e, rfl, h⟩

end

theorem loadExplicit_foundAll (p : Pool ω) (cfgName : ConfigName) :
    FoundAll (env.loadExplicit m searchPaths p cfgName) := by
  refine (foundAll_liftPython _).bind fun path _ => ?_
  cases path with
  | none => rfl
  | some path => exact (foundAll_liftPython _).bind fun _ _ => trivial

theorem loadExplicits_foundAll (configNames : List ConfigName) (s : String × Pool ω) :
    FoundAll (configNames.foldlM (fun s cfgName => env.loadExplicit m searchPaths s.2 cfgName) s) := by
  induction configNames generalizing s with
  | nil => trivial
  | cons cfgName configNames ih =>
    rw [List.foldlM_cons]
    exact (loadExplicit_foundAll _ _).bind fun t _ => ih t

/-- Each round enters a name that can be located and that was not in the pool, so that the number of such names bounds
    the rounds. -/
theorem loadParents_foundAll {cfgFile base : Option String} {currentName : String} {names : List String} {n : Nat}
    (hloc : Located env m searchPaths cfgFile base)
    (hnames : ∀ b path, env.findBase searchPaths cfgFile b = .ok (some path) → b ∈ names)
    (hn : names.countP (fun b => !p.cfgs.hasKey b) < n) :
    FoundAll (env.loadParents m searchPaths cfgFile n currentName base p) := by
  induction n generalizing currentName base p with
  | zero => exact absurd hn (Nat.not_lt_zero _)
  | succ n ih =>
    cases base with
    | none => trivial
    | some b =>
      rw [LoadEnv.loadParents]
      split
      · trivial
      next hnew =>
      rw [Bool.or_eq_true, not_or] at hnew
      obtain ⟨path, hpath⟩ := (hloc b (.here rfl)).resolve_left hnew.2
      refine (foundAll_liftPython _).bind fun path' hpath' => ?_
      obtain rfl : path' = some path := Except.ok.inj ((liftPython_eq_ok.mp hpath').symm.trans hpath)
      refine (foundAll_liftPython _).bind fun c hc => ?_
      obtain ⟨-, hcfgs, hholds, -⟩ := Pool.newConfig_spec c p
      refine ih (hholds.base ▸ hloc.above hpath (liftPython_eq_ok.mp hc)) ?_
      refine Nat.lt_of_lt_of_le (countP_lt_of_mem (fun k hk => ?_) (hnames b path hpath) ?_ ?_) (Nat.le_of_lt_succ hn)
      · rw [Bool.not_eq_true', ← Bool.not_eq_true, Pool.hasKey_setKey, not_or, hcfgs] at hk
        simpa using hk.2
      · simp [(Pool.hasKey_setKey _ _ _ _).mpr (.inl rfl)]
      · simpa using hnew.1

theorem loadBases_foundAll {targets : List Ref} {cfgName : String} {names : List String} {n : Nat}
    (hlt : ∀ r ∈ targets, r < p.next)
    (hloc : ∀ r ∈ targets, Located env m searchPaths (p.cfg r).cfgFile (p.cfg r).base)
    (hnames : ∀ r ∈ targets, env.candidates searchPaths (p.cfg r).cfgFile ⊆ names) (hn : names.length < n) :
    FoundAll (targets.foldlM (env.loadBases m searchPaths n cfgName) p) := by
  induction targets generalizing p with
  | nil => trivial
  | cons target targets ih =>
    rw [List.foldlM_cons]
    have hfirst : FoundAll (env.loadBases m searchPaths n cfgName p target) := by
      refine loadParents_foundAll (hloc target List.mem_cons_self) (fun b path hpath => ?_)
        (Nat.lt_of_le_of_lt List.countP_le_length hn)
      exact hnames target List.mem_cons_self (findBase_candidates hpath)
    refine hfirst.bind fun q hq => ?_
    have hext := loadParents_extends hq
    have hcfg : ∀ r ∈ targets, q.cfg r = p.cfg r := fun r hr => Extends.cfg_eq hext (hlt r (List.mem_cons_of_mem _ hr))
    refine ih (fun r hr => ?_) (fun r hr => ?_) fun r hr => ?_
    · exact Nat.lt_of_lt_of_le (hlt r (List.mem_cons_of_mem _ hr)) (hext 0).next
    · rw [hcfg r hr]
      exact hloc r (List.mem_cons_of_mem _ hr)
    · rw [hcfg r hr]
      exact hnames r (List.mem_cons_of_mem _ hr)

/-- All bases that are named by configurations that were asked for, by their jobs, and so on, can be located. -/
def AllLocated (env : LoadEnv ω) (m : Marshal ω) (searchPaths : List String) (configNames : List ConfigName) : Prop :=
  ∀ cfgName ∈ configNames, ∀ path c, env.locate searchPaths cfgName = .ok (some path) → env.readConfig m path = .ok c →
    ∀ node ∈ c.main :: c.jobs.vals, Located env m searchPaths node.cfg.cfgFile node.cfg.base

theorem AllLocated.asked (h : AllLocated env m searchPaths configNames) {k : String} {node : ConfigNode ω}
    {jobs : List (ConfigNode ω)} (hask : Asked env m searchPaths configNames k node jobs) :
    Located env m searchPaths node.cfg.cfgFile node.cfg.base := by
  cases hask with
  | target hname hpath hc => exact h _ hname _ _ hpath hc _ List.mem_cons_self
  | job hname hpath hc hnode => exact h _ hname _ _ hpath hc _ (List.mem_cons_of_mem _ hnode)

theorem loadConfigs_foundAll [Inhabited ω] {configNames : List ConfigName}
    (h : AllLocated env m searchPaths configNames) :
    ∃ bound, ∀ n, bound < n → FoundAll (env.loadConfigs m searchPaths n configNames) := by
  -- What is loaded first does not depend on the number of rounds.
  rcases (loadExplicits_foundAll configNames ("", (.empty : Pool ω))).cases with ⟨e, he, hbase⟩ | ⟨s, hs⟩
  · refine ⟨0, fun n _ => ?_⟩
    rw [LoadEnv.loadConfigs, he]
    exact hbase
  · have hasked : ∀ r ∈ s.2.cfgs.vals, ∃ node jobs, s.2.HoldsAll r node jobs ∧
        Located env m searchPaths node.cfg.cfgFile node.cfg.base := by
      intro r hr
      obtain ⟨e, he, rfl⟩ := List.mem_map.mp hr
      obtain ⟨node, jobs, hask, hholds⟩ := (loadExplicit_run hs).1 e he
      exact ⟨node, jobs, hholds, h.asked hask⟩
    refine ⟨(s.2.cfgs.vals.flatMap fun r => env.candidates searchPaths (s.2.cfg r).cfgFile).length, fun n hn => ?_⟩
    rw [LoadEnv.loadConfigs, hs]
    refine loadBases_foundAll (fun r hr => ?_) (fun r hr => ?_) (fun r hr => ?_) hn
    · obtain ⟨node, jobs, hholds, -⟩ := hasked r hr
      exact hholds.alloc
    · obtain ⟨node, jobs, hholds, hloc⟩ := hasked r hr
      rwa [hholds.cfgFile, hholds.base]
    · exact fun b hb => List.mem_flatMap.mpr ⟨r, hr, hb⟩

theorem loadParents_mono {cfgFile base : Option String} {currentName : String} {n n' : Nat} (hle : n ≤ n')
    (h : env.loadParents m searchPaths cfgFile n currentName base p = .ok q) :
    env.loadParents m searchPaths cfgFile n' currentName base p = .ok q := by
  induction n generalizing n' currentName base p with
  | zero => cases h
  | succ n ih =>
    cases n' with
    | zero => exact absurd hle (Nat.not_succ_le_zero n)
    | succ n' =>
      cases base with
      | none => exact h
      | some b =>
        rw [LoadEnv.loadParents] at h ⊢
        split at h
        · next hfound => rwa [if_pos hfound]
        next hnew =>
        obtain ⟨path, hpath, h⟩ := Except.bind_ok h
        rw [if_neg hnew, hpath, Except.ok_bind]
        cases path with
        | none => cases h
        | some path =>
          obtain ⟨c, hc, h⟩ := Except.bind_ok h
          simp only [hc, Except.ok_bind]
          exact ih (Nat.le_of_succ_le_succ hle) h

theorem loadConfigs_mono [Inhabited ω] {configNames : List ConfigName} {n n' : Nat} (hle : n ≤ n')
    (h : env.loadConfigs m searchPaths n configNames = .ok p) :
    env.loadConfigs m searchPaths n' configNames = .ok p := by
  obtain ⟨s, hs, h⟩ := Except.bind_ok h
  rw [LoadEnv.loadConfigs, hs, Except.ok_bind]
  exact Except.foldlM_ok_of_step (fun _ _ _ hu => loadParents_mono hle hu) h

/-! ### A check for located bases -/

def LoadEnv.basesAbove (env : LoadEnv ω) (m : Marshal ω) (searchPaths : List String) (cfgFile : Option String)
    (b : String) : List String :=
  match env.findBase searchPaths cfgFile b with
  | .ok (some path) =>
    match env.readConfig m path with
    | .ok c => (c.main :: c.jobs.vals).filterMap (·.cfg.base)
    | .error _ => []
  | _ => []

def LoadEnv.checkLocated (env : LoadEnv ω) (m : Marshal ω) (searchPaths names : List String)
    (cfgFile base : Option String) : Bool :=
  base.all (· ∈ names) && names.all fun b =>
    (m.distroMods.hasKey b || (env.findBase searchPaths cfgFile b).toOption.join.isSome) &&
      (env.basesAbove m searchPaths cfgFile b).all (· ∈ names)

theorem located_of_check {names : List String} {cfgFile base : Option String}
    (h : env.checkLocated m searchPaths names cfgFile base = true) : Located env m searchPaths cfgFile base := by
  simp only [LoadEnv.checkLocated, Bool.and_eq_true, Bool.or_eq_true, List.all_eq_true, decide_eq_true_eq] at h
  obtain ⟨hbase, hnames⟩ := h
  have hmem : ∀ b, Names env m searchPaths cfgFile base b → b ∈ names := by
    intro b hb
    induction hb with
    | here hb => simpa [hb] using hbase
    | @above b b' path c node _ hpath hc hnode hb ih =>
      refine (hnames b ih).2 b' ?_
      simp only [LoadEnv.basesAbove, hpath, hc]
      exact List.mem_filterMap.mpr ⟨node, hnode, hb⟩
  intro b hb
  refine (hnames b (hmem b hb)).1.imp_right fun hfound => ?_
  cases hpath : env.findBase searchPaths cfgFile b with
  | error e => simp [hpath, Except.toOption] at hfound
  | ok path =>
    cases path with
    | none => simp [hpath, Except.toOption] at hfound
    | some path => exact ⟨path, rfl⟩

def LoadEnv.checkAll (env : LoadEnv ω) (m : Marshal ω) (searchPaths names : List String)
    (configNames : List ConfigName) : Bool :=
  configNames.all fun cfgName =>
    match env.locate searchPaths cfgName with
    | .ok (some path) =>
      match env.readConfig m path with
      | .ok c =>
        (c.main :: c.jobs.vals).all fun node => env.checkLocated m searchPaths names node.cfg.cfgFile node.cfg.base
      | .error _ => true
    | _ => true

theorem allLocated_of_check {names : List String} {configNames : List ConfigName}
    (h : env.checkAll m searchPaths names configNames = true) :
    AllLocated env m searchPaths configNames := by
  intro cfgName hname path c hpath hc node hnode
  have hcheck := List.all_eq_true.mp h cfgName hname
  simp only [hpath, hc, List.all_eq_true] at hcheck
  exact located_of_check (hcheck node hnode)

end FireMarshal
