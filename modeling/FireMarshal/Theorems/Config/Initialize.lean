import FireMarshal.Lib.MemoOrder
import FireMarshal.Config.Manager
import FireMarshal.Theorems.Config.Apply

/-! The initialisation of configurations from their bases is a memoised initialisation (`Lib.Memo`), whose run
enters the configurations in the order of `cfgs`. -/

namespace FireMarshal

/-! ### What `applyBase` leaves alone -/

theorem Config.applyBase_refs {wlutilDir : String} {self base v : Config} (h : self.applyBase wlutilDir base = .ok v) :
    v.base = self.base ∧ v.jobs = self.jobs :=
  ⟨(applied_of_applyBase h).base, (applied_of_applyBase h).jobs⟩

namespace ConfigManager

variable {m : ConfigManager} {s₀ s t : Heap} {n : Nat} {r : Ref}

/-! ### The loop as a memoised initialisation -/

/-- The references between the configurations, and what `_initializeFromBase` does with each. -/
def system (m : ConfigManager) (s₀ : Heap) : Memo.System Ref Config PyError where
  up r := (s₀.val r).base.bind fun base => m.cfgs.lookup base
  down r := (s₀.val r).jobs
  combine := Config.applyBase m.wlutilDir
  alone := Config.setLaunch

def SameRefs (s₀ s : Heap) : Prop := ∀ r, (s.val r).base = (s₀.val r).base ∧ (s.val r).jobs = (s₀.val r).jobs

theorem SameRefs.init {M : Memo.System Ref Config PyError} (hM : M = m.system s₀) (h : SameRefs s₀ s)
    (hrun : M.init n r s = .ok t) : SameRefs s₀ t := by
  subst hM
  refine Memo.init_values (P := fun r (v : Config) => v.base = (s₀.val r).base ∧ v.jobs = (s₀.val r).jobs)
    (fun r v w v' hv hv' => ?_) (fun _ _ hv => hv) h hrun
  obtain ⟨hbase, hjobs⟩ := Config.applyBase_refs hv'
  exact ⟨hbase.trans hv.1, hjobs.trans hv.2⟩

theorem SameRefs.initAll {rs : List Ref} (h : SameRefs s₀ s) (hrun : (m.system s₀).initAll n rs s = .ok t) :
    SameRefs s₀ t :=
  Except.foldlM_inv h (fun _ _ _ _ hs hu => hs.init rfl hu) hrun

theorem SameRefs.set {v : Config} (h : SameRefs s₀ s) (hv : v.base = (s.val r).base ∧ v.jobs = (s.val r).jobs) :
    SameRefs s₀ (Memo.St.set s r v) := by
  intro x
  by_cases hx : x = r
  · subst hx
    simp only [Memo.St.set, Function.update_self]
    exact ⟨hv.1.trans (h x).1, hv.2.trans (h x).2⟩
  · simpa only [Memo.St.set, Function.update_of_ne hx] using h x

theorem callApplyBase_eq (m : ConfigManager) (s₀ : Heap) (cfg baseCfg : Ref) :
    m.callApplyBase cfg baseCfg = (m.system s₀).finish cfg baseCfg := by
  funext s
  rw [callApplyBase, Memo.System.finish]
  cases h : (s.val cfg).applyBase m.wlutilDir (s.val baseCfg) <;> simp only [system, h]

/-- `_initializeFromBase` follows the references that the configurations have at the start. -/
theorem initializeFromBase_eq (hbases : ∀ r b, (s₀.val r).base = some b → m.cfgs.hasKey b) (hs : SameRefs s₀ s) :
    m.initializeFromBase n r s = (m.system s₀).init n r s := by
  induction n generalizing r s with
  | zero => rfl
  | succ n ih =>
    have hjobs : ∀ (jobs : List Ref) (s : Heap), SameRefs s₀ s →
        jobs.foldlM (fun s job => m.initializeFromBase n job s) s = (m.system s₀).initAll n jobs s := by
      intro jobs
      induction jobs with
      | nil => exact fun _ _ => rfl
      | cons j jobs ihj =>
        intro s hs
        rw [Memo.System.initAll, List.foldlM_cons, List.foldlM_cons, ih hs]
        cases hj : (m.system s₀).init n j s with
        | error e => rfl
        | ok u => exact ihj u (hs.init rfl hj)
    -- Once the base is brought in, the jobs are those of the start.
    have hrest : ∀ u : Heap, SameRefs s₀ u →
        ((u.mark r).val r).jobs.foldlM (fun s job => m.initializeFromBase n job s) (u.mark r) =
          (m.system s₀).initAll n ((m.system s₀).down r) (u.mark r) := by
      intro u hu
      rw [show ((u.mark r).val r).jobs = (m.system s₀).down r from (hu r).2]
      exact hjobs _ _ hu
    rw [initializeFromBase, Memo.System.init]
    split
    · rfl
    cases hup : (s₀.val r).base with
    | none =>
      have hnone : (m.system s₀).up r = none := by simp [system, hup]
      simp only [(hs r).1, hup, hnone]
      exact hrest _ (hs.set ⟨rfl, rfl⟩)
    | some b =>
      obtain ⟨baseCfg, hcfg⟩ := Option.isSome_iff_exists.mp (hbases r b hup)
      have hsome : (m.system s₀).up r = some baseCfg := by simp [system, hup, hcfg]
      simp only [(hs r).1, hup, hsome, hcfg, ih hs, callApplyBase_eq m s₀]
      refine Except.bind_congr_ok fun u hu => hrest u ?_
      obtain ⟨u', hu', hfin⟩ := Except.bind_ok hu
      have hs' : SameRefs s₀ u' := by
        split at hu'
        · cases hu'
          exact hs
        · exact hs.init rfl hu'
      obtain ⟨v, hv, rfl⟩ := Memo.finish_eq_ok hfin
      exact hs'.set (Config.applyBase_refs hv)

theorem wrapError_eq_ok {α : Type} {cfgName : String} {x : Except (Memo.Failure PyError) α} {a : α} :
    wrapError cfgName x = .ok a ↔ x = .ok a := by
  rcases x with (_ | e) | b
  · simp [wrapError]
  · cases e <;> simp [wrapError]
  · simp [wrapError]

theorem initializeAll_eq_ok (hbases : ∀ r b, (s₀.val r).base = some b → m.cfgs.hasKey b) :
    m.initializeAll n s₀ = .ok t ↔ (m.system s₀).initAll n m.cfgs.vals s₀ = .ok t := by
  have hloop : ∀ (cfgs : Dict String Ref) (s : Heap), SameRefs s₀ s →
      (cfgs.foldlM (fun s c => wrapError c.1 (m.initializeFromBase n c.2 s)) s = .ok t ↔
        (m.system s₀).initAll n cfgs.vals s = .ok t) := by
    intro cfgs
    induction cfgs with
    | nil => exact fun s _ => by simp [Dict.vals, Memo.System.initAll, pure, Except.pure]
    | cons c cfgs ih =>
      intro s hs
      obtain ⟨cfgName, cfg⟩ := c
      constructor
      · intro h
        obtain ⟨u, hu, hrest⟩ := Except.foldlM_cons_ok h
        rw [wrapError_eq_ok, initializeFromBase_eq hbases hs] at hu
        exact (Memo.initAll_cons hu).trans ((ih u (hs.init rfl hu)).mp hrest)
      · intro h
        obtain ⟨u, hu, hrest⟩ := Except.foldlM_cons_ok h
        have hu' : wrapError cfgName (m.initializeFromBase n cfg s) = .ok u := by
          rw [wrapError_eq_ok, initializeFromBase_eq hbases hs]
          exact hu
        simp only [List.foldlM_cons, hu']
        exact (ih u (hs.init rfl hu)).mpr hrest
  exact hloop m.cfgs s₀ fun _ => ⟨rfl, rfl⟩

/-! ### Loaded configurations -/

/-- What loading and forking leave: bases are loaded and acyclic, a job belongs to one configuration, and only
    distros, which have no base and no jobs, are initialised. -/
structure Loaded (m : ConfigManager) (s : Heap) : Prop where
  keys : m.cfgs.keys.Nodup
  bases : ∀ r b, (s.val r).base = some b → m.cfgs.hasKey b
  acyclic : Acyclic fun x y => (m.system s).up x = some y
  jobs : ∀ j r r', j ∈ (s.val r).jobs → j ∈ (s.val r').jobs → r = r'
  finite : ∃ refs : List Ref, (∀ r ∈ m.cfgs.vals, r ∈ refs) ∧ ∀ r, ∀ j ∈ (s.val r).jobs, j ∈ refs
  calls : s.calls = []
  distros : ∀ r, s.done r = true → (s.val r).base = none ∧ (s.val r).jobs = []

theorem up_mem {b : Ref} (h : (m.system s).up r = some b) : b ∈ m.cfgs.vals := by
  obtain ⟨base, -, hlookup⟩ := Option.bind_eq_some_iff.mp h
  obtain ⟨l₁, l₂, hcfgs, -⟩ := List.lookup_eq_some_iff.mp hlookup
  rw [Dict.vals, hcfgs]
  simp

theorem Loaded.grounded (hl : m.Loaded s) : ∃ refs, Memo.Grounded (m.system s) s m.cfgs.vals refs := by
  obtain ⟨refs, hkeys, hjobs⟩ := hl.finite
  refine ⟨refs, ⟨⟨fun r b => up_mem, fun j r r' _ => hl.jobs j r r'⟩, fun x hx => ?_, hl.acyclic, hl.calls,
    fun r hr => ?_, fun r hr => (hl.distros r hr).2⟩⟩
  · obtain ⟨k, hk, hp⟩ := hx
    cases hp with
    | refl => exact hkeys _ hk
    | @tail y z _ he => exact he.elim (fun hup => hkeys _ (up_mem hup)) (hjobs y x)
  · simp [system, (hl.distros r hr).1]

theorem Loaded.system_perm (hl : m.Loaded s) {cfgs : Dict String Ref} (hp : cfgs.Perm m.cfgs) :
    { m with cfgs }.system s = m.system s := by
  simp only [system, Dict.lookup_perm hl.keys hp]

theorem Loaded.initializeAll_eq_ok (hl : m.Loaded s) {cfgs : Dict String Ref} (hp : cfgs.Perm m.cfgs) :
    { m with cfgs }.initializeAll n s = .ok t ↔ (m.system s).initAll n cfgs.vals s = .ok t := by
  rw [ConfigManager.initializeAll_eq_ok, hl.system_perm hp]
  intro r b hb
  rw [Dict.hasKey, Dict.lookup_perm hl.keys hp]
  exact hl.bases r b hb

/-- In every order of the loaded configurations, each is initialised once, from a base with its final options,
    exactly if the run is calm: no configuration is entered that can be reached from its own base. All orders are
    calm exactly if no loaded configuration is reached from its base. -/
theorem initializeAll_iff_calm (hl : m.Loaded s) :
    (∃ V : Ref → Config, ∀ cfgs : Dict String Ref, cfgs.Perm m.cfgs →
      ((∃ n t, { m with cfgs }.initializeAll n s = .ok t ∧
          Memo.Settled (m.system s) m.cfgs.vals t ∧ t.val = V) ↔
        Memo.Calm (m.system s) s cfgs.vals ∧ Memo.Resolvable (m.system s) s m.cfgs.vals)) ∧
    ((∀ cfgs : Dict String Ref, cfgs.Perm m.cfgs → Memo.Calm (m.system s) s cfgs.vals) ↔
      Memo.NoReentry (m.system s) (· ∈ m.cfgs.vals)) := by
  obtain ⟨refs, hg⟩ := hl.grounded
  obtain ⟨V, hV⟩ := Memo.settled_iff_calm hg
  refine ⟨⟨V, fun cfgs hp => ?_⟩, fun hcalm => ?_, fun hno cfgs hp => ?_⟩
  · simp only [hl.initializeAll_eq_ok hp]
    exact hV cfgs.vals (hp.map Prod.snd)
  · refine Memo.noReentry_of_calm hg fun r hr => ?_
    obtain ⟨c, hc, rfl⟩ := List.mem_map.mp hr
    exact ⟨_, hcalm (c :: m.cfgs.erase c) (List.perm_cons_erase hc).symm⟩
  · exact Memo.calm_of_noReentry hg hno (hp.map Prod.snd)

/-! ### A configuration that is entered through a job of its base -/

def reentrant : ConfigManager where
  wlutilDir := "wlutil"
  cfgs := [("c.yaml", 0), ("b.yaml", 1)]

def reentrantHeap : Heap where
  val
    | 0 => { name := "c", base := some "b.yaml", outDir := "c", linux := some { config := some ["c.kfrag"] } }
    | 1 => { name := "b", jobs := [2], outDir := "b", linux := some { config := some ["b.kfrag"], modules := some [] } }
    | 2 => { name := "b-j", base := some "c.yaml", outDir := "b-j" }
    | _ => { name := "", outDir := "" }
  done _ := false
  calls := []

theorem reentrant_up {x y : Ref} (h : (reentrant.system reentrantHeap).up x = some y) :
    x = 0 ∧ y = 1 ∨ x = 2 ∧ y = 0 := by
  match x with
  | 0 => exact .inl ⟨rfl, (Option.some.inj h).symm⟩
  | 1 => cases h
  | 2 => exact .inr ⟨rfl, (Option.some.inj h).symm⟩
  | _ + 3 => cases h

theorem reentrant_jobs {j r : Ref} (h : j ∈ (reentrantHeap.val r).jobs) : r = 1 ∧ j = 2 := by
  match r with
  | 0 | 2 => cases h
  | 1 => exact ⟨rfl, List.mem_singleton.mp h⟩
  | _ + 3 => cases h

theorem reentrant_loaded : reentrant.Loaded reentrantHeap where
  keys := by decide
  bases r b h := by
    match r with
    | 0 | 2 =>
      cases h
      decide
    | 1 => cases h
    | _ + 3 => cases h
  acyclic := by
    refine acyclic_of_lt (fun r => if r = 1 then 0 else r + 1) fun x y h => ?_
    rcases reentrant_up h with ⟨rfl, rfl⟩ | ⟨rfl, rfl⟩ <;> decide
  jobs j r r' h h' := (reentrant_jobs h).1.trans (reentrant_jobs h').1.symm
  finite := by
    refine ⟨[0, 1, 2], by decide, fun r j h => ?_⟩
    rw [(reentrant_jobs h).2]
    decide
  calls := rfl
  distros r h := by cases h

theorem initializeAll_iff_calm_reentrant : reentrant.Loaded reentrantHeap ∧
    ¬ ∀ cfgs : Dict String Ref, cfgs.Perm reentrant.cfgs →
      Memo.Calm (reentrant.system reentrantHeap) reentrantHeap cfgs.vals := by
  refine ⟨reentrant_loaded, fun hcalm => ?_⟩
  have hno := (initializeAll_iff_calm reentrant_loaded).2.mp hcalm
  -- 'b.yaml' leads over its job back to 'c.yaml'.
  exact hno 0 1 (by decide) rfl (.head (.inr (List.mem_singleton_self 2)) (.single (.inl rfl)))

def fragments (x : Except (Memo.Failure WorkloadConfigError) Heap) : Option (List Ref × Option (List String)) :=
  match x with
  | .ok t => some (t.calls.map (·.child), (t.val 0).linux.bind (·.config))
  | .error _ => none

theorem initializeAll_applies_twice : reentrant.Loaded reentrantHeap ∧
    fragments (reentrant.initializeAll 5 reentrantHeap) =
      some ([0, 2, 0], some ["b.kfrag", "b.kfrag", "c.kfrag"]) ∧
    fragments ({ reentrant with cfgs := reentrant.cfgs.reverse }.initializeAll 5 reentrantHeap) =
      some ([0, 2], some ["b.kfrag", "c.kfrag"]) := ⟨reentrant_loaded, by decide, by decide⟩

end ConfigManager
end FireMarshal
