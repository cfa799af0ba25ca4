import FireMarshal.Theorems.Config.Pool

/-! The names of forks, and what a fork keeps of the pool of configurations. -/

namespace FireMarshal

variable {ω : Type} {m : Marshal ω} {keys : List String} {p q : Pool ω}

/-! ### Names -/

def IsID (m : Marshal ω) (distID : Option String) : Prop :=
  ∀ id, distID = some id →
    ∃ name distMod opts, m.distroMods.lookup name = some distMod ∧ distMod.hashOpts opts = some id

theorem isID_hashOpts {name : String} {distMod : DistroModule ω} (hmod : m.distroMods.lookup name = some distMod)
    (opts : ω) : IsID m (distMod.hashOpts opts) :=
  fun _ hid => ⟨name, distMod, opts, hmod, hid⟩

def DistroKey (m : Marshal ω) (name : String) : Prop :=
  ∃ d distID, (m.distroMods.lookup d).isSome ∧ IsID m distID ∧ name = forkName d distID

/-- The name of one of the configurations `keys`, or of a fork of one. -/
inductive ForkKey (m : Marshal ω) (keys : List String) : String → Prop where
  | key {k : String} (h : k ∈ keys) : ForkKey m keys k
  | fork {k id : String} (h : ForkKey m keys k) (hid : IsID m (some id)) : ForkKey m keys (forkName k (some id))

theorem ForkKey.forkName {k : String} {distID : Option String} (h : ForkKey m keys k) (hid : IsID m distID) :
    ForkKey m keys (forkName k distID) := by
  cases distID with
  | none => exact h
  | some id => exact h.fork hid

theorem forkName_inj {k k' id id' : String} (hlen : id.length = id'.length)
    (h : forkName k (some id) = forkName k' (some id')) : k = k' ∧ id = id' := by
  have hlist : k.toList ++ ['.'] ++ id.toList = k'.toList ++ ['.'] ++ id'.toList := by
    simpa [forkName] using congrArg String.toList h
  obtain ⟨hk, hid⟩ := List.append_inj' hlist (by simpa [String.length_toList] using hlen)
  exact ⟨String.toList_injective (List.append_cancel_right hk), String.toList_injective hid⟩

/-- No configuration has a name like that of a distro workload. -/
def Fresh (m : Marshal ω) (keys : List String) : Prop := ∀ name, ForkKey m keys name → ¬ DistroKey m name

def stem (name : String) : List Char := name.toList.takeWhile (· ≠ '.')

theorem stem_forkName (name : String) (distID : Option String) : stem (forkName name distID) = stem name := by
  cases distID with
  | none => rfl
  | some id =>
    have hlist : (forkName name (some id)).toList = name.toList ++ '.' :: id.toList := by simp [forkName]
    rw [stem, stem, hlist, List.takeWhile_append]
    split
    · next hall =>
      rw [List.takeWhile_cons_of_neg (by simp), List.append_nil]
      exact ((List.takeWhile_prefix _).eq_of_length hall).symm
    · rfl

theorem fresh_of_stem (h : ∀ k ∈ keys, ∀ d, (m.distroMods.lookup d).isSome → stem k ≠ stem d) : Fresh m keys := by
  rintro name hname ⟨d, distID, hd, -, rfl⟩
  obtain ⟨k, hk, hstem⟩ : ∃ k ∈ keys, stem (forkName d distID) = stem k := by
    generalize forkName d distID = name at hname
    induction hname with
    | key hk => exact ⟨_, hk, rfl⟩
    | fork _ _ ih =>
      obtain ⟨k, hk, hstem⟩ := ih
      exact ⟨k, hk, (stem_forkName _ _).trans hstem⟩
  exact h k hk d hd (hstem.symm.trans (stem_forkName d distID))

/-! ### Sound pools -/

def Pool.AtRoot (p : Pool ω) (r : Ref) : Prop :=
  (p.cfg r).base = none ∨ ∃ b x, (p.cfg r).base = some b ∧ p.cfgs.lookup b = some x ∧ (p.cfg x).isDistro = true

/-- Distro workloads are where their names say, other names are those of configurations and forks, and a
    configuration whose base is a distro workload sets 'distro'. -/
structure Sound (m : Marshal ω) (keys : List String) (p : Pool ω) : Prop where
  alloc : ∀ k r, p.cfgs.lookup k = some r → r < p.next
  distro : ∀ k r, p.cfgs.lookup k = some r → DistroKey m k → (p.cfg r).isDistro = true
  fork : ∀ k r, p.cfgs.lookup k = some r → ¬ DistroKey m k → ForkKey m keys k ∧ (p.cfg r).isDistro = false
  bases : ∀ k r b, p.cfgs.lookup k = some r → (p.cfg r).base = some b → ∃ x, p.cfgs.lookup b = some x
  rooted : ∀ k r b x, p.cfgs.lookup k = some r → (p.cfg r).isDistro = false → (p.cfg r).base = some b →
    p.cfgs.lookup b = some x → (p.cfg x).isDistro = true → ∃ d, (p.cfg r).distro = some d
  dist : ∀ k r d, p.cfgs.lookup k = some r → (p.cfg r).isDistro = false → (p.cfg r).distro = some d →
    d < p.next ∧ (m.distroMods.lookup (p.dist d).name).isSome

namespace Sound

variable {k : String} {r : Ref}

theorem forkKey (hs : Sound m keys p) (hk : p.cfgs.lookup k = some r) (hr : (p.cfg r).isDistro = false) :
    ForkKey m keys k := by
  refine (hs.fork k r hk fun hd => ?_).1
  rw [hs.distro k r hk hd] at hr
  cases hr

theorem setBase (hs : Sound m keys p) {d x : Ref} {base : String} (hd : (p.cfg r).distro = some d)
    (hbase : p.cfgs.lookup base = some x) : Sound m keys (p.setBase r base) := by
  have hext := Pool.setBase_extends r base p
  have hcfg : ∀ y, (p.setBase r base).cfg y = p.cfg y ∨ y = r ∧ (p.setBase r base).cfg y =
      { p.cfg r with base := some base } := by
    intro y
    by_cases hy : y = r
    · subst hy
      exact .inr ⟨rfl, by simp only [Pool.setBase, Pool.setCfg, Function.update_self]⟩
    · exact .inl (by simp only [Pool.setBase, Pool.setCfg, Function.update_of_ne hy])
  have hdistro : ∀ y, ((p.setBase r base).cfg y).isDistro = (p.cfg y).isDistro := fun y => by
    rcases hcfg y with h | ⟨rfl, h⟩ <;> rw [h]
  refine ⟨hs.alloc, fun k y hk hkey => ?_, fun k y hk hkey => ?_, fun k y b hk hb => ?_,
    fun k y b z hk hy hb hz hzd => ?_, fun k y d' hk hy hd' => ?_⟩
  · rw [hdistro]
    exact hs.distro k y hk hkey
  · rw [hdistro]
    exact hs.fork k y hk hkey
  · rcases hcfg y with h | ⟨rfl, h⟩
    · rw [h] at hb
      exact hs.bases k y b hk hb
    · rw [h] at hb
      cases hb
      exact ⟨x, hbase⟩
  · rcases hcfg y with h | ⟨rfl, h⟩
    · rw [hdistro] at hy hzd
      rw [h] at hb ⊢
      exact hs.rooted k y b z hk hy hb hz hzd
    · rw [h]
      exact ⟨d, hd⟩
  · rw [hdistro] at hy
    refine hs.dist k y d' hk hy ?_
    rcases hcfg y with h | ⟨rfl, h⟩ <;> rw [h] at hd' <;> exact hd'

theorem enter (hs : Sound m keys p) {name : String} {x : Ref} (hext : ∀ r, Pool.Extends r p q)
    (hcfgs : q.cfgs = p.cfgs ++ [(name, x)]) (hnew : p.cfgs.lookup name = none) (hle : p.next ≤ x)
    (hlt : x < q.next)
    (hcase : DistroKey m name ∧ (q.cfg x).isDistro = true ∧ (q.cfg x).base = none ∨
      ¬ DistroKey m name ∧ ForkKey m keys name ∧ (q.cfg x).isDistro = false ∧
        (∀ b, (q.cfg x).base = some b → ∃ y, p.cfgs.lookup b = some y) ∧
        ∃ d, (q.cfg x).distro = some d ∧ d < q.next ∧ (m.distroMods.lookup (q.dist d).name).isSome) :
    Sound m keys q := by
  have hlookup : ∀ k y, q.cfgs.lookup k = some y → p.cfgs.lookup k = some y ∨ k = name ∧ y = x := by
    intro k y h
    rw [hcfgs] at h
    exact Dict.lookup_concat h
  have hcfg : ∀ k y, p.cfgs.lookup k = some y → q.cfg y = p.cfg y := fun k y h =>
    (hext x).cfg y (hs.alloc k y h) (Nat.ne_of_lt (Nat.lt_of_lt_of_le (hs.alloc k y h) hle))
  refine ⟨fun k y h => ?_, fun k y h hkey => ?_, fun k y h hkey => ?_, fun k y b h hb => ?_,
    fun k y b z h hy hb hz hzd => ?_, fun k y d h hy hd => ?_⟩
  · rcases hlookup k y h with h | ⟨rfl, rfl⟩
    · exact Nat.lt_of_lt_of_le (hs.alloc k y h) (hext x).next
    · exact hlt
  · rcases hlookup k y h with h | ⟨rfl, rfl⟩
    · rw [hcfg k y h]
      exact hs.distro k y h hkey
    · exact hcase.elim (fun h => h.2.1) (fun h => absurd hkey h.1)
  · rcases hlookup k y h with h | ⟨rfl, rfl⟩
    · rw [hcfg k y h]
      exact hs.fork k y h hkey
    · exact hcase.elim (fun h => absurd h.1 hkey) (fun h => ⟨h.2.1, h.2.2.1⟩)
  · have hold : ∃ z, p.cfgs.lookup b = some z := by
      rcases hlookup k y h with h | ⟨rfl, rfl⟩
      · exact hs.bases k y b h (hcfg k y h ▸ hb)
      · rcases hcase with hc | hc
        · rw [hc.2.2] at hb
          cases hb
        · exact hc.2.2.2.1 b hb
    obtain ⟨z, hz⟩ := hold
    exact ⟨z, (hext x).lookup b z hz⟩
  · rcases hlookup k y h with h | ⟨rfl, rfl⟩
    · rw [hcfg k y h] at hy hb ⊢
      -- The base was there before, so the name still stands for the same object.
      obtain ⟨z', hz'⟩ := hs.bases k y b h hb
      obtain rfl : z' = z := Option.some.inj (((hext x).lookup b z' hz').symm.trans hz)
      exact hs.rooted k y b z' h hy hb hz' (hcfg b z' hz' ▸ hzd)
    · rcases hcase with hc | ⟨-, -, -, -, d, hd, -⟩
      · rw [hc.2.1] at hy
        cases hy
      · exact ⟨d, hd⟩
  · rcases hlookup k y h with h | ⟨rfl, rfl⟩
    · rw [hcfg k y h] at hy hd
      obtain ⟨hdlt, hmod⟩ := hs.dist k y d h hy hd
      rw [(hext x).dist d hdlt]
      exact ⟨Nat.lt_of_lt_of_le hdlt (hext x).next, hmod⟩
    · rcases hcase with hc | ⟨-, -, -, -, d', hd', hdlt, hmod⟩
      · rw [hc.2.1] at hy
        cases hy
      · rw [hd] at hd'
        cases hd'
        exact ⟨hdlt, hmod⟩

end Sound

/-! ### The dictionaries in use -/

def Pool.HasDist (p : Pool ω) (d : Ref) : Prop :=
  ∃ k x, p.cfgs.lookup k = some x ∧ (p.cfg x).isDistro = false ∧ (p.cfg x).distro = some d

theorem hasDist_setBase {r d : Ref} {base : String} (h : (p.setBase r base).HasDist d) : p.HasDist d := by
  obtain ⟨k, x, hk, hx, hd⟩ := h
  refine ⟨k, x, hk, ?_⟩
  by_cases hr : x = r
  · subst hr
    simp only [Pool.setBase, Pool.setCfg, Function.update_self] at hx hd
    exact ⟨hx, hd⟩
  · simp only [Pool.setBase, Pool.setCfg, Function.update_of_ne hr] at hx hd
    exact ⟨hx, hd⟩

theorem hasDist_enter {name : String} {x d : Ref} (hs : Sound m keys p) (hext : Pool.Extends x p q)
    (hcfgs : q.cfgs = p.cfgs ++ [(name, x)]) (h : q.HasDist d) :
    p.HasDist d ∨ (q.cfg x).isDistro = false ∧ (q.cfg x).distro = some d := by
  obtain ⟨k, y, hk, hy, hd⟩ := h
  rw [hcfgs] at hk
  rcases Dict.lookup_concat hk with hk | ⟨-, rfl⟩
  · have hlt := hs.alloc k y hk
    exact .inl ⟨k, y, hk, (hext.isDistro hlt).symm.trans hy, (hext.distro hlt).symm.trans hd⟩
  · exact .inr ⟨hy, hd⟩

end FireMarshal
