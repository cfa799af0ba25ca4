import Mathlib.Data.List.Basic
import Mathlib.Tactic.Common
import FireMarshal.Lib.Except

/-! Dictionaries in insertion order, as lists of pairs. -/

abbrev Dict (κ ν : Type) := List (κ × ν)

namespace Dict

variable {κ ν : Type}

def keys (d : Dict κ ν) : List κ := d.map Prod.fst

def vals (d : Dict κ ν) : List ν := d.map Prod.snd

def mapVals {μ : Type} (g : κ → ν → μ) (d : Dict κ ν) : Dict κ μ := d.map fun e => (e.1, g e.1 e.2)

theorem vals_cons (c : κ × ν) (d : Dict κ ν) : vals (c :: d) = c.2 :: d.vals := rfl

theorem keys_append (d e : Dict κ ν) : keys (d ++ e) = d.keys ++ e.keys := List.map_append

theorem vals_append (d e : Dict κ ν) : vals (d ++ e) = d.vals ++ e.vals := List.map_append

theorem not_mem_of_nodup {l : List ν} {c : κ × ν} {d : Dict κ ν} (h : (l ++ vals (c :: d)).Nodup) : c.2 ∉ l :=
  fun hmem => (List.nodup_append.mp h).2.2 c.2 hmem c.2 List.mem_cons_self rfl

theorem foldlM_keys_inv {σ ε : Type} {f : σ → κ → Except ε σ} {R : List ν → σ → Prop} {d : Dict κ ν} {done : List ν}
    {s t : σ} (hs : R done s)
    (hstep : ∀ done s, ∀ c ∈ d, ∀ u, R done s → c.2 ∉ done → f s c.1 = .ok u → R (done ++ [c.2]) u)
    (hnodup : (done ++ d.vals).Nodup) (h : d.keys.foldlM f s = .ok t) : R (done ++ d.vals) t := by
  induction d generalizing done s with
  | nil =>
    cases h
    simpa [vals] using hs
  | cons c d ih =>
    obtain ⟨u, hu, h⟩ := Except.foldlM_cons_ok h
    have hc : c.2 ∉ done := not_mem_of_nodup hnodup
    rw [vals_cons, List.append_cons] at hnodup ⊢
    exact ih (hstep done s c List.mem_cons_self u hs hc hu)
      (fun done s c' hc' => hstep done s c' (List.mem_cons_of_mem c hc')) hnodup h

variable [BEq κ]

def hasKey (d : Dict κ ν) (k : κ) : Bool := (d.lookup k).isSome

/-- All entries of both; `e` decides where both have a key. -/
def merge (d e : Dict κ ν) : Dict κ ν :=
  (d.map fun (k, v) => (k, (e.lookup k).getD v)) ++ e.filter fun (k, _) => !d.hasKey k

def same [BEq ν] (d e : Dict κ ν) : Bool := d.length == e.length && d.all fun (k, v) => e.lookup k == some v

/-- The keys of `dict.fromkeys(l)`, in the order of their first entry. -/
def fromKeys (l : List κ) : List κ := l.eraseDups

variable {d e : Dict κ ν} {k : κ} {v : ν}

theorem hasKey_iff : d.hasKey k = true ↔ ∃ v, d.lookup k = some v := Option.isSome_iff_exists

theorem lookup_of_not_hasKey (h : ¬ d.hasKey k = true) : d.lookup k = none := by
  rwa [hasKey, Option.not_isSome_iff_eq_none] at h

variable [LawfulBEq κ]

theorem mem_of_lookup (h : d.lookup k = some v) : (k, v) ∈ d := by
  obtain ⟨l₁, l₂, rfl, -⟩ := List.lookup_eq_some_iff.mp h
  simp

theorem mem_vals_of_lookup (h : d.lookup k = some v) : v ∈ d.vals := List.mem_map_of_mem (mem_of_lookup h)

theorem lookup_mapVals {μ : Type} (g : κ → ν → μ) (d : Dict κ ν) (k : κ) :
    (d.mapVals g).lookup k = (d.lookup k).map (g k) := by
  induction d with
  | nil => rfl
  | cons e d ih =>
    rw [mapVals, List.map_cons, List.lookup_cons, List.lookup_cons, ← mapVals, ih]
    by_cases hk : k = e.1
    · simp [← hk]
    · simp [beq_false_of_ne hk]

theorem lookup_eq_some (h : d.keys.Nodup) : d.lookup k = some v ↔ (k, v) ∈ d := by
  induction d with
  | nil => simp
  | cons p d ih =>
    obtain ⟨k', v'⟩ := p
    obtain ⟨hk', hd⟩ := List.nodup_cons.mp h
    by_cases hk : k = k'
    · subst hk
      have hno : (k, v) ∉ d := fun hmem => hk' (List.mem_map.mpr ⟨(k, v), hmem, rfl⟩)
      simp [hno, eq_comm]
    · rw [List.lookup_cons, beq_false_of_ne hk]
      simp [ih hd, hk]

theorem lookup_perm (h : d.keys.Nodup) (hp : e.Perm d) (k : κ) : e.lookup k = d.lookup k := by
  have he : e.keys.Nodup := (hp.map Prod.fst).nodup_iff.mpr h
  refine Option.ext fun v => ?_
  rw [lookup_eq_some he, lookup_eq_some h, hp.mem_iff]

theorem perm_of_lookup (hd : d.keys.Nodup) (h : d.lookup k = some v) :
    d.Perm ((k, v) :: d.filter fun (k', _) => k' != k) := by
  induction d with
  | nil => cases h
  | cons c d ih =>
    obtain ⟨k', v'⟩ := c
    obtain ⟨hk', hd⟩ := List.nodup_cons.mp hd
    by_cases hk : k = k'
    · subst hk
      have hv : v' = v := by simpa using h
      have hall : ∀ c ∈ d, (c.1 != k) = true := by
        intro c hc
        rw [bne_iff_ne]
        rintro rfl
        exact hk' (List.mem_map.mpr ⟨c, hc, rfl⟩)
      rw [List.filter_cons_of_neg (by simp), List.filter_eq_self.mpr hall, hv]
    · have hrest : d.lookup k = some v := by simpa [List.lookup_cons, beq_false_of_ne hk] using h
      rw [List.filter_cons_of_pos (by simpa using Ne.symm hk)]
      exact ((ih hd hrest).cons _).trans (.swap _ _ _)

theorem lookup_concat {k' : κ} {v' : ν} (h : (d ++ [(k', v')]).lookup k = some v) :
    d.lookup k = some v ∨ k = k' ∧ v = v' := by
  rw [List.lookup_append, Option.or_eq_some_iff] at h
  refine h.imp id fun ⟨_, h⟩ => ?_
  rw [List.lookup_cons] at h
  by_cases hk : k = k'
  · subst hk
    simp only [beq_self_eq_true, Option.some.injEq] at h
    exact ⟨rfl, h.symm⟩
  · simp [beq_false_of_ne hk] at h

theorem lookup_concat_self (h : d.lookup k = none) : (d ++ [(k, v)]).lookup k = some v := by
  rw [List.lookup_append, h, Option.none_or, List.lookup_cons, beq_self_eq_true]

omit [LawfulBEq κ] in
theorem keys_merge (d e : Dict κ ν) : (d.merge e).keys = d.keys ++ e.keys.filter fun k => !d.hasKey k := by
  simp [merge, keys, List.filter_map, Function.comp_def]

theorem mem_keys_iff : k ∈ d.keys ↔ d.hasKey k = true := by
  induction d with
  | nil => simp [keys, hasKey]
  | cons e d ih =>
    rw [keys, List.map_cons, List.mem_cons, ← keys, ih, hasKey, hasKey, List.lookup_cons]
    by_cases hk : k = e.1
    · simp [hk]
    · simp [hk, beq_false_of_ne hk]

theorem lookup_filter (p : κ → Bool) (d : Dict κ ν) (k : κ) :
    (d.filter fun (k, _) => p k).lookup k = if p k then d.lookup k else none := by
  induction d with
  | nil => simp
  | cons c d ih =>
    obtain ⟨k', v⟩ := c
    by_cases hk : k = k'
    · subst hk
      cases hp : p k with
      | false => simpa [hp] using ih
      | true => simp [hp]
    · cases hp : p k' with
      | false => simpa [hp, List.lookup_cons, beq_false_of_ne hk] using ih
      | true => simpa [hp, List.lookup_cons, beq_false_of_ne hk] using ih

theorem lookup_merge (d e : Dict κ ν) (k : κ) : (d.merge e).lookup k = (e.lookup k).or (d.lookup k) := by
  have hold : (d.map fun (k, v) => (k, (e.lookup k).getD v)).lookup k = (d.lookup k).map ((e.lookup k).getD ·) :=
    lookup_mapVals (fun k v => (e.lookup k).getD v) d k
  rw [merge, List.lookup_append, hold, lookup_filter fun k => !d.hasKey k]
  cases hd : d.lookup k with
  | none => simp [hasKey, hd]
  | some v => cases he : e.lookup k <;> simp [hasKey, hd]

theorem mem_merge_singleton {c : κ × ν} (h : c ∈ d.merge [(k, v)]) : c ∈ d ∨ c = (k, v) := by
  rcases List.mem_append.mp h with hold | hnew
  · obtain ⟨c', hc', rfl⟩ := List.mem_map.mp hold
    by_cases hk : c'.1 = k
    · exact .inr (by simp [hk])
    · exact .inl (by simpa [List.lookup_cons, beq_false_of_ne hk] using hc')
  · exact .inr (List.mem_singleton.mp (List.mem_of_mem_filter hnew))

theorem merge_new (h : k ∉ d.keys) : d.merge [(k, v)] = d ++ [(k, v)] := by
  have hold : ∀ c ∈ d, (c.1, (List.lookup c.1 [(k, v)]).getD c.2) = id c := by
    intro c hc
    have hk : c.1 ≠ k := fun hk => h (List.mem_map.mpr ⟨c, hc, hk⟩)
    simp [List.lookup_cons, beq_false_of_ne hk]
  have hnone : d.hasKey k = false := by rwa [mem_keys_iff, Bool.not_eq_true] at h
  rw [merge, List.map_congr_left hold, List.map_id]
  simp [hnone]

theorem mem_vals_merge {v' : ν} (h : v ∈ (d.merge [(k, v')]).vals) : v ∈ d.vals ∨ v = v' := by
  obtain ⟨c, hc, rfl⟩ := List.mem_map.mp h
  rcases mem_merge_singleton hc with hc | rfl
  · exact .inl (List.mem_map.mpr ⟨c, hc, rfl⟩)
  · exact .inr rfl

omit [LawfulBEq κ] in
theorem merge_nil (d : Dict κ ν) : d.merge [] = d := by simp [merge]

theorem nodup_merge (hd : d.keys.Nodup) (he : e.keys.Nodup) : (d.merge e).keys.Nodup := by
  rw [keys_merge]
  refine List.nodup_append.mpr ⟨hd, he.filter _, fun k hk k' hk' => ?_⟩
  rintro rfl
  simp [mem_keys_iff.mp hk] at hk'

theorem eq_of_same_merge [BEq ν] [LawfulBEq ν] {p : κ × ν → Bool} (hd : d.keys.Nodup)
    (h : same ((d.merge e).filter p) d = true) : (d.merge e).filter p = d := by
  simp only [same, Bool.and_eq_true, beq_iff_eq, List.all_eq_true] at h
  obtain ⟨hlen, hmem⟩ := h
  have hnew : (e.filter fun (k, _) => !d.hasKey k).filter p = [] := by
    rw [List.filter_eq_nil_iff]
    intro c hc hp
    have hlookup := hmem c (List.mem_filter.mpr ⟨List.mem_append_right _ hc, hp⟩)
    simp [hasKey, hlookup] at hc
  rw [merge, List.filter_append, hnew, List.append_nil] at hlen hmem ⊢
  have hall := List.length_filter_eq_length_iff.mp (hlen.trans (List.length_map _).symm)
  rw [List.filter_eq_self.mpr hall] at hmem ⊢
  have hsame : ∀ c ∈ d, (c.1, (e.lookup c.1).getD c.2) = id c := by
    intro c hc
    have h₁ := hmem _ (List.mem_map_of_mem hc)
    rw [(lookup_eq_some hd).mpr hc, Option.some.injEq] at h₁
    exact Prod.ext rfl h₁.symm
  exact (List.map_congr_left hsame).trans (List.map_id d)

theorem nodup_fromKeys (l : List κ) : (fromKeys l).Nodup := by
  induction hn : l.length using Nat.strongRecOn generalizing l with
  | ind n ih =>
    cases l with
    | nil => exact List.nodup_nil
    | cons a l =>
      have hlt : (l.filter fun b => !b == a).length < n := by
        rw [← hn]
        exact Nat.lt_succ_of_le (List.length_filter_le _ _)
      rw [fromKeys, List.eraseDups_cons]
      refine List.nodup_cons.mpr ⟨?_, ih _ hlt _ rfl⟩
      rw [List.mem_eraseDups]
      simp

end Dict
