import Mathlib.Data.List.Basic
import Mathlib.Tactic.Common
import FireMarshal.Lib.Except

/-! Registries, which keep the first entry that comes under each key. -/

namespace Registry

variable {κ τ : Type} [DecidableEq κ] (key : τ → κ)

def add (l : List τ) (t : τ) : List τ := if l.any fun u => key u = key t then l else l ++ [t]

def addAll (l ts : List τ) : List τ := ts.foldl (add key) l

def find (l : List τ) (k : κ) : Option τ := l.find? fun t => key t = k

variable {key} {l ts us : List τ} {t : τ} {k : κ}

@[simp] theorem find_nil : find key [] k = none := rfl

theorem find_cons : find key (t :: ts) k = (if key t = k then some t else none).or (find key ts k) := by
  simp only [find, List.find?_cons]
  by_cases hk : key t = k <;> simp [hk]

theorem find_append : find key (l ++ ts) k = (find key l k).or (find key ts k) := List.find?_append

@[simp] theorem addAll_append : addAll key l (ts ++ us) = addAll key (addAll key l ts) us := List.foldl_append

theorem find_add : find key (add key l t) k = (find key l k).or (if key t = k then some t else none) := by
  unfold add
  split
  · next h =>
    obtain ⟨u, hu, hkey⟩ := List.any_eq_true.mp h
    by_cases hk : key t = k
    · have hsome : (find key l k).isSome := List.find?_isSome.mpr ⟨u, hu, by simpa [hk] using hkey⟩
      rw [Option.or_of_isSome hsome]
    · simp [hk]
  · rw [find_append, find_cons, find_nil, Option.or_none]

theorem find_addAll (key : τ → κ) (l ts : List τ) (k : κ) :
    find key (addAll key l ts) k = (find key l k).or (find key ts k) := by
  induction ts generalizing l with
  | nil => simp [addAll]
  | cons t ts ih =>
    rw [show addAll key l (t :: ts) = addAll key (add key l t) ts from rfl, ih, find_add, find_cons, Option.or_assoc]

theorem find_some (h : find key l k = some t) : t ∈ l ∧ key t = k :=
  ⟨List.mem_of_find?_eq_some h, by simpa using List.find?_some h⟩

theorem exists_find (key : τ → κ) (h : t ∈ l) : ∃ u, find key l (key t) = some u :=
  Option.isSome_iff_exists.mp (List.find?_isSome.mpr ⟨t, h, by simp⟩)

theorem find_of_mem (h : t ∈ addAll key [] ts) : find key ts (key t) = some t := by
  suffices hall : ∀ l, (∀ u ∈ l, find key l (key u) = some u) →
      ∀ u ∈ addAll key l ts, find key (addAll key l ts) (key u) = some u by
    have := hall [] (by simp) t h
    rwa [find_addAll, find_nil, Option.none_or] at this
  clear h
  induction ts with
  | nil => exact fun l hl => hl
  | cons t ts ih =>
    intro l hl
    refine ih (add key l t) fun u hu => ?_
    rw [find_add]
    by_cases hmem : u ∈ l
    · simp [hl u hmem]
    · unfold add at hu
      split at hu
      · exact absurd hu hmem
      · next hfree =>
        obtain rfl : u = t := by simpa [hmem] using hu
        have hnone : find key l (key u) = none := by
          simpa [find] using hfree
        simp [hnone]

theorem mem_addAll : t ∈ addAll key [] ts ↔ find key ts (key t) = some t := by
  refine ⟨find_of_mem, fun h => ?_⟩
  have : find key (addAll key [] ts) (key t) = some t := by rwa [find_addAll, find_nil, Option.none_or]
  exact (find_some this).1

theorem mem_of_mem_addAll (h : t ∈ addAll key [] ts) : t ∈ ts := (find_some (find_of_mem h)).1

theorem exists_mem_addAll (h : t ∈ ts) : ∃ u ∈ addAll key [] ts, key u = key t := by
  obtain ⟨u, hu⟩ := exists_find key h
  have hkey := (find_some hu).2
  exact ⟨u, mem_addAll.mpr (by rwa [hkey]), hkey⟩

theorem exists_key_addAll : (∃ t ∈ addAll key [] ts, key t = k) ↔ ∃ t ∈ ts, key t = k := by
  constructor
  · rintro ⟨t, ht, hk⟩
    exact ⟨t, mem_of_mem_addAll ht, hk⟩
  · rintro ⟨t, ht, rfl⟩
    exact exists_mem_addAll ht

theorem add_of_mem (h : ∃ u ∈ l, key u = key t) : add key l t = l := by
  obtain ⟨u, hu, hkey⟩ := h
  exact if_pos (List.any_eq_true.mpr ⟨u, hu, by simpa using hkey⟩)

theorem addAll_of_mem (h : ∀ t ∈ ts, ∃ u ∈ l, key u = key t) : addAll key l ts = l := by
  induction ts with
  | nil => rfl
  | cons t ts ih =>
    rw [List.forall_mem_cons] at h
    rw [show addAll key l (t :: ts) = addAll key (add key l t) ts from rfl, add_of_mem h.1]
    exact ih h.2

theorem nodup_add (h : (l.map key).Nodup) : ((add key l t).map key).Nodup := by
  unfold add
  split
  · exact h
  · next hfree =>
    rw [List.map_append, List.nodup_append]
    refine ⟨h, by simp, ?_⟩
    rintro k hk k' hk' rfl
    obtain ⟨u, hu, hkey⟩ := List.mem_map.mp hk
    rw [List.mem_singleton.mp hk'] at hkey
    exact hfree (List.any_eq_true.mpr ⟨u, hu, by simpa using hkey⟩)

theorem nodup_addAll (h : (l.map key).Nodup) : ((addAll key l ts).map key).Nodup := by
  induction ts generalizing l with
  | nil => exact h
  | cons t ts ih => exact ih (nodup_add h)

theorem foldlM_eq_ok {α ε : Type} {step : List τ → α → Except ε (List τ)} (P : α → Prop) (f : α → List τ)
    (hstep : ∀ l x g, step l x = .ok g ↔ P x ∧ g = addAll key l (f x)) (xs : List α) (l g : List τ) :
    xs.foldlM step l = .ok g ↔ (∀ x ∈ xs, P x) ∧ g = addAll key l (xs.flatMap f) := by
  induction xs generalizing l with
  | nil => simp [addAll, pure, Except.pure, eq_comm]
  | cons x xs ih =>
    rw [List.foldlM_cons, Except.bind_eq_ok]
    simp only [hstep, ih, List.forall_mem_cons, List.flatMap_cons, addAll_append]
    constructor
    · rintro ⟨_, ⟨hx, rfl⟩, hxs, rfl⟩
      exact ⟨⟨hx, hxs⟩, rfl⟩
    · rintro ⟨⟨hx, hxs⟩, rfl⟩
      exact ⟨_, ⟨hx, rfl⟩, hxs, rfl⟩

end Registry
