import Mathlib.Data.List.Induction
import Mathlib.Data.List.Nodup
import Mathlib.Tactic.Common

/-! Settings in layers. Some entries of a file give a value to a key, and where several do the last one counts. Files
    that are put one over the other are read as one. -/

namespace Layers

variable {α κ ν : Type} [BEq κ] [LawfulBEq κ] {setting : α → Option (κ × ν)} {xs ys : List α} {k : κ} {v : ν}

def keys (setting : α → Option (κ × ν)) (xs : List α) : List κ := (xs.filterMap setting).map Prod.fst

def read (setting : α → Option (κ × ν)) (xs : List α) (k : κ) : Option ν := (xs.filterMap setting).reverse.lookup k

omit [BEq κ] [LawfulBEq κ] in
theorem mem_keys_iff : k ∈ keys setting xs ↔ ∃ x ∈ xs, ∃ v, setting x = some (k, v) := by
  simp only [keys, List.mem_map, List.mem_filterMap]
  constructor
  · rintro ⟨⟨k', v⟩, ⟨x, hx, hset⟩, rfl⟩
    exact ⟨x, hx, v, hset⟩
  · rintro ⟨x, hx, v, hset⟩
    exact ⟨(k, v), ⟨x, hx, hset⟩, rfl⟩

omit [BEq κ] [LawfulBEq κ] in
theorem keys_append : keys setting (xs ++ ys) = keys setting xs ++ keys setting ys := by
  rw [keys, List.filterMap_append, List.map_append]
  rfl

omit [LawfulBEq κ] in
@[simp] theorem read_nil : read setting [] k = none := rfl

omit [LawfulBEq κ] in
theorem read_append : read setting (xs ++ ys) k = (read setting ys k).or (read setting xs k) := by
  rw [read, List.filterMap_append, List.reverse_append, List.lookup_append]
  rfl

omit [LawfulBEq κ] in
theorem read_cons (e : κ × ν) (xs : List (κ × ν)) (k : κ) :
    read some (e :: xs) k = (read some xs k).or (if k == e.1 then some e.2 else none) := by
  obtain ⟨k', v⟩ := e
  rw [← List.singleton_append, read_append]
  congr 1
  simp only [read, List.filterMap_cons, List.filterMap_nil, List.reverse_singleton, List.lookup_cons, List.lookup_nil]
  cases k == k' <;> rfl

omit [LawfulBEq κ] in
theorem read_append_of_imp {zs : List α} (h : ∀ v, read setting xs k = some v → read setting ys k = some v)
    (hv : read setting (xs ++ zs) k = some v) : read setting (ys ++ zs) k = some v := by
  rw [read_append] at hv ⊢
  cases hz : read setting zs k with
  | some w => rwa [hz] at hv
  | none =>
    rw [hz, Option.none_or] at hv
    rw [h v hv]
    rfl

theorem read_eq_none (h : k ∉ keys setting xs) : read setting xs k = none := by
  rw [read, List.lookup_eq_none_iff]
  intro e he
  rw [bne_iff_ne]
  rintro rfl
  exact h (List.mem_map.mpr ⟨e, List.mem_reverse.mp he, rfl⟩)

theorem read_isSome (h : k ∈ keys setting xs) : (read setting xs k).isSome = true := by
  rw [Option.isSome_iff_ne_none, read, ne_eq, List.lookup_eq_none_iff]
  obtain ⟨e, he, rfl⟩ := List.mem_map.mp h
  intro hall
  simpa using hall e (List.mem_reverse.mpr he)

theorem read_filter {p : α → Bool} (h : ∀ x ∈ xs, ∀ v, setting x = some (k, v) → p x = true) :
    read setting (xs.filter p) k = read setting xs k := by
  induction xs using List.reverseRecOn with
  | nil => rfl
  | append_singleton xs x ih =>
    have ih := ih fun y hy => h y (List.mem_append_left _ hy)
    rw [List.filter_append, read_append, read_append, ih]
    cases hp : p x with
    | true => rw [List.filter_singleton, hp]; rfl
    | false =>
      have hnot : k ∉ keys setting [x] := fun hmem => by
        obtain ⟨y, hy, v, hset⟩ := mem_keys_iff.mp hmem
        obtain rfl := List.mem_singleton.mp hy
        simp [h y (by simp) v hset] at hp
      rw [List.filter_singleton, hp, read_eq_none hnot]
      rfl

end Layers
