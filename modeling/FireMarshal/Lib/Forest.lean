import Mathlib.Data.List.Nodup
import Mathlib.Tactic.Common

/-! Trees of named entries, such as directories. A forest lists the entries of a directory; those of an entry that is
    a directory itself come with it. A tree is determined by the entries that paths lead to, if directories of the same
    names are listed in the same order. -/

inductive Forest (ν α β : Type) where
  | nil
  | leaf (name : ν) (a : α) (rest : Forest ν α β)
  | dir (name : ν) (b : β) (children rest : Forest ν α β)
deriving DecidableEq, Repr

namespace Forest

inductive Item (ν α β : Type) where
  | leaf (a : α)
  | dir (b : β) (children : Forest ν α β)
deriving DecidableEq, Repr

inductive Entry (α β : Type) where
  | leaf (a : α)
  | dir (b : β)
deriving DecidableEq, Repr

/-- The lists of names that directories can have: there is one at most for a set of names. -/
structure Listing (ν : Type) where
  lists : List ν → Prop
  nodup : ∀ l, lists l → l.Nodup
  unique : ∀ l l', lists l → lists l' → (∀ n, n ∈ l ↔ n ∈ l') → l = l'

variable {ν α β : Type}

def names : Forest ν α β → List ν
  | nil => []
  | leaf name _ rest => name :: rest.names
  | dir name _ _ rest => name :: rest.names

def deeper : Forest ν α β → List (List ν)
  | nil => []
  | leaf _ _ rest => rest.deeper
  | dir name _ children rest => (children.names.map ([·]) ++ children.deeper).map (name :: ·) ++ rest.deeper

def paths (t : Forest ν α β) : List (List ν) := t.names.map ([·]) ++ t.deeper

def Ordered (o : Listing ν) : Forest ν α β → Prop
  | nil => True
  | leaf _ _ rest => rest.Ordered o
  | dir _ _ children rest => o.lists children.names ∧ children.Ordered o ∧ rest.Ordered o

def Item.Ordered (o : Listing ν) : Item ν α β → Prop
  | leaf _ => True
  | dir _ children => o.lists children.names ∧ children.Ordered o

def Item.entry : Item ν α β → Entry α β
  | leaf a => .leaf a
  | dir b _ => .dir b

def Entry.isDir : Entry α β → Bool
  | leaf _ => false
  | dir _ => true

variable [DecidableEq ν]

def get : Forest ν α β → ν → Option (Item ν α β)
  | nil, _ => none
  | leaf name a rest, n => if name = n then some (.leaf a) else rest.get n
  | dir name b children rest, n => if name = n then some (.dir b children) else rest.get n

def Item.walk : Item ν α β → List ν → Option (Item ν α β)
  | item, [] => some item
  | leaf _, _ :: _ => none
  | dir _ children, n :: p => (children.get n).bind (·.walk p)

def Item.find (item : Item ν α β) (p : List ν) : Option (Entry α β) := (item.walk p).map entry

variable {o : Listing ν} {t u : Forest ν α β} {i j : Item ν α β} {n : ν} {p q : List ν} {b : β}

/-! ### Names -/

theorem get_isSome : (t.get n).isSome ↔ n ∈ t.names := by
  induction t with
  | nil => simp [get, names]
  | leaf name a rest ih =>
    rw [get, names, List.mem_cons, ← ih]
    by_cases h : name = n
    · simp [h]
    · simp [h, Ne.symm h]
  | dir name b children rest _ ih =>
    rw [get, names, List.mem_cons, ← ih]
    by_cases h : name = n
    · simp [h]
    · simp [h, Ne.symm h]

theorem get_eq_none : t.get n = none ↔ n ∉ t.names := by
  rw [← get_isSome, Option.not_isSome_iff_eq_none]

theorem Ordered.get (h : t.Ordered o) (hget : t.get n = some i) : i.Ordered o := by
  induction t with
  | nil => cases hget
  | leaf name a rest ih =>
    rw [Forest.get] at hget
    split at hget
    · cases hget
      trivial
    · exact ih h hget
  | dir name b children rest _ ih =>
    rw [Forest.get] at hget
    split at hget
    · cases hget
      exact ⟨h.1, h.2.1⟩
    · exact ih h.2.2 hget

/-! ### Paths -/

namespace Item

@[simp] theorem walk_nil : i.walk [] = some i := by
  cases i <;> rfl

theorem walk_append : i.walk (p ++ q) = (i.walk p).bind (·.walk q) := by
  induction p generalizing i with
  | nil => simp
  | cons n p ih =>
    cases i with
    | leaf a => rfl
    | dir b children =>
      rw [List.cons_append, walk, walk, Option.bind_assoc]
      simp only [ih]

theorem exists_dir_of_walk (h : i.walk (p ++ [n]) = some j) : ∃ b t, i.walk p = some (.dir b t) ∧ t.get n = some j := by
  rw [walk_append] at h
  obtain ⟨k, hk, hn⟩ := Option.bind_eq_some_iff.mp h
  cases k with
  | leaf a => cases hn
  | dir b t =>
    simp only [walk, Option.bind_fun_some] at hn
    exact ⟨b, t, hk, hn⟩

theorem find_nil : i.find [] = some i.entry := by
  rw [find, walk_nil, Option.map_some]

theorem find_dir : (dir b t).find (n :: p) = (t.get n).bind (·.find p) := by
  rw [find, walk, Option.map_bind]
  rfl

theorem Ordered.walk (h : i.Ordered o) (hwalk : i.walk p = some j) : j.Ordered o := by
  induction p generalizing i with
  | nil =>
    rw [walk_nil] at hwalk
    exact Option.some.inj hwalk ▸ h
  | cons n p ih =>
    cases i with
    | leaf a => cases hwalk
    | dir b children =>
      obtain ⟨child, hget, hchild⟩ := Option.bind_eq_some_iff.mp hwalk
      exact ih (h.2.get hget) hchild

end Item

theorem mem_deeper (h : t.get n = some (.dir b u)) (hp : p ∈ u.paths) : n :: p ∈ t.deeper := by
  induction t with
  | nil => cases h
  | leaf name a rest ih =>
    rw [get] at h
    split at h
    · cases h
    · exact ih h
  | dir name c children rest _ ih =>
    rw [get] at h
    rw [deeper, List.mem_append]
    split at h
    · next hname =>
      cases h
      exact .inl (hname ▸ List.mem_map_of_mem hp)
    · exact .inr (ih h)

theorem mem_paths (h : (Item.dir b t).walk (n :: p) = some i) : n :: p ∈ t.paths := by
  induction p generalizing t n b with
  | nil =>
    obtain ⟨child, hget, -⟩ := Option.bind_eq_some_iff.mp h
    have hmem : n ∈ t.names := get_isSome.mp (Option.isSome_of_eq_some hget)
    exact List.mem_append_left _ (List.mem_map_of_mem hmem)
  | cons m p ih =>
    obtain ⟨child, hget, hchild⟩ := Option.bind_eq_some_iff.mp h
    cases child with
    | leaf a => cases hchild
    | dir c u => exact List.mem_append_right _ (mem_deeper hget (ih hchild))

/-! ### Trees with the same entries -/

variable {name : ν} {rest rest' : Forest ν α β}

theorem mem_names_iff_find : n ∈ t.names ↔ ((t.get n).bind (·.find [])).isSome := by
  rw [← get_isSome]
  cases t.get n with
  | none => rfl
  | some i => simp [Item.find_nil]

theorem names_eq_of_find (ht : o.lists t.names) (hu : o.lists u.names)
    (h : ∀ n p, (t.get n).bind (·.find p) = (u.get n).bind (·.find p)) : t.names = u.names :=
  o.unique _ _ ht hu fun n => by rw [mem_names_iff_find, mem_names_iff_find, h]

theorem find_rest (h : ∀ n p, (t.get n).bind (·.find p) = (u.get n).bind (·.find p)) (hrest : name ∉ rest.names)
    (hrest' : name ∉ rest'.names) (ht : ∀ n, name ≠ n → t.get n = rest.get n)
    (hu : ∀ n, name ≠ n → u.get n = rest'.get n) (n : ν) (p : List ν) :
    (rest.get n).bind (·.find p) = (rest'.get n).bind (·.find p) := by
  by_cases hn : name = n
  · subst hn
    rw [get_eq_none.mpr hrest, get_eq_none.mpr hrest']
  · rw [← ht n hn, ← hu n hn]
    exact h n p

/-- Forests that are listed in one order are equal if paths lead to the same entries. -/
theorem eq_of_find (hnames : t.names = u.names) (hnodup : t.names.Nodup) (ht : t.Ordered o) (hu : u.Ordered o)
    (h : ∀ n p, (t.get n).bind (·.find p) = (u.get n).bind (·.find p)) : t = u := by
  induction t generalizing u with
  | nil =>
    cases u with
    | nil => rfl
    | leaf | dir => cases hnames
  | leaf name a rest ih =>
    obtain ⟨hname, hrest⟩ := List.nodup_cons.mp hnodup
    have hhead := h name []
    cases u with
    | nil => cases hnames
    | leaf name' a' rest' =>
      obtain ⟨rfl, htail⟩ := List.cons.inj hnames
      obtain rfl : a = a' := by simpa [get, Item.find_nil, Item.entry] using hhead
      have hfind := find_rest h hname (htail ▸ hname) (fun n hn => if_neg hn) (fun n hn => if_neg hn)
      rw [ih htail hrest ht hu hfind]
    | dir name' b' children' rest' =>
      obtain ⟨rfl, -⟩ := List.cons.inj hnames
      simp [get, Item.find_nil, Item.entry] at hhead
  | dir name b children rest ihc ih =>
    obtain ⟨hname, hrest⟩ := List.nodup_cons.mp hnodup
    have hhead := h name []
    cases u with
    | nil => cases hnames
    | leaf name' a' rest' =>
      obtain ⟨rfl, -⟩ := List.cons.inj hnames
      simp [get, Item.find_nil, Item.entry] at hhead
    | dir name' b' children' rest' =>
      obtain ⟨rfl, htail⟩ := List.cons.inj hnames
      obtain rfl : b = b' := by simpa [get, Item.find_nil, Item.entry] using hhead
      have hchildren : ∀ n p, (children.get n).bind (·.find p) = (children'.get n).bind (·.find p) := by
        intro n p
        simpa [get, Item.find_dir] using h name (n :: p)
      have hlisted := names_eq_of_find ht.1 hu.1 hchildren
      have hfind := find_rest h hname (htail ▸ hname) (fun n hn => if_neg hn) (fun n hn => if_neg hn)
      rw [ihc hlisted (o.nodup _ ht.1) ht.2.1 hu.2.1 hchildren, ih htail hrest ht.2.2 hu.2.2 hfind]

theorem Item.eq_of_find (hi : i.Ordered o) (hj : j.Ordered o) (h : ∀ p, i.find p = j.find p) : i = j := by
  have hentry := h []
  rw [find_nil, find_nil, Option.some.injEq] at hentry
  cases i with
  | leaf a =>
    cases j with
    | leaf a' => simpa [entry] using hentry
    | dir => cases hentry
  | dir b t =>
    cases j with
    | leaf => cases hentry
    | dir b' u =>
      obtain rfl : b = b' := by simpa [entry] using hentry
      have hfind : ∀ n p, (t.get n).bind (·.find p) = (u.get n).bind (·.find p) := by
        intro n p
        rw [← find_dir (b := b), ← find_dir (b := b), h]
      rw [Forest.eq_of_find (names_eq_of_find hi.1 hj.1 hfind) (o.nodup _ hi.1) hi.2 hj.2 hfind]

end Forest
