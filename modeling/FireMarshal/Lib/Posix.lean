import Mathlib.Data.List.Basic
import Mathlib.Tactic.Common

/-! Pure POSIX paths, as `pathlib` of Python has them: a root and components, where empty components and `.` are
    dropped and `..` is kept. A path may be spelled in several ways. -/

namespace Posix

inductive Root where
  | none
  | slash
  /-- Exactly two slashes at the start are a root of their own. -/
  | slashes
deriving DecidableEq, Repr

def rootOf : List Char → Root
  | '/' :: '/' :: '/' :: _ => .slash
  | '/' :: '/' :: _ => .slashes
  | '/' :: _ => .slash
  | _ => .none

def Proper (part : List Char) : Prop := part ≠ [] ∧ part ≠ ['.']

instance (part : List Char) : Decidable (Proper part) := inferInstanceAs (Decidable (_ ∧ _))

def components (cs : List Char) : List (List Char) := (cs.splitOn '/').filter fun part => decide (Proper part)

structure Path where
  root : Root
  parts : List (List Char)
deriving DecidableEq, Repr

def parse (s : String) : Path := ⟨rootOf s.toList, components s.toList⟩

def Path.join (p q : Path) : Path := if q.root = .none then ⟨p.root, p.parts ++ q.parts⟩ else q

def isAbsolute (s : String) : Bool := s.toList.head? = some '/'

def join (p q : String) : String :=
  if isAbsolute q then q
  else if p = "" ∨ p.toList.getLast? = some '/' then p ++ q
  else p ++ "/" ++ q

/-- One more component over the ones before, of which the last comes first. -/
def ascend (absolute : Bool) (stack : List (List Char)) (part : List Char) : List (List Char) :=
  if part = ['.', '.'] then
    match stack with
    | [] => if absolute then [] else [part]
    | top :: rest => if top = ['.', '.'] then part :: stack else rest
  else part :: stack

def Path.resolve (p : Path) : Path where
  root := if p.root = .none then .none else .slash
  parts := (p.parts.foldl (ascend (p.root ≠ .none)) []).reverse

/-- The file that a string names, if no directory is a link. -/
def file (s : String) : Path := (parse s).resolve

/-! ### Roots -/

theorem rootOf_eq_none {cs : List Char} : rootOf cs = .none ↔ cs.head? ≠ some '/' := by
  unfold rootOf
  split
  · simp
  · simp
  · simp
  · next h => simpa [List.head?_eq_some_iff] using fun rest hrest => h rest hrest

theorem parse_root_eq_none {s : String} : (parse s).root = .none ↔ isAbsolute s = false := by
  simp [parse, rootOf_eq_none, isAbsolute]

theorem rootOf_nil : rootOf [] = .none := rfl

theorem rootOf_slash {cs : List Char} (h : cs.head? ≠ some '/') : rootOf ('/' :: cs) = .slash := by
  unfold rootOf
  split
  · rfl
  · next heq => simp [(List.cons.inj heq).2] at h
  · rfl
  · next hne => exact absurd rfl (hne cs)

theorem rootOf_slashes {cs : List Char} (h : cs.head? ≠ some '/') : rootOf ('/' :: '/' :: cs) = .slashes := by
  unfold rootOf
  split
  · next heq => simp [(List.cons.inj (List.cons.inj heq).2).2] at h
  · rfl
  · next hne heq =>
    obtain rfl := (List.cons.inj heq).2
    exact absurd rfl (hne cs)
  · next hne => exact absurd rfl (hne _)

theorem rootOf_append {cs ds : List Char} (hcs : cs ≠ [])
    (hds : ds.head? ≠ some '/' ∨ cs.getLast? ≠ some '/') : rootOf (cs ++ ds) = rootOf cs := by
  match cs with
  | [] => exact absurd rfl hcs
  | [a] =>
    by_cases ha : a = '/'
    · subst ha
      rw [List.singleton_append, rootOf_slash (hds.resolve_right (by simp))]
      rfl
    · rw [rootOf_eq_none.mpr (by simpa using ha), rootOf_eq_none.mpr (by simpa using ha)]
  | [a, b] =>
    by_cases ha : a = '/'
    · subst ha
      by_cases hb : b = '/'
      · subst hb
        rw [List.cons_append, List.singleton_append, rootOf_slashes (hds.resolve_right (by simp))]
        rfl
      · rw [List.cons_append, rootOf_slash (by simpa using hb), rootOf_slash (by simpa using hb)]
    · rw [rootOf_eq_none.mpr (by simpa using ha), rootOf_eq_none.mpr (by simpa using ha)]
  | a :: b :: c :: rest =>
    by_cases ha : a = '/'
    · subst ha
      by_cases hb : b = '/'
      · subst hb
        by_cases hc : c = '/'
        · subst hc
          rfl
        · rw [List.cons_append, List.cons_append, rootOf_slashes (by simpa using hc), rootOf_slashes (by simpa using hc)]
      · rw [List.cons_append, rootOf_slash (by simpa using hb), rootOf_slash (by simpa using hb)]
    · rw [rootOf_eq_none.mpr (by simpa using ha), rootOf_eq_none.mpr (by simpa using ha)]

/-! ### Components -/

theorem components_append_slash (cs ds : List Char) :
    components (cs ++ '/' :: ds) = components cs ++ components ds := by
  rw [components, List.splitOn_append_cons_self, List.filter_append]
  rfl

theorem components_nil : components [] = [] := by decide

theorem components_of_not_mem {cs : List Char} (h : '/' ∉ cs) (hproper : Proper cs) : components cs = [cs] := by
  rw [components, List.splitOn_eq_singleton h, List.filter_singleton, decide_eq_true hproper]
  rfl

theorem components_append {cs ds : List Char} (h : cs = [] ∨ cs.getLast? = some '/') :
    components (cs ++ ds) = components cs ++ components ds := by
  rcases h with rfl | h
  · rw [List.nil_append, components_nil, List.nil_append]
  · obtain ⟨init, rfl⟩ : ∃ init, cs = init ++ ['/'] := List.getLast?_eq_some_iff.mp h
    rw [List.append_assoc, List.singleton_append, components_append_slash, components_append_slash, components_nil,
      List.append_nil]

/-! ### Joins -/

theorem parse_join (p q : String) : parse (join p q) = (parse p).join (parse q) := by
  unfold join Path.join
  cases habs : isAbsolute q with
  | true =>
    have hroot : (parse q).root ≠ .none := fun h => by
      rw [parse_root_eq_none, habs] at h
      cases h
    simp [hroot]
  | false =>
    have hrel : q.toList.head? ≠ some '/' := by simpa [isAbsolute] using habs
    rw [if_pos (parse_root_eq_none.mpr habs)]
    simp only [Bool.false_eq_true, if_false]
    by_cases hempty : p = ""
    · subst hempty
      have hroot : rootOf q.toList = .none := rootOf_eq_none.mpr hrel
      simp [parse, components_nil, hroot, rootOf_nil]
    · have hne : p.toList ≠ [] := by simpa using hempty
      split
      · next hslash =>
        have hlast := hslash.resolve_left hempty
        simp only [parse, String.toList_append, components_append (.inr hlast), rootOf_append hne (.inl hrel)]
      · next hslash =>
        obtain ⟨-, hlast⟩ := not_or.mp hslash
        have hlist : (p ++ "/" ++ q).toList = p.toList ++ '/' :: q.toList := by simp
        simp only [parse, hlist, components_append_slash, rootOf_append hne (.inr hlast)]

theorem isAbsolute_join {p : String} (h : p ≠ "") (q : String) : isAbsolute (join p q) = (isAbsolute q || isAbsolute p) := by
  have hne : p.toList ≠ [] := by simpa using h
  unfold join
  cases habs : isAbsolute q with
  | true => simp [habs]
  | false =>
    simp only [Bool.false_eq_true, if_false, Bool.false_or]
    split
    · simp [isAbsolute, List.head?_append_of_ne_nil _ hne]
    · simp [isAbsolute, List.head?_append_of_ne_nil _ hne]

def stem (p : String) : String := if p = "" ∨ p.toList.getLast? = some '/' then p else p ++ "/"

theorem join_of_relative {q : String} (h : isAbsolute q = false) (p : String) : join p q = stem p ++ q := by
  unfold join stem
  split
  · next habs => simp [h] at habs
  · split <;> rfl

theorem join_of_absolute {q : String} (h : isAbsolute q = true) (p : String) : join p q = q := if_pos h

theorem stem_append {q : String} (h : q ≠ "") (p : String) : stem (p ++ q) = p ++ stem q := by
  have hne : q.toList ≠ [] := by simpa using h
  have hlast : (p ++ q).toList.getLast? = q.toList.getLast? := by
    rw [String.toList_append, List.getLast?_append_of_ne_nil _ hne]
  have hempty : ¬ (p ++ q = "") := fun heq => h (String.append_eq_empty_iff.mp heq).2
  simp only [stem, hlast, h, hempty, false_or]
  split
  · rfl
  · rw [String.append_assoc]

theorem stem_stem (p : String) : stem (stem p) = stem p := by
  by_cases h : p = "" ∨ p.toList.getLast? = some '/'
  · simp only [stem, if_pos h]
  · have hstem : stem p = p ++ "/" := if_neg h
    rw [hstem, stem_append (by decide)]
    rfl

theorem join_assoc (p q r : String) : join p (join q r) = join (join p q) r := by
  cases hr : isAbsolute r with
  | true => rw [join_of_absolute hr, join_of_absolute hr, join_of_absolute hr]
  | false =>
    cases hq : isAbsolute q with
    | true =>
      have hne : q ≠ "" := by
        rintro rfl
        cases hq
      rw [join_of_absolute hq, join_of_absolute (by rw [isAbsolute_join hne, hq, Bool.or_true])]
    | false =>
      by_cases hempty : q = ""
      · subst hempty
        have hjoin : join "" r = r := by
          rw [join_of_relative hr]
          exact String.empty_append
        rw [hjoin, join_of_relative hr, join_of_relative hr, join_of_relative hq, String.append_empty, stem_stem]
      · have hrel : isAbsolute (join q r) = false := by rw [isAbsolute_join hempty, hr, hq, Bool.or_false]
        rw [join_of_relative hrel, join_of_relative hr, join_of_relative hr, join_of_relative hq, stem_append hempty,
          String.append_assoc]

theorem join_inj {p q q' : String} (hq : isAbsolute q = false) (hq' : isAbsolute q' = false) :
    join p q = join p q' ↔ q = q' := by
  rw [join_of_relative hq, join_of_relative hq', ← String.toList_inj, String.toList_append, String.toList_append,
    List.append_cancel_left_eq, String.toList_inj]

/-! ### Files -/

theorem exists_components_append (cs : List Char) {ds : List Char} (hds : '/' ∉ ds) (hlong : 2 ≤ ds.length) :
    ∃ init u, components (cs ++ ds) = init ++ [u ++ ds] := by
  have hone : ∀ u, '/' ∉ u → components (u ++ ds) = [u ++ ds] := by
    intro u hu
    have hproper : Proper (u ++ ds) := by
      constructor
      · intro h
        have := congrArg List.length h
        simp only [List.length_append, List.length_nil] at this
        omega
      · intro h
        have := congrArg List.length h
        simp only [List.length_append, List.length_singleton] at this
        omega
    exact components_of_not_mem (by simp [hu, hds]) hproper
  by_cases hcs : '/' ∈ cs
  · obtain ⟨as, bs, hrev, has⟩ := List.eq_append_cons_of_mem (List.mem_reverse.mpr hcs)
    have hsplit : cs = bs.reverse ++ '/' :: as.reverse := by
      rw [← List.reverse_reverse cs, hrev]
      simp
    refine ⟨components bs.reverse, as.reverse, ?_⟩
    rw [hsplit, List.append_assoc, List.cons_append, components_append_slash,
      hone as.reverse (fun h => has (List.mem_reverse.mp h))]
  · exact ⟨[], cs, hone cs hcs⟩

theorem ascend_of_ne {part : List Char} (h : part ≠ ['.', '.']) (absolute : Bool) (stack : List (List Char)) :
    ascend absolute stack part = part :: stack := by
  unfold ascend
  exact if_neg h

theorem Path.resolve_getLast? {p : Path} {init : List (List Char)} {part : List Char} (h : p.parts = init ++ [part])
    (hpart : part ≠ ['.', '.']) : p.resolve.parts.getLast? = some part := by
  rw [resolve, h, List.foldl_append, List.foldl_cons, List.foldl_nil, ascend_of_ne hpart, List.reverse_cons,
    List.getLast?_concat]

theorem Path.resolve_append {p : Path} {parts : List (List Char)} (h : ['.', '.'] ∉ parts) :
    (⟨p.root, p.parts ++ parts⟩ : Path).resolve = ⟨p.resolve.root, p.resolve.parts ++ parts⟩ := by
  have hfold : ∀ absolute stack, parts.foldl (ascend absolute) stack = parts.reverse ++ stack := by
    intro absolute
    induction parts with
    | nil => exact fun _ => rfl
    | cons part rest ih =>
      obtain ⟨hpart, hrest⟩ := List.ne_and_not_mem_of_not_mem_cons h
      intro stack
      rw [List.foldl_cons, ascend_of_ne hpart.symm, ih hrest, List.reverse_cons, List.append_assoc]
      rfl
  simp only [resolve, List.foldl_append, hfold, List.reverse_append, List.reverse_reverse]

theorem file_join {p q : String} (hq : isAbsolute q = false) (h : ['.', '.'] ∉ (parse q).parts) :
    file (join p q) = ⟨(file p).root, (file p).parts ++ (parse q).parts⟩ := by
  rw [file, parse_join, Path.join, if_pos (parse_root_eq_none.mpr hq), Path.resolve_append h]
  rfl

theorem file_join_name {p q : String} (hq : '/' ∉ q.toList) (hproper : Proper q.toList) (hup : q.toList ≠ ['.', '.']) :
    file (join p q) = ⟨(file p).root, (file p).parts ++ [q.toList]⟩ := by
  have hparts : (parse q).parts = [q.toList] := components_of_not_mem hq hproper
  have hrel : isAbsolute q = false := by
    refine decide_eq_false fun h => hq ?_
    exact List.mem_of_mem_head? h
  rw [file_join hrel (by rw [hparts]; simpa using hup.symm), hparts]

theorem file_ne_of_suffix {p q s t : String} (hs : '/' ∉ s.toList) (ht : '/' ∉ t.toList) (hs' : 2 < s.toList.length)
    (ht' : 2 < t.toList.length) (hst : s.toList.getLast? ≠ t.toList.getLast?) (hp : ∃ u, p = u ++ s)
    (hq : ∃ u, q = u ++ t) : file p ≠ file q := by
  obtain ⟨u, rfl⟩ := hp
  obtain ⟨w, rfl⟩ := hq
  have hlast : ∀ (u s : String), '/' ∉ s.toList → 2 < s.toList.length →
      ((file (u ++ s)).parts.getLast?.bind List.getLast?) = s.toList.getLast? := by
    intro u s hs hlong
    obtain ⟨init, v, hparts⟩ := exists_components_append u.toList hs (Nat.le_of_lt hlong)
    have hlen : 2 < (v ++ s.toList).length := by
      rw [List.length_append]
      omega
    have hne : v ++ s.toList ≠ ['.', '.'] := fun h => by
      rw [h] at hlen
      exact absurd hlen (by decide)
    have hsplit : (parse (u ++ s)).parts = init ++ [v ++ s.toList] := by rw [parse, String.toList_append, hparts]
    rw [file, Path.resolve_getLast? hsplit hne, Option.bind_some, List.getLast?_append_of_ne_nil]
    intro h
    rw [h] at hlong
    exact absurd hlong (by decide)
  intro h
  have := hlast u s hs hs'
  rw [h, hlast w t ht ht'] at this
  exact hst this.symm

theorem exists_join_append (p q s : String) : ∃ u, join p (q ++ s) = u ++ s := by
  unfold join
  split
  · exact ⟨q, rfl⟩
  · split
    · exact ⟨p ++ q, String.append_assoc.symm⟩
    · exact ⟨p ++ "/" ++ q, String.append_assoc.symm⟩

end Posix
