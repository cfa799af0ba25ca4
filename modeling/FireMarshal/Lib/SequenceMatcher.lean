import Mathlib.Data.List.Induction
import Mathlib.Logic.Function.Basic
import Mathlib.Tactic.Common

/-! Longest matching blocks of two sequences, as `difflib.SequenceMatcher` of Python finds them without a junk
predicate.

In a sequence of 200 or more elements, those that make up more than one percent are popular. `find_longest_match`
looks for the first longest block without popular elements, and then extends it on both sides by all elements that
match. -/

namespace SequenceMatcher

variable {α : Type} [DecidableEq α]

structure Match where
  a : Nat
  b : Nat
  size : Nat
deriving DecidableEq, Repr

def popular (b : List α) (x : α) : Bool := 200 ≤ b.length && b.length / 100 + 1 < b.count x

/-- The dictionary `b2j`, which has the indices of all elements that are not popular. -/
def b2j (b : List α) (x : α) : List Nat :=
  if popular b x then [] else (List.range b.length).filter fun j => b[j]? = some x

/-- The variables of the loop; `j2len` gives 0 for missing keys. -/
structure Scan where
  j2len : Nat → Nat
  best : Match

def scanCell (i : Nat) (j2len : Nat → Nat) (s : Scan) (j : Nat) : Scan :=
  let k := (if j = 0 then 0 else j2len (j - 1)) + 1
  { j2len := Function.update s.j2len j k
    best := if s.best.size < k then ⟨i + 1 - k, j + 1 - k, k⟩ else s.best }

def scanRow (b : List α) (s : Scan) (p : α × Nat) : Scan :=
  (b2j b p.1).foldl (scanCell p.2 s.j2len) { s with j2len := fun _ => 0 }

def scan (a b : List α) : Scan := a.zipIdx.foldl (scanRow b) ⟨fun _ => 0, ⟨0, 0, 0⟩⟩

def extendLeft (a b : List α) : Nat → Nat → Nat → Match
  | i + 1, j + 1, k => if a[i]? = b[j]? then extendLeft a b i j (k + 1) else ⟨i + 1, j + 1, k⟩
  | i, j, k => ⟨i, j, k⟩

/-- How often the second loop that extends the block runs. -/
def commonPrefix : List α → List α → Nat
  | x :: xs, y :: ys => if x = y then commonPrefix xs ys + 1 else 0
  | _, _ => 0

def findLongestMatch (a b : List α) : Match :=
  let best := (scan a b).best
  let m := extendLeft a b best.a best.b best.size
  { m with size := m.size + commonPrefix (a.drop (m.a + m.size)) (b.drop (m.b + m.size)) }

/-! ### Blocks -/

variable {a b : List α} {i j k : Nat} {m : Match}

/-- `k` elements from `i` in `a` and from `j` in `b` are the same. -/
def Agree (a b : List α) (i j k : Nat) : Prop := ∀ t < k, ∃ x, a[i + t]? = some x ∧ b[j + t]? = some x

def Block (a b : List α) (i j k : Nat) : Prop :=
  ∀ t < k, ∃ x, a[i + t]? = some x ∧ b[j + t]? = some x ∧ popular b x = false

/-- The block that starts first in `a`, and then first in `b`, among the longest ones without popular elements. If
    there are no such elements, it is empty and at the start. -/
structure FirstLongest (a b : List α) (m : Match) : Prop where
  block : Block a b m.a m.b m.size
  longest : ∀ i j k, Block a b i j k → k ≤ m.size
  first : 0 < m.size → ∀ i j, Block a b i j m.size → m.a < i ∨ m.a = i ∧ m.b ≤ j
  empty : m.size = 0 → m.a = 0 ∧ m.b = 0

theorem Block.agree (h : Block a b i j k) : Agree a b i j k := by
  intro t ht
  obtain ⟨x, ha, hb, -⟩ := h t ht
  exact ⟨x, ha, hb⟩

theorem FirstLongest.unique {m' : Match} (h : FirstLongest a b m) (h' : FirstLongest a b m') : m = m' := by
  have hsize : m.size = m'.size := Nat.le_antisymm (h'.longest _ _ _ h.block) (h.longest _ _ _ h'.block)
  obtain ⟨i, j, k⟩ := m
  obtain ⟨i', j', k'⟩ := m'
  obtain rfl : k = k' := hsize
  rcases Nat.eq_zero_or_pos k with hk | hk
  · obtain ⟨rfl, rfl⟩ : i = 0 ∧ j = 0 := h.empty hk
    obtain ⟨rfl, rfl⟩ : i' = 0 ∧ j' = 0 := h'.empty hk
    rfl
  · have h₁ : i < i' ∨ i = i' ∧ j ≤ j' := h.first hk i' j' h'.block
    have h₂ : i' < i ∨ i' = i ∧ j' ≤ j := h'.first hk i j h.block
    obtain ⟨rfl, rfl⟩ : i = i' ∧ j = j' := by omega
    rfl

/-! ### The search -/

/-- The length of the longest block that ends before `i` in `a` and before `j` in `b`. -/
def runLen (a b : List α) : Nat → Nat → Nat
  | i + 1, j + 1 => if ∃ x ∈ a[i]?, b[j]? = some x ∧ popular b x = false then runLen a b i j + 1 else 0
  | _, _ => 0

theorem runLen_hit {x : α} (ha : a[i]? = some x) (hb : b[j]? = some x) (hpop : popular b x = false) :
    runLen a b (i + 1) (j + 1) = runLen a b i j + 1 :=
  if_pos ⟨x, ha, hb, hpop⟩

theorem runLen_le (a b : List α) : ∀ i j, runLen a b i j ≤ i ∧ runLen a b i j ≤ j
  | 0, j => by simp [runLen]
  | i + 1, 0 => by simp [runLen]
  | i + 1, j + 1 => by
    have := runLen_le a b i j
    unfold runLen
    split <;> omega

theorem block_runLen (a b : List α) :
    ∀ i j, Block a b (i - runLen a b i j) (j - runLen a b i j) (runLen a b i j)
  | 0, j => by simp [runLen, Block]
  | i + 1, 0 => by simp [runLen, Block]
  | i + 1, j + 1 => by
    have ih := block_runLen a b i j
    have hle := runLen_le a b i j
    unfold runLen
    split
    · next hx =>
      rw [Nat.add_sub_add_right, Nat.add_sub_add_right]
      intro t ht
      rcases Nat.lt_succ_iff_lt_or_eq.mp ht with ht | rfl
      · exact ih t ht
      · obtain ⟨x, ha, hb, hpop⟩ := hx
        rw [Nat.sub_add_cancel hle.1, Nat.sub_add_cancel hle.2]
        exact ⟨x, ha, hb, hpop⟩
    · exact fun t ht => absurd ht (Nat.not_lt_zero t)

theorem le_runLen (h : Block a b i j k) : k ≤ runLen a b (i + k) (j + k) := by
  induction k with
  | zero => exact Nat.zero_le _
  | succ k ih =>
    obtain ⟨x, ha, hb, hpop⟩ := h k (Nat.lt_succ_self k)
    rw [← Nat.add_assoc, ← Nat.add_assoc, runLen_hit ha hb hpop]
    exact Nat.succ_le_succ (ih fun t ht => h t (Nat.lt_succ_of_lt ht))

/-- The rows below `i` are done, and row `i` up to column `j`; `m` is the first longest block that ends there. -/
structure Best (a b : List α) (i j : Nat) (m : Match) : Prop where
  le : ∀ x y, x < i ∨ x = i ∧ y < j → runLen a b (x + 1) (y + 1) ≤ m.size
  empty : m.size = 0 → m.a = 0 ∧ m.b = 0
  block : Block a b m.a m.b m.size
  first : 0 < m.size → ∀ x y, m.size ≤ runLen a b (x + 1) (y + 1) →
    m.a + m.size < x + 1 ∨ m.a + m.size = x + 1 ∧ m.b + m.size ≤ y + 1

theorem Best.skip (h : Best a b i j m) (hzero : runLen a b (i + 1) (j + 1) ≤ m.size) : Best a b i (j + 1) m := by
  refine { h with le := fun x y hxy => ?_ }
  by_cases hlast : x = i ∧ y = j
  · rw [hlast.1, hlast.2]
    exact hzero
  · exact h.le x y (by omega)

theorem Best.improve (h : Best a b i j m) (hk : m.size < runLen a b (i + 1) (j + 1)) :
    Best a b i (j + 1) ⟨i + 1 - runLen a b (i + 1) (j + 1), j + 1 - runLen a b (i + 1) (j + 1),
      runLen a b (i + 1) (j + 1)⟩ := by
  have hle := runLen_le a b (i + 1) (j + 1)
  refine ⟨fun x y hxy => ?_, fun hzero => ?_, block_runLen a b (i + 1) (j + 1), fun _ x y hxy => ?_⟩
  · by_cases hlast : x = i ∧ y = j
    · obtain ⟨rfl, rfl⟩ := hlast
      exact Nat.le_refl _
    · exact Nat.le_of_lt (Nat.lt_of_le_of_lt (h.le x y (by omega)) hk)
  · simp only at hzero
    omega
  · simp only at hxy ⊢
    rw [Nat.sub_add_cancel hle.1, Nat.sub_add_cancel hle.2]
    by_cases hbefore : x < i ∨ x = i ∧ y < j
    · have := h.le x y hbefore
      omega
    · omega

/-- The state of the scan within row `i`: what `j2len` will be for the next row, and the best block so far. -/
structure RowInv (a b : List α) (i j : Nat) (s : Scan) : Prop where
  j2len : ∀ y, s.j2len y = if y < j then runLen a b (i + 1) (y + 1) else 0
  best : Best a b i j s.best

theorem RowInv.cell {s : Scan} {x : α} {j2len : Nat → Nat} (h : RowInv a b i j s) (hx : a[i]? = some x)
    (hpop : popular b x = false) (hlen : ∀ y, j2len y = runLen a b i (y + 1)) :
    RowInv a b i (j + 1) (if b[j]? = some x then scanCell i j2len s j else s) := by
  by_cases hb : b[j]? = some x
  · have hk : (if j = 0 then 0 else j2len (j - 1)) + 1 = runLen a b (i + 1) (j + 1) := by
      rw [runLen_hit hx hb hpop]
      cases j with
      | zero => simp [Nat.le_zero.mp (runLen_le a b i 0).2]
      | succ j => simp [hlen]
    rw [if_pos hb]
    unfold scanCell
    simp only [hk]
    refine ⟨fun y => ?_, ?_⟩
    · by_cases hy : y = j
      · simp [hy]
      · have hlt : y < j + 1 ↔ y < j := Nat.lt_succ_iff_lt_or_eq.trans (or_iff_left hy)
        simp only [Function.update_of_ne hy, h.j2len, hlt]
    · simp only
      split
      · next hlt => exact h.best.improve hlt
      · next hge => exact h.best.skip (Nat.le_of_not_lt hge)
  · have hzero : runLen a b (i + 1) (j + 1) = 0 := by
      rw [runLen, if_neg]
      rintro ⟨y, hy, hby, -⟩
      rw [Option.mem_def, hx] at hy
      exact hb (by rw [hby, ← hy])
    rw [if_neg hb]
    refine ⟨fun y => ?_, h.best.skip (by omega)⟩
    rw [h.j2len]
    by_cases hy : y = j
    · simp [hy, hzero]
    · have hlt : y < j + 1 ↔ y < j := Nat.lt_succ_iff_lt_or_eq.trans (or_iff_left hy)
      simp only [hlt]

theorem RowInv.start (h : Best a b i 0 m) : RowInv a b i 0 ⟨fun _ => 0, m⟩ := ⟨fun y => by simp, h⟩

theorem Best.row (h : Best a b i b.length m) : Best a b (i + 1) 0 m := by
  refine { h with le := fun x y hxy => ?_ }
  by_cases hy : y < b.length
  · exact h.le x y (by omega)
  · have hb : b[y]? = none := List.getElem?_eq_none (Nat.le_of_not_lt hy)
    simp [runLen, hb]

theorem scanRow_spec {s : Scan} {x : α} (hx : a[i]? = some x) (hlen : ∀ y, s.j2len y = runLen a b i (y + 1))
    (hbest : Best a b i 0 s.best) :
    (∀ y, (scanRow b s (x, i)).j2len y = runLen a b (i + 1) (y + 1)) ∧
      Best a b (i + 1) 0 (scanRow b s (x, i)).best := by
  have hnone : ∀ y, popular b x = true ∨ b.length ≤ y → runLen a b (i + 1) (y + 1) = 0 := by
    intro y hy
    rw [runLen, if_neg]
    rintro ⟨z, hz, hbz, hpop⟩
    obtain rfl : x = z := Option.some.inj (hx.symm.trans hz)
    rcases hy with hy | hy
    · simp [hpop] at hy
    · simp [List.getElem?_eq_none hy] at hbz
  cases hpop : popular b x with
  | true =>
    have hrow : scanRow b s (x, i) = ⟨fun _ => 0, s.best⟩ := by simp [scanRow, b2j, hpop]
    rw [hrow]
    refine ⟨fun y => (hnone y (.inl hpop)).symm, Best.row ?_⟩
    refine { hbest with le := fun z y hzy => ?_ }
    rcases hzy with hz | ⟨rfl, -⟩
    · exact hbest.le z y (.inl hz)
    · rw [hnone y (.inl hpop)]
      exact Nat.zero_le _
  | false =>
    -- The columns up to `n`, by induction on `n`.
    have hcols : ∀ n, RowInv a b i n ((List.range n).foldl
        (fun s' j => if b[j]? = some x then scanCell i s.j2len s' j else s') ⟨fun _ => 0, s.best⟩) := by
      intro n
      induction n with
      | zero => exact RowInv.start hbest
      | succ n ih =>
        rw [List.range_succ, List.foldl_append]
        exact ih.cell hx hpop hlen
    have hrow := hcols b.length
    have heq : scanRow b s (x, i) = (List.range b.length).foldl
        (fun s' j => if b[j]? = some x then scanCell i s.j2len s' j else s') ⟨fun _ => 0, s.best⟩ := by
      simp [scanRow, b2j, hpop, List.foldl_filter]
    rw [heq]
    refine ⟨fun y => ?_, hrow.best.row⟩
    rw [hrow.j2len]
    split
    · rfl
    · next hy => exact (hnone y (.inr (Nat.le_of_not_lt hy))).symm

theorem best_start (a b : List α) : Best a b 0 0 ⟨0, 0, 0⟩ where
  le x y h := by omega
  empty _ := ⟨rfl, rfl⟩
  block t ht := absurd ht (Nat.not_lt_zero t)
  first h := absurd h (Nat.lt_irrefl 0)

theorem scan_spec (a b : List α) : ∀ l, l <+: a →
    (∀ y, (l.zipIdx.foldl (scanRow b) ⟨fun _ => 0, ⟨0, 0, 0⟩⟩).j2len y = runLen a b l.length (y + 1)) ∧
      Best a b l.length 0 (l.zipIdx.foldl (scanRow b) ⟨fun _ => 0, ⟨0, 0, 0⟩⟩).best := by
  intro l
  induction l using List.reverseRecOn with
  | nil => exact fun _ => ⟨fun y => by simp [runLen], best_start a b⟩
  | append_singleton l x ih =>
    intro hl
    obtain ⟨hlen, hbest⟩ := ih ((List.prefix_append l [x]).trans hl)
    have hx : a[l.length]? = some x := by
      obtain ⟨rest, rfl⟩ := hl
      simp
    rw [List.zipIdx_append, List.foldl_append, List.length_append]
    simpa using scanRow_spec hx hlen hbest

/-- The search finds the first longest block. -/
theorem firstLongest_scan (a b : List α) : FirstLongest a b (scan a b).best := by
  obtain ⟨-, hbest⟩ := scan_spec a b a (List.prefix_refl a)
  refine ⟨hbest.block, fun i j k hblock => ?_, fun hpos i j hblock => ?_, hbest.empty⟩
  · cases k with
    | zero => exact Nat.zero_le _
    | succ k =>
      obtain ⟨x, ha, -⟩ := hblock k (Nat.lt_succ_self k)
      have hlt : i + k < a.length := (List.getElem?_eq_some_iff.mp ha).1
      exact Nat.le_trans (le_runLen hblock) (hbest.le (i + k) (j + k) (.inl hlt))
  · have hle := le_runLen hblock
    have hfirst := hbest.first hpos (i + (scan a b).best.size - 1) (j + (scan a b).best.size - 1)
    rw [Nat.sub_add_cancel (by omega), Nat.sub_add_cancel (by omega)] at hfirst
    have := hfirst hle
    simp only [scan] at this hpos ⊢
    omega

/-! ### Extension -/

theorem extendLeft_spec (hi : i ≤ a.length) (h : Agree a b i j k) :
    ∃ d ≤ i, d ≤ j ∧ extendLeft a b i j k = ⟨i - d, j - d, k + d⟩ ∧ Agree a b (i - d) (j - d) (k + d) ∧
      (d < i → d < j → a[i - d - 1]? ≠ b[j - d - 1]?) := by
  induction i generalizing j k with
  | zero => exact ⟨0, Nat.le_refl 0, Nat.zero_le j, by cases j <;> rfl, h, fun hi => absurd hi (Nat.lt_irrefl 0)⟩
  | succ i ih =>
    cases j with
    | zero => exact ⟨0, Nat.zero_le _, Nat.le_refl 0, rfl, h, fun _ hj => absurd hj (Nat.lt_irrefl 0)⟩
    | succ j =>
      by_cases heq : a[i]? = b[j]?
      · have hagree : Agree a b i j (k + 1) := by
          intro t ht
          cases t with
          | zero => exact ⟨a[i], List.getElem?_eq_getElem hi, by rw [Nat.add_zero, ← heq, List.getElem?_eq_getElem hi]⟩
          | succ t => simpa [Nat.add_comm, Nat.add_left_comm] using h t (Nat.lt_of_succ_lt_succ ht)
        obtain ⟨d, hdi, hdj, hext, hall, hstop⟩ := ih (Nat.le_of_succ_le hi) hagree
        refine ⟨d + 1, by omega, by omega, ?_, ?_, fun hi' hj' => ?_⟩
        · rw [extendLeft, if_pos heq, hext]
          simp only [Match.mk.injEq]
          omega
        · rwa [Nat.add_sub_add_right, Nat.add_sub_add_right, Nat.add_comm d 1, ← Nat.add_assoc]
        · rw [Nat.add_sub_add_right, Nat.add_sub_add_right]
          exact hstop (by omega) (by omega)
      · exact ⟨0, Nat.zero_le _, Nat.zero_le _, by rw [extendLeft, if_neg heq]; rfl, h, fun _ _ => heq⟩

theorem commonPrefix_le (a b : List α) : commonPrefix a b ≤ a.length := by
  induction a generalizing b with
  | nil => exact Nat.le_refl 0
  | cons x xs ih =>
    cases b with
    | nil => exact Nat.zero_le _
    | cons y ys =>
      rw [commonPrefix]
      split
      · exact Nat.succ_le_succ (ih ys)
      · exact Nat.zero_le _

theorem commonPrefix_eq_length : commonPrefix a b = a.length ↔ a <+: b := by
  induction a generalizing b with
  | nil => simp [commonPrefix]
  | cons x xs ih =>
    cases b with
    | nil => simp [commonPrefix]
    | cons y ys =>
      rw [commonPrefix, List.cons_prefix_cons, ← ih]
      split <;> simp_all

def OccursAt (a b : List α) (d : Nat) : Prop := a <+: b.drop d

omit [DecidableEq α] in
theorem isInfix_iff_occursAt : a <:+: b ↔ ∃ d, OccursAt a b d := by
  constructor
  · rintro ⟨l, r, rfl⟩
    exact ⟨l.length, r, by simp⟩
  · rintro ⟨d, hd⟩
    exact hd.isInfix.trans (List.drop_suffix d b).isInfix

omit [DecidableEq α] in
theorem occursAt_iff {d : Nat} : OccursAt a b d ↔ Agree a b 0 d a.length := by
  rw [OccursAt, List.prefix_iff_getElem?]
  simp only [List.getElem?_drop, Agree, Nat.zero_add]
  constructor
  · exact fun h t ht => ⟨a[t], List.getElem?_eq_getElem ht, h t ht⟩
  · intro h t ht
    obtain ⟨x, ha, hb⟩ := h t ht
    rw [hb, ← ha, List.getElem?_eq_getElem ht]

omit [DecidableEq α] in
theorem Agree.end_le (h : Agree a b i j k) (hi : i ≤ a.length) : i + k ≤ a.length := by
  cases k with
  | zero => exact hi
  | succ k =>
    obtain ⟨x, ha, -⟩ := h k (Nat.lt_succ_self k)
    exact (List.getElem?_eq_some_iff.mp ha).1

omit [DecidableEq α] in
theorem occursAt_of_agree {d : Nat} (h : Agree a b 0 d k) (hrest : a.drop k <+: b.drop (d + k)) : OccursAt a b d := by
  rw [occursAt_iff]
  intro t ht
  by_cases htk : t < k
  · exact h t htk
  · have hdrop := occursAt_iff.mp hrest (t - k) (by rw [List.length_drop]; omega)
    rw [List.getElem?_drop] at hdrop
    have hk : k + (0 + (t - k)) = 0 + t := by omega
    have hd : d + k + (t - k) = d + t := by omega
    rwa [hk, hd] at hdrop

theorem FirstLongest.start_le (hm : FirstLongest a b m) : m.a ≤ a.length := by
  rcases Nat.eq_zero_or_pos m.size with hzero | hpos
  · rw [(hm.empty hzero).1]
    exact Nat.zero_le _
  · obtain ⟨x, ha, -⟩ := hm.block 0 hpos
    exact Nat.le_of_lt (List.getElem?_eq_some_iff.mp ha).1

/-- The block that is found covers all of `a` just if `a` occurs in `b` around the first longest block. -/
theorem findLongestMatch_size (hm : FirstLongest a b m) :
    (findLongestMatch a b).size = a.length ↔ m.a ≤ m.b ∧ OccursAt a b (m.b - m.a) := by
  obtain rfl := hm.unique (firstLongest_scan a b)
  obtain ⟨d, hda, hdb, hext, hagree, hstop⟩ := extendLeft_spec hm.start_le hm.block.agree
  simp only [findLongestMatch, hext]
  generalize (scan a b).best = m at *
  have hend := hagree.end_le (Nat.le_trans (Nat.sub_le m.a d) hm.start_le)
  have hle := commonPrefix_le (a.drop (m.a - d + (m.size + d))) (b.drop (m.b - d + (m.size + d)))
  rw [List.length_drop] at hle
  constructor
  · intro hsize
    have hd : m.a = d := by omega
    rw [hd, Nat.sub_self] at hagree hsize hle
    rw [Nat.zero_add] at hsize hle
    refine ⟨by omega, hd ▸ occursAt_of_agree hagree (commonPrefix_eq_length.mp ?_)⟩
    rw [List.length_drop]
    omega
  · rintro ⟨hab, hoccurs⟩
    have hd : d = m.a := by
      by_contra hne
      obtain ⟨x, ha, hb⟩ := occursAt_iff.mp hoccurs (m.a - d - 1) (by have := hm.start_le; omega)
      refine hstop (by omega) (by omega) ?_
      rw [Nat.zero_add] at ha
      rw [ha, ← hb]
      congr 1
      omega
    subst hd
    rw [Nat.sub_self, Nat.zero_add] at hend ⊢
    have hrest : a.drop (m.size + m.a) <+: b.drop (m.b - m.a + (m.size + m.a)) := by
      obtain ⟨r, hr⟩ := hoccurs
      rw [← List.drop_drop (l := b), ← hr, List.drop_append_of_le_length hend]
      exact List.prefix_append _ r
    rw [commonPrefix_eq_length.mpr hrest, List.length_drop]
    omega

/-! ### Occurrences that are always found -/

theorem findLongestMatch_of_length_lt (hb : b.length < 200) :
    (findLongestMatch a b).size = a.length ↔ a <:+: b := by
  have hm := firstLongest_scan a b
  rw [findLongestMatch_size hm, isInfix_iff_occursAt]
  refine ⟨fun h => ⟨_, h.2⟩, ?_⟩
  rintro ⟨d, hd⟩
  have hpop : ∀ x, popular b x = false := by
    intro x
    simp [popular, Nat.not_le.mpr hb]
  have hblock : Block a b 0 d a.length := by
    intro t ht
    obtain ⟨x, ha, hx⟩ := occursAt_iff.mp hd t ht
    exact ⟨x, ha, hx, hpop x⟩
  -- All of `a` is a block, so that the longest one is all of `a` too.
  have hlong := hm.longest 0 d a.length hblock
  have hend := hm.block.agree.end_le hm.start_le
  have hagree := hm.block.agree
  have ha : (scan a b).best.a = 0 := by omega
  have hsize : (scan a b).best.size = a.length := by omega
  rw [ha, hsize] at hagree
  rw [ha]
  exact ⟨Nat.zero_le _, occursAt_iff.mpr hagree⟩

end SequenceMatcher
