import Mathlib.Tactic.SplitIfs
import FireMarshal.Lib.Run
import FireMarshal.Rdma.Rxq

namespace FireMarshal.Rdma
namespace Rxq

variable {limit : Nat} {q q' : Rxq} {ts : BitVec 64} {out : Option (BitVec 64)}

/-! ### The queue -/

def queued (q : Rxq) : List (BitVec 64) := Ring.stretch q.buf q.head q.size

def Fits (q : Rxq) : Prop := q.head + q.size ≤ q.cap

@[simp] theorem length_queued (q : Rxq) : q.queued.length = q.size := Ring.length_stretch _ _ _

theorem lt_newcap (q : Rxq) : q.cap < q.newcap := by
  unfold newcap
  split_ifs <;> omega

structure Grown (limit : Nat) (q q' : Rxq) : Prop where
  queued : q'.queued = q.queued
  head : q'.head = 0
  size : q'.size = q.size
  cap : q'.cap = q.newcap
  served : q'.cap * 8 ≤ limit

theorem growAndCompact_spec (h : q.growAndCompact limit = some q') : Grown limit q q' := by
  unfold growAndCompact at h
  split_ifs at h with hlimit
  obtain rfl := Option.some.inj h
  exact ⟨Ring.stretch_copy, rfl, rfl, rfl, Nat.le_of_not_lt hlimit⟩

theorem Grown.fits (h : Grown limit q q') (hfits : q.Fits) : q'.head + q'.size < q'.cap := by
  have hle : q.head + q.size ≤ q.cap := hfits
  have hlt := q.lt_newcap
  rw [h.head, h.size, h.cap]
  omega

structure Pushed (ts : BitVec 64) (q q' : Rxq) : Prop where
  queued : q'.queued = q.queued ++ [ts]
  head : q'.head = q.head
  size : q'.size = q.size + 1
  cap : q'.cap = q.cap

theorem push_cases (h : q.push limit ts = some q') :
    ∃ q₁, (q₁ = q ∧ q.head + q.size < q.cap ∨ Grown limit q q₁) ∧ Pushed ts q₁ q' := by
  obtain ⟨q₁, hq₁, rfl⟩ := Option.map_eq_some_iff.mp h
  refine ⟨q₁, ?_, Ring.stretch_update _ _ _ _, rfl, rfl, rfl⟩
  split_ifs at hq₁ with hfull
  · exact .inr (growAndCompact_spec hq₁)
  · exact .inl ⟨(Option.some.inj hq₁).symm, by omega⟩

theorem push_spec (hfits : q.Fits) (h : q.push limit ts = some q') : q'.Fits ∧ q'.queued = q.queued ++ [ts] := by
  obtain ⟨q₁, hq₁, hpushed⟩ := push_cases h
  have hroom : q₁.head + q₁.size < q₁.cap ∧ q₁.queued = q.queued := by
    rcases hq₁ with ⟨rfl, hlt⟩ | hgrown
    · exact ⟨hlt, rfl⟩
    · exact ⟨hgrown.fits hfits, hgrown.queued⟩
  refine ⟨?_, by rw [hpushed.queued, hroom.2]⟩
  rw [Fits, hpushed.head, hpushed.size, hpushed.cap]
  exact hroom.1

structure Popped (out : Option (BitVec 64)) (q q' : Rxq) : Prop where
  ne : q.size ≠ 0
  out : out = q.queued.head?
  queued : q'.queued = q.queued.tail
  head : q'.head = q.head + 1
  size : q'.size = q.size - 1
  cap : q'.cap = q.cap

theorem popped (h : q.size ≠ 0) :
    Popped (some (q.buf q.head)) q { q with head := q.head + 1, size := q.size - 1 } := by
  have hqueued : q.queued = q.buf q.head :: Ring.stretch q.buf (q.head + 1) (q.size - 1) := by
    have hsucc : q.size = q.size - 1 + 1 := by omega
    rw [queued, hsucc, Ring.stretch_cons]
    rfl
  exact ⟨h, by rw [hqueued]; rfl, by rw [hqueued]; rfl, rfl, rfl, rfl⟩

theorem pop_cases (h : q.pop limit = some (out, q')) :
    (q.size = 0 ∧ out = none ∧ q' = q) ∨
      ∃ q₁, Popped out q q₁ ∧ (q' = q₁ ∧ ¬(q₁.head > 65536 ∧ q₁.size < q₁.cap / 4) ∨ Grown limit q₁ q') := by
  unfold pop at h
  split_ifs at h with hsize
  · obtain ⟨rfl, rfl⟩ := Prod.mk.inj (Option.some.inj h)
    exact .inl ⟨hsize, rfl, rfl⟩
  · obtain ⟨q₁, hq₁, heq⟩ := Option.map_eq_some_iff.mp h
    obtain ⟨rfl, rfl⟩ := Prod.mk.inj heq
    refine .inr ⟨_, popped hsize, ?_⟩
    split_ifs at hq₁ with hcompact
    · exact .inr (growAndCompact_spec hq₁)
    · exact .inl ⟨(Option.some.inj hq₁).symm, hcompact⟩

theorem Popped.fits (h : Popped out q q') (hfits : q.Fits) : q'.Fits := by
  have hle : q.head + q.size ≤ q.cap := hfits
  have hne := h.ne
  rw [Fits, h.head, h.size, h.cap]
  omega

theorem pop_spec (hfits : q.Fits) (h : q.pop limit = some (out, q')) :
    q'.Fits ∧ out = q.queued.head? ∧ q'.queued = q.queued.tail := by
  rcases pop_cases h with ⟨hsize, rfl, rfl⟩ | ⟨q₁, hpopped, hq'⟩
  · have hnil : q'.queued = [] := List.length_eq_zero_iff.mp (by rw [length_queued, hsize])
    rw [hnil]
    exact ⟨hfits, rfl, rfl⟩
  · have hfits₁ := hpopped.fits hfits
    rcases hq' with ⟨rfl, -⟩ | hgrown
    · exact ⟨hfits₁, hpopped.out, hpopped.queued⟩
    · exact ⟨Nat.le_of_lt (hgrown.fits hfits₁), hpopped.out, hgrown.queued.trans hpopped.queued⟩

/-! ### The capacity -/

def Short (k : Nat) (o : Option Rxq) : Prop := ∀ q ∈ o, q.size ≤ k

def Within (b : Nat) (o : Option Rxq) : Prop := ∀ q ∈ o, q.cap ≤ b

structure Sized (limit : Nat) (q : Rxq) : Prop where
  min : q.cap = 0 ∨ 4096 ≤ q.cap
  served : q.cap * 8 ≤ limit

theorem Grown.sized (h : Grown limit q q') (hsized : q.Sized limit) : q'.Sized limit := by
  refine ⟨.inr ?_, h.served⟩
  have hmin := hsized.min
  rw [h.cap, newcap]
  split_ifs <;> omega

structure Idle (limit : Nat) (q : Rxq) : Prop where
  sized : q.Sized limit
  size : q.size = 0
  head : q.head ≤ q.cap

structure Busy (limit : Nat) (q : Rxq) : Prop where
  sized : q.Sized limit
  size : q.size = 1
  head : q.head < q.cap

theorem Idle.push (h : Idle limit q) (hpush : q.push limit ts = some q') :
    Busy limit q' ∧ (q.cap < q'.cap ∨ q'.cap = q.cap ∧ q'.head = q.head) := by
  obtain ⟨q₁, hq₁, hpushed⟩ := push_cases hpush
  have hfits : q.Fits := by
    rw [Fits, h.size]
    exact h.head
  have hstart : q₁.Sized limit ∧ q₁.size = 0 ∧ q₁.head + q₁.size < q₁.cap ∧
      (q.cap < q₁.cap ∨ q₁.cap = q.cap ∧ q₁.head = q.head) := by
    rcases hq₁ with ⟨rfl, hlt⟩ | hgrown
    · exact ⟨h.sized, h.size, hlt, .inr ⟨rfl, rfl⟩⟩
    · refine ⟨hgrown.sized h.sized, hgrown.size.trans h.size, hgrown.fits hfits, .inl ?_⟩
      rw [hgrown.cap]
      exact q.lt_newcap
  obtain ⟨hsized, hsize, hroom, hcap⟩ := hstart
  rw [← hpushed.cap, ← hpushed.head] at hcap
  refine ⟨⟨⟨?_, ?_⟩, ?_, ?_⟩, hcap⟩
  · rw [hpushed.cap]
    exact hsized.min
  · rw [hpushed.cap]
    exact hsized.served
  · rw [hpushed.size, hsize]
  · rw [hpushed.cap, hpushed.head]
    omega

theorem Busy.pop (h : Busy limit q) (hpop : q.pop limit = some (out, q')) :
    Idle limit q' ∧ (q.cap < q'.cap ∨ q'.cap = q.cap ∧ q'.head = q.head + 1 ∧ q'.head ≤ 65536) := by
  have hsize := h.size
  have hhead := h.head
  rcases pop_cases hpop with ⟨hzero, -⟩ | ⟨q₁, hpopped, hq'⟩
  · omega
  · have hsized : q₁.Sized limit := by
      refine ⟨?_, ?_⟩ <;> rw [hpopped.cap]
      · exact h.sized.min
      · exact h.sized.served
    have hsize₁ : q₁.size = 0 := by rw [hpopped.size, hsize]
    have hhead₁ := hpopped.head
    have hcap₁ := hpopped.cap
    rcases hq' with ⟨rfl, hfar⟩ | hgrown
    · have hmin := hsized.min
      exact ⟨⟨hsized, hsize₁, by omega⟩, .inr ⟨hcap₁, hhead₁, by omega⟩⟩
    · refine ⟨⟨hgrown.sized hsized, hgrown.size.trans hsize₁, ?_⟩, .inl ?_⟩
      · rw [hgrown.head]
        exact Nat.zero_le _
      · rw [hgrown.cap, ← hcap₁]
        exact q₁.lt_newcap

/-- Some run with at most one timestamp in the queue ends with `P`, or with the exit of the process. -/
def Reaches (limit : Nat) (q : Rxq) (P : Rxq → Prop) : Prop :=
  ∃ ops, Run.Always (step limit) (some q) ops (Short 1) ∧ ∀ q' ∈ ops.foldl (step limit) (some q), P q'

variable {P P' : Rxq → Prop}

theorem short_some {k : Nat} (h : q.size ≤ k) : Short k (some q) := by
  rintro q' ⟨⟩
  exact h

theorem Reaches.of (h : q.size ≤ 1) (hP : P q) : Reaches limit q P := by
  refine ⟨[], Run.always_nil.mpr (short_some h), ?_⟩
  rintro q' ⟨⟩
  exact hP

theorem Reaches.trans (h : Reaches limit q P) (hP : ∀ q', P q' → Reaches limit q' P') : Reaches limit q P' := by
  obtain ⟨ops, hshort, hends⟩ := h
  cases hfold : ops.foldl (step limit) (some q) with
  | none => exact ⟨ops, hshort, by rw [hfold]; rintro q' ⟨⟩⟩
  | some q₁ =>
    obtain ⟨ops', hshort', hends'⟩ := hP q₁ (hends q₁ hfold)
    refine ⟨ops ++ ops', Run.always_append.mpr ⟨hshort, ?_⟩, ?_⟩
    · rwa [hfold]
    · rwa [List.foldl_append, hfold]

theorem Reaches.step (op : Op) (hsize : q.size ≤ 1) (h : ∀ q' ∈ step limit (some q) op, q'.size ≤ 1 ∧ P q') :
    Reaches limit q P := by
  refine ⟨[op], Run.always_cons.mpr ⟨short_some hsize, Run.always_nil.mpr ?_⟩, ?_⟩
  · exact fun q' hq' => (h q' hq').1
  · exact fun q' hq' => (h q' hq').2

theorem Idle.size_le (h : Idle limit q) : q.size ≤ 1 := by
  rw [h.size]
  exact Nat.zero_le 1

theorem Idle.reaches_push (h : Idle limit q) :
    Reaches limit q fun q' => Busy limit q' ∧ (q.cap < q'.cap ∨ q'.cap = q.cap ∧ q'.head = q.head) := by
  refine .step (.push 0) h.size_le fun q' hq' => ?_
  have hpush : q.push limit 0 = some q' := hq'
  exact ⟨Nat.le_of_eq (h.push hpush).1.size, h.push hpush⟩

theorem Busy.reaches_pop (h : Busy limit q) :
    Reaches limit q fun q' => Idle limit q' ∧
      (q.cap < q'.cap ∨ q'.cap = q.cap ∧ q'.head = q.head + 1 ∧ q'.head ≤ 65536) := by
  refine .step .pop (Nat.le_of_eq h.size) fun q' hq' => ?_
  obtain ⟨⟨out, q₁⟩, hpop, rfl⟩ := Option.map_eq_some_iff.mp hq'
  exact ⟨(h.pop hpop).1.size_le, h.pop hpop⟩

theorem Idle.round (h : Idle limit q) :
    Reaches limit q fun q' => Idle limit q' ∧
      (q.cap < q'.cap ∨ q'.cap = q.cap ∧ q'.head = q.head + 1 ∧ q'.head ≤ 65536) := by
  refine h.reaches_push.trans ?_
  rintro q₁ ⟨hbusy, hcap₁⟩
  refine hbusy.reaches_pop.trans ?_
  rintro q' ⟨hidle, hcap⟩
  exact .of hidle.size_le ⟨hidle, by omega⟩

theorem Idle.grows (h : Idle limit q) : Reaches limit q fun q' => Idle limit q' ∧ q.cap < q'.cap := by
  -- By induction on how far the queue is from the place where `rxq_pop` compacts it.
  induction hfar : 65536 - q.head generalizing q with
  | zero =>
    refine h.round.trans ?_
    rintro q' ⟨hidle, hcap⟩
    exact .of hidle.size_le ⟨hidle, by omega⟩
  | succ far ih =>
    refine h.round.trans ?_
    rintro q' ⟨hidle, hlt | ⟨hcap, hhead, -⟩⟩
    · exact .of hidle.size_le ⟨hidle, hlt⟩
    · rw [← hcap]
      exact ih hidle (by omega)

theorem Idle.exits (h : Idle limit q) : Reaches limit q fun _ => False := by
  induction hleft : limit - q.cap using Nat.strongRecOn generalizing q with
  | _ left ih =>
    refine h.grows.trans ?_
    rintro q' ⟨hidle, hlt⟩
    have hserved := hidle.sized.served
    exact ih (limit - q'.cap) (by omega) hidle rfl

theorem exists_exits (limit : Nat) :
    ∃ ops, Run.Always (step limit) (some {}) ops (Short 1) ∧ ops.foldl (step limit) (some {}) = none := by
  have hidle : Idle limit {} := ⟨⟨.inl rfl, Nat.zero_le _⟩, rfl, Nat.le_refl _⟩
  obtain ⟨ops, hshort, hends⟩ := hidle.exits
  exact ⟨ops, hshort, Option.eq_none_iff_forall_not_mem.mpr hends⟩

theorem exists_grown {b : Nat} (h : q.cap ≤ b) (full : Prop) [Decidable full] :
    ∃ q', (if full then q.growAndCompact (32768 + 16 * b) else some q) = some q' := by
  have hle : ¬32768 + 16 * b < q.newcap * 8 := by
    unfold newcap
    split_ifs <;> omega
  split_ifs
  · rw [growAndCompact, if_neg hle]
    exact ⟨_, rfl⟩
  · exact ⟨q, rfl⟩

theorem step_ne_none {b : Nat} (h : q.cap ≤ b) (op : Op) : step (32768 + 16 * b) (some q) op ≠ none := by
  cases op with
  | push ts =>
    obtain ⟨q', hq'⟩ := exists_grown h (q.cap = 0 ∨ q.head + q.size ≥ q.cap)
    show q.push _ ts ≠ none
    rw [push, hq']
    exact Option.some_ne_none _
  | pop =>
    show (q.pop _).map (·.2) ≠ none
    by_cases hsize : q.size = 0
    · rw [pop, if_pos hsize]
      exact Option.some_ne_none _
    · obtain ⟨q', hq'⟩ := exists_grown (q := { q with head := q.head + 1, size := q.size - 1 }) h
        (q.head + 1 > 65536 ∧ q.size - 1 < q.cap / 4)
      simp only [pop, if_neg hsize, hq', Option.map_some]
      exact Option.some_ne_none _

theorem Short.mono {k l : Nat} {o : Option Rxq} (hle : k ≤ l) (h : Short k o) : Short l o :=
  fun q hq => Nat.le_trans (h q hq) hle

theorem not_within (b : Nat) :
    ∃ limit ops, Run.Always (step limit) (some {}) ops (Short 1) ∧
      ¬Run.Always (step limit) (some {}) ops (Within b) := by
  obtain ⟨ops, hshort, hexit⟩ := exists_exits (32768 + 16 * b)
  refine ⟨_, ops, hshort, fun hwithin => ?_⟩
  have hruns : Run.Always (step (32768 + 16 * b)) (some {}) ops (· ≠ none) := by
    refine Run.always_of_always (Option.some_ne_none _) (fun o op hne hcap => ?_) hwithin
    obtain ⟨q, rfl⟩ := Option.ne_none_iff_exists'.mp hne
    exact step_ne_none (hcap q rfl) op
  exact hruns ops (List.prefix_refl _) hexit

theorem within_zero {ops : List Op} (h : Run.Always (step limit) (some {}) ops (Short 0)) :
    Run.Always (step limit) (some {}) ops (Within 0) := by
  have hinv : Run.Always (step limit) (some {}) ops fun o => ∀ q ∈ o, q.size = 0 → q.cap = 0 := by
    refine Run.always_of_always ?_ ?_ h
    · rintro q ⟨⟩ -
      rfl
    · intro o op hinv hshort q' hq' hsize
      cases o with
      | none => cases op <;> cases hq'
      | some q =>
        have hzero : q.size = 0 := Nat.le_zero.mp (hshort q rfl)
        cases op with
        | push ts =>
          obtain ⟨q₁, -, hpushed⟩ := push_cases hq'
          rw [hpushed.size] at hsize
          cases hsize
        | pop =>
          obtain ⟨⟨out, q₁⟩, hpop, rfl⟩ := Option.map_eq_some_iff.mp hq'
          rcases pop_cases hpop with ⟨-, -, rfl⟩ | ⟨q₂, hpopped, -⟩
          · exact hinv q₁ rfl hzero
          · exact absurd hzero hpopped.ne
  intro pre hpre q hq
  exact Nat.le_of_eq (hinv pre hpre q hq (Nat.le_zero.mp (h pre hpre q hq)))

end Rxq

open Rxq

/-- Only a queue that is always empty has a bound; any other exits in some run, however much memory there is. -/
theorem cap_bounded_iff (k : Nat) :
    ((∃ b, ∀ limit ops, Run.Always (step limit) (some {}) ops (Short k) →
        Run.Always (step limit) (some {}) ops (Within b)) ↔ k = 0) ∧
      (0 < k → ∀ limit, ∃ ops, Run.Always (step limit) (some {}) ops (Short k) ∧
        ops.foldl (step limit) (some {}) = none) := by
  refine ⟨⟨?_, ?_⟩, ?_⟩
  · rintro ⟨b, hb⟩
    by_contra hk
    obtain ⟨limit, ops, hshort, hnot⟩ := not_within b
    exact hnot (hb limit ops (hshort.mono fun _ => Short.mono (Nat.pos_of_ne_zero hk)))
  · rintro rfl
    exact ⟨0, fun limit ops => within_zero⟩
  · intro hk limit
    obtain ⟨ops, hshort, hexit⟩ := exists_exits limit
    exact ⟨ops, hshort.mono fun _ => Short.mono hk, hexit⟩

theorem cap_unbounded :
    ¬∃ b, ∀ limit ops, Run.Always (step limit) (some {}) ops (Short 1) →
      Run.Always (step limit) (some {}) ops (Within b) := by
  rintro ⟨b, hb⟩
  obtain ⟨limit, ops, hshort, hnot⟩ := not_within b
  exact hnot (hb limit ops hshort)

end FireMarshal.Rdma
