import Mathlib.Data.List.Basic
import Mathlib.Tactic.Common

/-! In-order request engines, as a driver sees a device through its registers.

An engine takes up queued requests, works on them in order, and completes each with some information
that the driver reads later. It holds at most `depth` queued requests and at most `depth` unread
completions, and works on at most `cap` requests at a time. Unread completions are kept with their
requests, where hardware may only count them. -/

structure Engine (ρ ι : Type) where
  queued : List ρ
  inflight : List ρ
  comps : List (ρ × ι)
deriving DecidableEq, Repr

namespace Engine

inductive Step (ι : Type) where
  | take
  /-- The engine completes the oldest request that it works on. -/
  | complete (info : ι)
deriving DecidableEq, Repr

variable {ρ ι : Type}

def init : Engine ρ ι := ⟨[], [], []⟩

def step (depth cap : Nat) (e : Engine ρ ι) : Step ι → Engine ρ ι
  | .take =>
    match e.queued with
    | [] => e
    | r :: rest => if e.inflight.length < cap then { e with queued := rest, inflight := e.inflight ++ [r] } else e
  | .complete info =>
    match e.inflight with
    | [] => e
    | r :: rest =>
      if e.comps.length < depth then { e with inflight := rest, comps := e.comps ++ [(r, info)] } else e

/-- The driver writes a request; a full queue does not accept it. -/
def request (depth : Nat) (e : Engine ρ ι) (r : ρ) : Engine ρ ι :=
  if e.queued.length < depth then { e with queued := e.queued ++ [r] } else e

/-- The driver reads a completion, which consumes the oldest one. -/
def read (e : Engine ρ ι) : Engine ρ ι := { e with comps := e.comps.tail }

def outstanding (e : Engine ρ ι) : List ρ := e.comps.map Prod.fst ++ e.inflight ++ e.queued

structure Bounded (depth cap : Nat) (e : Engine ρ ι) : Prop where
  queued : e.queued.length ≤ depth
  inflight : e.inflight.length ≤ cap
  comps : e.comps.length ≤ depth

/-- The engine came from `e` to `e'` on its own: it only moved requests from queued over in flight to
    completed. -/
structure Progress (depth cap : Nat) (e e' : Engine ρ ι) : Prop where
  outstanding : e'.outstanding = e.outstanding
  queued : e'.queued.length ≤ e.queued.length
  comps : e.comps <+: e'.comps
  bounded : e.Bounded depth cap → e'.Bounded depth cap

variable {depth cap : Nat} {e e' e'' : Engine ρ ι}

@[simp] theorem outstanding_init : (init : Engine ρ ι).outstanding = [] := rfl

theorem bounded_init : (init : Engine ρ ι).Bounded depth cap := ⟨by simp [init], by simp [init], by simp [init]⟩

theorem length_outstanding : e.outstanding.length = e.comps.length + e.inflight.length + e.queued.length := by
  simp [outstanding, Nat.add_assoc]

theorem Bounded.outstanding_le (h : e.Bounded depth cap) : e.outstanding.length ≤ depth + cap + depth := by
  have hq := h.queued
  have hi := h.inflight
  have hc := h.comps
  rw [length_outstanding]
  omega

namespace Progress

theorem refl (e : Engine ρ ι) : Progress depth cap e e := ⟨rfl, Nat.le_refl _, List.prefix_refl _, id⟩

theorem trans (h₁ : Progress depth cap e e') (h₂ : Progress depth cap e' e'') : Progress depth cap e e'' where
  outstanding := h₂.outstanding.trans h₁.outstanding
  queued := Nat.le_trans h₂.queued h₁.queued
  comps := h₁.comps.trans h₂.comps
  bounded := h₂.bounded ∘ h₁.bounded

theorem step (depth cap : Nat) (e : Engine ρ ι) (st : Step ι) : Progress depth cap e (e.step depth cap st) := by
  cases st with
  | take =>
    simp only [Engine.step]
    split
    · exact refl e
    · next r rest hq =>
      split
      · next hroom =>
        refine ⟨by simp [Engine.outstanding, hq], by simp [hq], List.prefix_refl _, fun h => ?_⟩
        have := h.queued
        simp only [hq, List.length_cons] at this
        exact ⟨Nat.le_of_succ_le this, by simpa using Nat.succ_le_of_lt hroom, h.comps⟩
      · exact refl e
  | complete info =>
    simp only [Engine.step]
    split
    · exact refl e
    · next r rest hi =>
      split
      · next hroom =>
        refine ⟨by simp [Engine.outstanding, hi], Nat.le_refl _, List.prefix_append _ _, fun h => ?_⟩
        have := h.inflight
        simp only [hi, List.length_cons] at this
        exact ⟨h.queued, Nat.le_of_succ_le this, by simpa using Nat.succ_le_of_lt hroom⟩
      · exact refl e

theorem foldl (depth cap : Nat) (e : Engine ρ ι) (sts : List (Step ι)) :
    Progress depth cap e (sts.foldl (Engine.step depth cap) e) := by
  induction sts generalizing e with
  | nil => exact refl e
  | cons st sts ih => exact (step depth cap e st).trans (ih _)

end Progress

/-- The engine completes and takes up a request, `n` times. -/
def busy (info : ι) : Nat → List (Step ι)
  | 0 => []
  | n + 1 => .complete info :: .take :: busy info n

theorem length_queued_take (e : Engine ρ ι) : (e.step depth cap .take).queued.length =
    if e.inflight.length < cap then e.queued.length - 1 else e.queued.length := by
  simp only [step]
  split
  · next hq => simp [hq]
  · next r rest hq => split <;> simp [hq]

theorem room_of_complete (info : ι) (hcap : 0 < cap) (hb : e.Bounded depth cap) :
    (e.step depth cap (.complete info)).inflight.length < cap ∨
      depth ≤ (e.step depth cap (.complete info)).comps.length := by
  simp only [step]
  split
  · next hi => exact .inl (by simpa [hi] using hcap)
  · next r rest hi =>
    split
    · have := hb.inflight
      rw [hi, List.length_cons] at this
      exact .inl this
    · next hroom => exact .inr (Nat.le_of_not_lt hroom)

theorem length_queued_busy {info : ι} (hcap : 0 < cap) (hb : e.Bounded depth cap) {n : Nat}
    (hn : e.queued.length ≤ n) :
    ((busy info n).foldl (step depth cap) e).queued.length ≤ e.outstanding.length - (depth + cap) := by
  induction n generalizing e with
  | zero => simp [busy, Nat.le_zero.mp hn]
  | succ n ih =>
    have hp := Progress.step depth cap e (.complete info)
    have hp' := Progress.step depth cap (e.step depth cap (.complete info)) .take
    rw [busy, List.foldl_cons, List.foldl_cons]
    by_cases hroom : (e.step depth cap (.complete info)).inflight.length < cap
    · rw [← hp.outstanding, ← hp'.outstanding]
      refine ih (hp'.bounded (hp.bounded hb)) ?_
      rw [length_queued_take, if_pos hroom]
      have := hp.queued
      omega
    · have hfull := (room_of_complete info hcap hb).resolve_left hroom
      have hq := (hp'.trans (.foldl _ _ _ (busy info n))).queued
      have hlen := congrArg List.length hp.outstanding
      rw [length_outstanding] at hlen
      omega

theorem outstanding_request {r : ρ} (h : e.queued.length < depth) :
    (e.request depth r).outstanding = e.outstanding ++ [r] := by
  simp [request, h, outstanding]

theorem length_queued_request {r : ρ} : (e.request depth r).queued.length ≤ e.queued.length + 1 := by
  unfold request
  split <;> simp

theorem Bounded.request {r : ρ} (h : e.Bounded depth cap) : (e.request depth r).Bounded depth cap := by
  unfold Engine.request
  split
  · next hroom => exact ⟨by simpa using Nat.succ_le_of_lt hroom, h.inflight, h.comps⟩
  · exact h

theorem Bounded.read (h : e.Bounded depth cap) : e.read.Bounded depth cap := by
  refine ⟨h.queued, h.inflight, ?_⟩
  have := h.comps
  simp only [Engine.read, List.length_tail]
  omega

theorem read_of_pos (h : 0 < e.comps.length) :
    ∃ c, e.comps.head? = some c ∧ e.outstanding = c.1 :: e.read.outstanding ∧
      e.comps.length = e.read.comps.length + 1 := by
  cases hc : e.comps with
  | nil => simp [hc] at h
  | cons c rest => exact ⟨c, by simp, by simp [outstanding, read, hc], by simp [read, hc]⟩

theorem outstanding_drop {n : Nat} (hn : n ≤ e.comps.length) :
    ({ e with comps := e.comps.drop n } : Engine ρ ι).outstanding = e.outstanding.drop n := by
  simp only [outstanding, List.append_assoc, List.map_drop]
  rw [List.drop_append_of_le_length (by simpa using hn)]

theorem Bounded.drop {n : Nat} (h : e.Bounded depth cap) :
    ({ e with comps := e.comps.drop n } : Engine ρ ι).Bounded depth cap :=
  ⟨h.queued, h.inflight, Nat.le_trans (List.drop_sublist _ _).length_le h.comps⟩

end Engine
