import Mathlib.Data.List.Basic
import Mathlib.Tactic.Common

/-! Routines that return a code as soon as a step fails, with the state that they leave then. A routine that comes to
    its end returns 0. -/

abbrev Routine (σ α : Type) := ExceptT Int (StateM σ) α

/-- What a function of the kernel returns: 0, or a negative error number. -/
abbrev Code := { r : Int // r ≤ 0 }

/-! Error numbers -/

namespace Errno

def enomem : Int := 12

def enodev : Int := 19

def einval : Int := 22

end Errno

namespace Routine

variable {σ α β : Type}

/-- The outcome of a routine, and the state that it leaves. -/
def exec (x : Routine σ α) (s : σ) : Except Int α × σ := ExceptT.run x s

/-- The code that a routine returns, and the state that it leaves. -/
def ret (x : Routine σ Unit) (s : σ) : Int × σ :=
  match x.exec s with
  | (.ok (), t) => (0, t)
  | (.error r, t) => (r, t)

def call (x : Routine σ Unit) : Routine σ Int := ExceptT.mk fun s => (.ok (x.ret s).1, (x.ret s).2)

def failIf (b : Bool) (r : Int) : Routine σ Unit := if b then throw r else pure ()

variable {s : σ}

theorem exec_pure (a : α) : exec (pure a : Routine σ α) s = (.ok a, s) := rfl

theorem exec_bind (x : Routine σ α) (f : α → Routine σ β) : (x >>= f).exec s = match x.exec s with
    | (.ok a, t) => (f a).exec t
    | (.error r, t) => (.error r, t) := by
  have hbind : (x >>= f).exec s = (ExceptT.bindCont f (x.exec s).1) (x.exec s).2 := rfl
  rw [hbind]
  obtain ⟨a | r, t⟩ := x.exec s <;> rfl

theorem exec_bind_ok {x : Routine σ α} {f : α → Routine σ β} {a : α} {t : σ} (h : x.exec s = (.ok a, t)) :
    (x >>= f).exec s = (f a).exec t := by rw [exec_bind, h]

theorem exec_bind_error {x : Routine σ α} {f : α → Routine σ β} {r : Int} {t : σ} (h : x.exec s = (.error r, t)) :
    (x >>= f).exec s = (.error r, t) := by rw [exec_bind, h]

theorem exec_failIf_bind (b : Bool) (r : Int) (f : Unit → Routine σ β) :
    (failIf b r >>= f).exec s = if b then (.error r, s) else (f ()).exec s := by
  cases b <;> rfl

theorem exec_call_bind (x : Routine σ Unit) (f : Int → Routine σ β) :
    (call x >>= f).exec s = (f (x.ret s).1).exec (x.ret s).2 := rfl

theorem ret_failIf_bind (b : Bool) (r : Int) (f : Unit → Routine σ Unit) :
    (failIf b r >>= f).ret s = if b then (r, s) else (f ()).ret s := by
  cases b <;> rfl

theorem ret_call_bind (x : Routine σ Unit) (f : Int → Routine σ Unit) :
    (call x >>= f).ret s = (f (x.ret s).1).ret (x.ret s).2 := rfl

theorem ret_modify (g : σ → σ) : (modify g : Routine σ Unit).ret s = (0, g s) := rfl

theorem ret_modify_bind (g : σ → σ) (f : Unit → Routine σ Unit) :
    ((modify g : Routine σ Unit) >>= f).ret s = (f ()).ret (g s) := rfl

theorem ret_snd (x : Routine σ Unit) : (x.ret s).2 = (x.exec s).2 := by
  unfold ret
  split <;> simp_all

/-! ### Codes -/

/-- In every state, a routine comes to its end if `ok` holds, and returns one of `codes` otherwise. -/
def Checks (codes : Int → Prop) (ok : Prop) (x : Routine σ Unit) : Prop :=
  ∀ s, ok ∧ (x.exec s).1 = .ok () ∨ ¬ ok ∧ ∃ r, codes r ∧ (x.exec s).1 = .error r

variable {codes : Int → Prop} {ok ok' : Prop} {x y : Routine σ Unit}

theorem checks_failIf {b : Bool} {r : Int} (h : b = true → codes r) :
    Checks codes (b = false) (failIf b r : Routine σ Unit) := by
  intro s
  cases b with
  | false => exact .inl ⟨rfl, rfl⟩
  | true => exact .inr ⟨by simp, r, h rfl, rfl⟩

theorem checks_code (c : Code) : Checks (· < 0) (c.1 = 0) (failIf (c.1 ≠ 0) c : Routine σ Unit) := by
  intro s
  by_cases h : c.1 = 0
  · exact .inl ⟨h, by simp [h, failIf, exec_pure]⟩
  · exact .inr ⟨h, c, Int.lt_iff_le_and_ne.mpr ⟨c.2, h⟩, by simp [h, failIf]; rfl⟩

theorem checks_modify (g : σ → σ) : Checks codes True (modify g : Routine σ Unit) := fun _ => .inl ⟨trivial, rfl⟩

theorem Checks.bind (hx : Checks codes ok x) (hy : Checks codes ok' y) :
    Checks codes (ok ∧ ok') (x >>= fun _ => y) := by
  intro s
  rw [exec_bind]
  cases hexec : x.exec s with
  | mk a t =>
    have hx := hx s
    rw [hexec] at hx
    rcases hx with ⟨hok, rfl⟩ | ⟨hno, r, hr, rfl⟩
    · rcases hy t with ⟨hok', heq⟩ | ⟨hno', r, hr, heq⟩
      · exact .inl ⟨⟨hok, hok'⟩, heq⟩
      · exact .inr ⟨fun h => hno' h.2, r, hr, heq⟩
    · exact .inr ⟨fun h => hno h.1, r, hr, rfl⟩

theorem Checks.congr (hx : Checks codes ok x) (h : ok ↔ ok') : Checks codes ok' x := by
  intro s
  rw [← h]
  exact hx s

theorem Checks.forM {f : α → Routine σ Unit} {p : α → Prop} {xs : List α}
    (h : ∀ x ∈ xs, Checks codes (p x) (f x)) : Checks codes (∀ x ∈ xs, p x) (xs.forM f) := by
  induction xs with
  | nil => exact fun s => .inl ⟨by simp, rfl⟩
  | cons x xs ih =>
    have hrest := ih fun y hy => h y (List.mem_cons_of_mem _ hy)
    exact ((h x List.mem_cons_self).bind hrest).congr List.forall_mem_cons.symm

/-- In every state, a routine returns 0 if `ok` holds, and one of `codes` otherwise. -/
def Returns (codes : Int → Prop) (ok : Prop) (x : Routine σ Unit) : Prop :=
  ∀ s, ok ∧ (x.ret s).1 = 0 ∨ ¬ ok ∧ codes (x.ret s).1

theorem Checks.returns (hx : Checks codes ok x) : Returns codes ok x := by
  intro s
  rcases hx s with ⟨hok, heq⟩ | ⟨hno, r, hr, heq⟩
  · refine .inl ⟨hok, ?_⟩
    unfold ret
    split <;> simp_all
  · refine .inr ⟨hno, ?_⟩
    unfold ret
    split <;> simp_all

theorem Returns.ret_eq_zero (hx : Returns codes ok x) (h0 : ∀ r, codes r → r ≠ 0) (s : σ) : (x.ret s).1 = 0 ↔ ok := by
  rcases hx s with ⟨hok, heq⟩ | ⟨hno, hcode⟩
  · exact ⟨fun _ => hok, fun _ => heq⟩
  · exact ⟨fun heq => absurd heq (h0 _ hcode), fun hok => absurd hok hno⟩

theorem Returns.ret_eq_zero_of_neg (hx : Returns (· < 0) ok x) (s : σ) : (x.ret s).1 = 0 ↔ ok :=
  hx.ret_eq_zero (fun _ hr => Int.ne_of_lt hr) s

theorem Returns.ok_of_not (hx : Returns codes ok x) {s : σ} (h : ¬ codes (x.ret s).1) : ok := by
  rcases hx s with ⟨hok, -⟩ | ⟨-, hcode⟩
  · exact hok
  · exact absurd hcode h

theorem Checks.call_bind {codes' : Int → Prop} {fails : Int → Bool} (hx : Returns codes' ok x)
    (hzero : fails 0 = false) (hfails : ∀ r, codes' r → fails r = true ∧ codes r) (hy : Checks codes ok' y) :
    Checks codes (ok ∧ ok') (do let r ← call x; failIf (fails r) r; y) := by
  intro s
  rw [exec_call_bind, exec_failIf_bind]
  rcases hx s with ⟨hok, heq⟩ | ⟨hno, hcode⟩
  · rw [heq, hzero]
    rcases hy (x.ret s).2 with ⟨hok', hexec⟩ | ⟨hno', hexec⟩
    · exact .inl ⟨⟨hok, hok'⟩, hexec⟩
    · exact .inr ⟨fun h => hno' h.2, hexec⟩
  · rw [(hfails _ hcode).1]
    exact .inr ⟨fun h => hno h.1, _, (hfails _ hcode).2, rfl⟩

/-! ### States -/

def Keeps (p : σ → Prop) (x : Routine σ α) : Prop := ∀ s, p s → p (x.exec s).2

variable {p : σ → Prop}

theorem keeps_failIf (b : Bool) (r : Int) : Keeps p (failIf b r : Routine σ Unit) := by
  cases b <;> exact fun _ h => h

theorem keeps_modify {g : σ → σ} (h : ∀ s, p s → p (g s)) : Keeps p (modify g : Routine σ Unit) := h

theorem Keeps.ret {x : Routine σ Unit} (hx : Keeps p x) {s : σ} (hs : p s) : p (x.ret s).2 := by
  rw [ret_snd]
  exact hx s hs

theorem Keeps.call {x : Routine σ Unit} (hx : Keeps p x) : Keeps p (call x) := fun _ hs => hx.ret hs

theorem Keeps.bind {x : Routine σ α} {f : α → Routine σ β} (hx : Keeps p x) (hf : ∀ a, Keeps p (f a)) :
    Keeps p (x >>= f) := by
  intro s hs
  have ht := hx s hs
  rw [exec_bind]
  cases hexec : x.exec s with
  | mk a t =>
    rw [hexec] at ht
    cases a with
    | error r => exact ht
    | ok a => exact hf a t ht

theorem Keeps.forM {f : α → Routine σ Unit} {xs : List α} (h : ∀ x ∈ xs, Keeps p (f x)) : Keeps p (xs.forM f) := by
  induction xs with
  | nil => exact fun _ hs => hs
  | cons x xs ih =>
    exact (h x List.mem_cons_self).bind fun _ => ih fun y hy => h y (List.mem_cons_of_mem _ hy)

theorem Keeps.foldlM {f : β → α → Routine σ β} {xs : List α} (h : ∀ b, ∀ x ∈ xs, Keeps p (f b x)) (b : β) :
    Keeps p (xs.foldlM f b) := by
  induction xs generalizing b with
  | nil => exact fun _ hs => hs
  | cons x xs ih =>
    rw [List.foldlM_cons]
    exact (h b x List.mem_cons_self).bind fun b' => ih (fun b y hy => h b y (List.mem_cons_of_mem _ hy)) b'

end Routine
