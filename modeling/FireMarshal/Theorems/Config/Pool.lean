import FireMarshal.Config.Fork

/-! What allocation, copies and forks leave unchanged. -/

namespace FireMarshal

variable {ω : Type}

namespace Pool

variable {p q t : Pool ω} {r x : Ref}

structure Extends (r : Ref) (p q : Pool ω) : Prop where
  next : p.next ≤ q.next
  cfg : ∀ x < p.next, x ≠ r → q.cfg x = p.cfg x
  self : r < p.next → ∃ base, q.cfg r = { p.cfg r with base }
  dist : ∀ d < p.next, q.dist d = p.dist d
  lookup : ∀ k x, p.cfgs.lookup k = some x → q.cfgs.lookup k = some x

namespace Extends

theorem refl (r : Ref) (p : Pool ω) : Extends r p p :=
  ⟨Nat.le_refl _, fun _ _ _ => rfl, fun _ => ⟨(p.cfg r).base, rfl⟩, fun _ _ => rfl, fun _ _ h => h⟩

theorem trans (h₁ : Extends r p q) (h₂ : Extends r q t) : Extends r p t where
  next := Nat.le_trans h₁.next h₂.next
  cfg x hx hr := (h₂.cfg x (Nat.lt_of_lt_of_le hx h₁.next) hr).trans (h₁.cfg x hx hr)
  self hr := by
    obtain ⟨b, hb⟩ := h₁.self hr
    obtain ⟨b', hb'⟩ := h₂.self (Nat.lt_of_lt_of_le hr h₁.next)
    exact ⟨b', by rw [hb', hb]⟩
  dist d hd := (h₂.dist d (Nat.lt_of_lt_of_le hd h₁.next)).trans (h₁.dist d hd)
  lookup k x hk := h₂.lookup k x (h₁.lookup k x hk)

theorem eq_but_base (h : Extends r p q) (hx : x < p.next) : ∃ base, q.cfg x = { p.cfg x with base } := by
  by_cases hr : x = r
  · subst hr
    exact h.self hx
  · exact ⟨(p.cfg x).base, h.cfg x hx hr⟩

theorem cfg_eq (h : ∀ r, Extends r p q) (hx : x < p.next) : q.cfg x = p.cfg x :=
  (h (x + 1)).cfg x hx (Nat.ne_of_lt (Nat.lt_succ_self x))

theorem isDistro (h : Extends r p q) (hx : x < p.next) : (q.cfg x).isDistro = (p.cfg x).isDistro := by
  obtain ⟨base, hb⟩ := h.eq_but_base hx
  rw [hb]

theorem distro (h : Extends r p q) (hx : x < p.next) : (q.cfg x).distro = (p.cfg x).distro := by
  obtain ⟨base, hb⟩ := h.eq_but_base hx
  rw [hb]

end Extends

/-- The objects that initialisation comes to: configurations in the pool, and their jobs. -/
def Referenced (p : Pool ω) (x : Ref) : Prop := ∃ k r, p.cfgs.lookup k = some r ∧ (x = r ∨ x ∈ (p.cfg r).jobs)

theorem Referenced.entry {k : String} (h : p.cfgs.lookup k = some r) : p.Referenced r := ⟨k, r, h, .inl rfl⟩

theorem Referenced.job {k : String} (h : p.cfgs.lookup k = some r) (hx : x ∈ (p.cfg r).jobs) : p.Referenced x :=
  ⟨k, r, h, .inr hx⟩

/-! ### Allocation and copies -/

theorem setBase_extends (r : Ref) (base : String) (p : Pool ω) : Extends r p (p.setBase r base) where
  next := Nat.le_refl _
  cfg x _ hr := by simp only [setBase, setCfg, Function.update_of_ne hr]
  self _ := ⟨some base, by simp only [setBase, setCfg, Function.update_self]⟩
  dist _ _ := rfl
  lookup _ _ h := h

theorem newCfg_extends (r : Ref) (c : Config) (p : Pool ω) : Extends r p (p.newCfg c) := by
  have hcfg : ∀ x < p.next, (p.newCfg c).cfg x = p.cfg x := fun x hx => by
    simp only [newCfg, setCfg, Function.update_of_ne (Nat.ne_of_lt hx)]
  exact ⟨Nat.le_succ p.next, fun x hx _ => hcfg x hx, fun hr => ⟨_, hcfg r hr⟩, fun _ _ => rfl, fun _ _ h => h⟩

theorem newDist_extends (r : Ref) (d : Distro ω) (p : Pool ω) : Extends r p (p.newDist d) where
  next := Nat.le_succ _
  cfg _ _ _ := rfl
  self _ := ⟨_, rfl⟩
  dist x hx := by simp only [newDist, Function.update_of_ne (Nat.ne_of_lt hx)]
  lookup _ _ h := h

theorem addKey_extends (r x : Ref) (name : String) (p : Pool ω) : Extends r p (p.addKey name x) where
  next := Nat.le_refl _
  cfg _ _ _ := rfl
  self _ := ⟨_, rfl⟩
  dist _ _ := rfl
  lookup k y h := by simp only [addKey, List.lookup_append, h, Option.some_or]

theorem copyCfg_spec (c : Config) (p : Pool ω) :
    (∀ r, Extends r p (p.copyCfg c)) ∧ (p.copyCfg c).cfgs = p.cfgs ∧ p.next ≤ (p.copyCfg c).last ∧
      (p.copyCfg c).last < (p.copyCfg c).next ∧
      ∃ distro, (p.copyCfg c).cfg (p.copyCfg c).last = { c with distro } := by
  unfold copyCfg
  split
  · exact ⟨fun r => newCfg_extends r c p, rfl, Nat.le_refl _, Nat.lt_succ_self _, c.distro,
      by simp [newCfg, last, setCfg]⟩
  · next d _ =>
    exact ⟨fun r => (newDist_extends r _ p).trans (newCfg_extends r _ _), rfl, Nat.le_succ _, Nat.lt_succ_self _,
      some p.next, by simp [newCfg, newDist, last, setCfg]⟩

theorem copyJobs_spec (jobs : List Ref) (p : Pool ω) :
    (∀ r, Extends r p (p.copyJobs jobs).2) ∧ (p.copyJobs jobs).2.cfgs = p.cfgs := by
  induction jobs generalizing p with
  | nil => exact ⟨fun r => .refl r p, rfl⟩
  | cons j jobs ih =>
    obtain ⟨hext, hcfgs, -⟩ := copyCfg_spec (p.cfg j) p
    obtain ⟨hrest, hcfgs'⟩ := ih (p.copyCfg (p.cfg j))
    exact ⟨fun r => (hext r).trans (hrest r), hcfgs'.trans hcfgs⟩

theorem deepcopy_spec (b : Ref) (p : Pool ω) :
    (∀ r, Extends r p (p.deepcopy b)) ∧ (p.deepcopy b).cfgs = p.cfgs ∧ p.next ≤ (p.deepcopy b).last ∧
      (p.deepcopy b).last < (p.deepcopy b).next ∧
      ∃ distro jobs, (p.deepcopy b).cfg (p.deepcopy b).last = { p.cfg b with distro, jobs } := by
  obtain ⟨hjobs, hcfgs⟩ := copyJobs_spec (p.cfg b).jobs p
  obtain ⟨hext, hcfgs', hle, hlt, distro, hcfg⟩ :=
    copyCfg_spec { p.cfg b with jobs := (p.copyJobs (p.cfg b).jobs).1 } (p.copyJobs (p.cfg b).jobs).2
  exact ⟨fun r => (hjobs r).trans (hext r), hcfgs'.trans hcfgs, Nat.le_trans (hjobs b).next hle, hlt, distro, _, hcfg⟩

end Pool
end FireMarshal
