import Mathlib.Data.List.Nodup
import Mathlib.Data.List.Pairwise
import Mathlib.Tactic.Common

/-! Qualified names: groups of members, where the name of a member is joined to that of its group without escaping the
    separator. -/

namespace Qualified

variable {ν : Type}

/-- What is known of names that are joined with a separator. A name that is joined in two ways is a name with two
    separators. -/
structure Joins (join : ν → ν → ν) : Prop where
  inj : ∀ {x a b}, join x a = join x b → a = b
  ne : ∀ x a, join x a ≠ x
  assoc : ∀ x r a, join (join x r) a = join x (join r a)
  split : ∀ {x a y b}, join x a = join y b →
    x = y ∨ (∃ r, y = join x r ∧ a = join r b) ∨ ∃ r, x = join y r ∧ b = join r a

structure Group (ν : Type) where
  name : ν
  members : List ν

def Group.names (join : ν → ν → ν) (g : Group ν) : List ν := g.name :: g.members.map (join g.name)

/-- A group whose name extends that of another is not mistaken for a member of it, nor are its members. -/
def NoClash (join : ν → ν → ν) (gs : List (Group ν)) : Prop :=
  ∀ g ∈ gs, ∀ h ∈ gs, ∀ r, h.name = join g.name r → r ∉ g.members ∧ ∀ a ∈ h.members, join r a ∉ g.members

variable {join : ν → ν → ν} {gs : List (Group ν)} {g h : Group ν}

theorem Group.nodup_names (hj : Joins join) (hg : g.members.Nodup) : (g.names join).Nodup := by
  refine List.nodup_cons.mpr ⟨fun hmem => ?_, hg.map fun a b => hj.inj⟩
  obtain ⟨a, -, ha⟩ := List.mem_map.mp hmem
  exact hj.ne g.name a ha

theorem NoClash.disjoint (hj : Joins join) (hclash : NoClash join gs) (hg : g ∈ gs) (hh : h ∈ gs)
    (hne : g.name ≠ h.name) : (g.names join).Disjoint (h.names join) := by
  intro x hx hy
  rcases List.mem_cons.mp hx with rfl | hx
  · rcases List.mem_cons.mp hy with heq | hy
    · exact hne heq
    · obtain ⟨b, hb, heq⟩ := List.mem_map.mp hy
      exact (hclash h hh g hg b heq.symm).1 hb
  · obtain ⟨a, ha, rfl⟩ := List.mem_map.mp hx
    rcases List.mem_cons.mp hy with heq | hy
    · exact (hclash g hg h hh a heq.symm).1 ha
    · obtain ⟨b, hb, heq⟩ := List.mem_map.mp hy
      rcases hj.split heq with heq | ⟨r, hr, rfl⟩ | ⟨r, hr, rfl⟩
      · exact hne heq.symm
      · exact (hclash h hh g hg r hr).2 a ha hb
      · exact (hclash g hg h hh r hr).2 b hb ha

/-- Names are distinct exactly if no two groups clash. -/
theorem nodup_names_iff (hj : Joins join) (hnames : (gs.map Group.name).Nodup) (hmembers : ∀ g ∈ gs, g.members.Nodup) :
    (gs.flatMap (Group.names join)).Nodup ↔ NoClash join gs := by
  rw [List.nodup_flatMap]
  constructor
  · rintro ⟨-, hpair⟩ g hg h hh r hr
    have hne : g ≠ h := by
      rintro rfl
      exact hj.ne g.name r hr.symm
    have hsymm : Std.Symm (Function.onFun List.Disjoint (Group.names join)) := ⟨fun _ _ hd _ hx hy => hd hy hx⟩
    have hdisjoint : (g.names join).Disjoint (h.names join) := hpair.forall hg hh hne
    refine ⟨fun hmem => ?_, fun a ha hmem => ?_⟩
    · refine hdisjoint (List.mem_cons_of_mem _ (List.mem_map.mpr ⟨r, hmem, rfl⟩)) ?_
      rw [← hr]
      exact List.mem_cons_self
    · refine hdisjoint (List.mem_cons_of_mem _ (List.mem_map.mpr ⟨_, hmem, rfl⟩)) ?_
      rw [← hj.assoc, ← hr]
      exact List.mem_cons_of_mem _ (List.mem_map.mpr ⟨a, ha, rfl⟩)
  · intro hclash
    refine ⟨fun g hg => Group.nodup_names hj (hmembers g hg), ?_⟩
    have hpair : gs.Pairwise fun g h => g.name ≠ h.name := List.pairwise_map.mp hnames
    exact hpair.imp_of_mem fun hg hh hne => hclash.disjoint hj hg hh hne

end Qualified
