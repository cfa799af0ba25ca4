import FireMarshal.Theorems.Config.Initialize

/-! Chains of configurations that are based on each other. -/

namespace FireMarshal

/-- The configurations of a chain after their initialisation. A chain starts with the configuration that others are
    bases of, and ends before `root`, which is initialised. -/
def resolveChain (wlutilDir : String) (root : Config) : List Config → Except PyError (List Config)
  | [] => .ok []
  | c :: cs =>
    resolveChain wlutilDir root cs >>= fun rs =>
    c.applyBase wlutilDir (rs.headD root) >>= fun v => .ok (v :: rs)

variable {wlutilDir : String} {root c : Config} {cs l : List Config}

theorem resolveChain_cons : resolveChain wlutilDir root (c :: cs) = .ok l ↔
    ∃ v rs, l = v :: rs ∧ resolveChain wlutilDir root cs = .ok rs ∧ c.applyBase wlutilDir (rs.headD root) = .ok v := by
  simp only [resolveChain, Except.bind_eq_ok, Except.ok.injEq]
  constructor
  · rintro ⟨rs, hrs, v, hv, rfl⟩
    exact ⟨v, rs, rfl, hrs, hv⟩
  · rintro ⟨v, rs, rfl, hrs, hv⟩
    exact ⟨rs, hrs, v, hv, rfl⟩

theorem applied_of_chain {u : Config} (h : resolveChain wlutilDir root cs = .ok l) (hu : u ∈ l) :
    ∃ c parent : Config, c.Applied parent u := by
  induction cs generalizing l with
  | nil =>
    cases h
    cases hu
  | cons c cs ih =>
    obtain ⟨v, rs, rfl, hrs, hv⟩ := resolveChain_cons.mp h
    rcases List.mem_cons.mp hu with rfl | hu
    · exact ⟨c, _, Config.applied_of_applyBase hv⟩
    · exact ih hrs hu

end FireMarshal
