import FireMarshal.Test.Output

/-! When the comparison of uartlogs finds the reference in the output. -/

namespace FireMarshal

open SequenceMatcher

/-- The lines `r` occur in `t` around the first longest block that they share without popular lines. Without such a
    block they start `t`. -/
def Anchored (r t : List String) : Prop := ∃ m, FirstLongest r t m ∧ m.a ≤ m.b ∧ OccursAt r t (m.b - m.a)

variable {rPath tPath : String} {rLines tLines : List String}

theorem cmpUartlog_eq_none :
    cmpUartlog none rPath tPath rLines tLines = none ↔
      (findLongestMatch rLines (tLines.map removeCR)).size = rLines.length := by
  simp only [cmpUartlog]
  split
  · next hne =>
    simp only [hne, iff_false]
    split <;> simp
  · next heq => simpa using heq

theorem findLongestMatch_iff_anchored {r t : List String} :
    (findLongestMatch r t).size = r.length ↔ Anchored r t := by
  constructor
  · exact fun h => ⟨_, firstLongest_scan r t, (findLongestMatch_size (firstLongest_scan r t)).mp h⟩
  · rintro ⟨m, hm, h⟩
    exact (findLongestMatch_size hm).mpr h

theorem Anchored.isInfix {r t : List String} (h : Anchored r t) : r <:+: t := by
  obtain ⟨m, -, -, hoccurs⟩ := h
  exact isInfix_iff_occursAt.mpr ⟨_, hoccurs⟩

/-- Uartlogs are accepted just if the reference is part of the output, unless a reference that is part of a long
    output is not found, because popular lines hide it. -/
theorem cmpUartlog_iff_contained (rPath tPath : String) (rLines tLines : List String) :
    (cmpUartlog none rPath tPath rLines tLines = none ↔ rLines <:+: tLines.map removeCR) ↔
      (rLines <:+: tLines.map removeCR → tLines.length < 200 ∨ Anchored rLines (tLines.map removeCR)) := by
  rw [cmpUartlog_eq_none]
  constructor
  · exact fun h hcontained => .inr (findLongestMatch_iff_anchored.mp (h.mpr hcontained))
  · intro h
    refine ⟨fun hsize => (findLongestMatch_iff_anchored.mp hsize).isInfix, fun hcontained => ?_⟩
    rcases h hcontained with hshort | hanchored
    · exact (findLongestMatch_of_length_lt (by simpa using hshort)).mpr hcontained
    · exact findLongestMatch_iff_anchored.mpr hanchored

theorem cmpUartlog_misses_repeated :
    cmpUartlog none "ref/uartlog" "out/uartlog" ["ok\n"] (List.replicate 196 "boot\n" ++ List.replicate 4 "ok\n") =
        some "ref/uartlog and out/uartlog do not match" ∧
      ["ok\n"] <:+: (List.replicate 196 "boot\n" ++ List.replicate 4 "ok\n").map removeCR := by
  decide +kernel

end FireMarshal
