import FireMarshal.Theorems.Test.Uartlog

/-! What the comparison of two directories accepts. -/

namespace FireMarshal

/-! ### Texts -/

theorem flatten_splitLines (text : List Char) : (splitLines text).flatten = text := by
  induction text with
  | nil => rfl
  | cons c cs ih =>
    rw [splitLines]
    split
    · rw [List.flatten_cons, ih]
      rfl
    · split
      · next hnil =>
        rw [hnil] at ih
        simp [← ih]
      · next line lines hlines =>
        rw [hlines] at ih
        rw [← ih]
        rfl

theorem readlines_injective {s t : List Char} (h : readlines s = readlines t) : s = t := by
  have hlines : splitLines s = splitLines t :=
    List.map_injective_iff.mpr (fun _ _ h => String.ofList_injective h) h
  rw [← flatten_splitLines s, hlines, flatten_splitLines]

theorem not_mem_universalNewlines (text : List Char) : '\r' ∉ universalNewlines text := by
  fun_induction universalNewlines text with
  | case1 cs ih => simpa using ih
  | case2 cs _ ih => simpa using ih
  | case3 c cs _ hc ih =>
    rw [List.mem_cons, not_or]
    exact ⟨fun h => hc h.symm, ih⟩
  | case4 => exact List.not_mem_nil

theorem universalNewlines_of_not_mem {text : List Char} (h : '\r' ∉ text) : universalNewlines text = text := by
  fun_induction universalNewlines text with
  | case1 cs ih => simp at h
  | case2 cs _ ih => simp at h
  | case3 c cs _ _ ih => rw [ih fun hmem => h (List.mem_cons_of_mem c hmem)]
  | case4 => rfl

theorem universalNewlines_eq_self {text : List Char} : universalNewlines text = text ↔ '\r' ∉ text := by
  refine ⟨fun h => ?_, universalNewlines_of_not_mem⟩
  rw [← h]
  exact not_mem_universalNewlines text

/-! ### Directories -/

/-- Every path of the reference exists, and regular files other than uartlogs are the same. -/
structure Matches (test ref : Tree) : Prop where
  paths : ∀ p ∈ ref.entries.keys, test.entries.hasKey p
  files : ∀ p text, (p, .file text) ∈ ref.entries → isUartlog p = false → test.entries.lookup p = some (.file text)

/-- The lines of every uartlog of the reference occur in a uartlog of the output, and in a long one they are not
    hidden by popular lines. -/
def UartlogsFound (test ref : Tree) : Prop :=
  ∀ p r, (p, .file r) ∈ ref.entries → isUartlog p = true → ∃ t, test.entries.lookup p = some (.file t) ∧
    readlines (universalNewlines r) <:+: (readlines t).map removeCR ∧
    ((readlines t).length < 200 ∨ Anchored (readlines (universalNewlines r)) ((readlines t).map removeCR))

/-- Every regular file of the output, uartlogs apart, is that of the reference with LF for all line terminators. -/
def Translated (test ref : Tree) : Prop :=
  ∀ p r, (p, .file r) ∈ ref.entries → isUartlog p = false →
    test.entries.lookup p = some (.file (universalNewlines r))

/-- No regular file of the reference, uartlogs apart, has a carriage return. -/
def NoCR (ref : Tree) : Prop := ∀ p r, (p, .file r) ∈ ref.entries → isUartlog p = false → '\r' ∉ r

theorem cmpUartlog_eq_none_iff {rPath tPath : String} {rLines tLines : List String} :
    cmpUartlog none rPath tPath rLines tLines = none ↔ rLines <:+: tLines.map removeCR ∧
      (tLines.length < 200 ∨ Anchored rLines (tLines.map removeCR)) := by
  rw [cmpUartlog_eq_none]
  constructor
  · intro hsize
    have hanchored := findLongestMatch_iff_anchored.mp hsize
    exact ⟨hanchored.isInfix, .inr hanchored⟩
  · rintro ⟨hcontained, hshort | hanchored⟩
    · exact (SequenceMatcher.findLongestMatch_of_length_lt (by simpa using hshort)).mpr hcontained
    · exact findLongestMatch_iff_anchored.mpr hanchored

namespace Comparison

variable {c : Comparison} {test ref : Tree} {p : List String}

theorem cmpRegular_eq_none {diff : UnifiedDiff} {rPath tPath : String} {r t : List Char} :
    cmpRegular diff rPath tPath (readlines r) (readlines t) = none ↔ r = t := by
  simp only [cmpRegular, ne_eq, ite_not, ite_eq_left_iff, reduceCtorEq, imp_false, not_not, diff.run_eq_empty]
  exact ⟨readlines_injective, fun h => by rw [h]⟩

theorem cmpPath_dir : c.cmpPath test p .dir = .ok none ↔ test.entries.hasKey p = true := by
  unfold cmpPath
  cases h : test.entries.lookup p with
  | none => simp [Dict.hasKey, h]
  | some node => simp [Dict.hasKey, h]

theorem cmpPath_file {r : List Char} : c.cmpPath test p (.file r) = .ok none ↔
    ∃ t, test.entries.lookup p = some (.file t) ∧
      if isUartlog p then
        cmpUartlog c.stripUart (p.foldl joinPath c.refDir) (p.foldl joinPath c.testDir)
          (readlines (universalNewlines r)) (readlines t) = none
      else universalNewlines r = t := by
  unfold cmpPath
  rcases h : test.entries.lookup p with _ | (t | _)
  · simp
  · simp only [Except.ok.injEq, Option.some.injEq, Node.file.injEq, exists_eq_left']
    split
    · rfl
    · exact cmpRegular_eq_none
  · simp

theorem cmpPaths_eq_none {entries : Dict (List String) Node} :
    c.cmpPaths test entries = .ok none ↔ ∀ e ∈ entries, c.cmpPath test e.1 e.2 = .ok none := by
  induction entries with
  | nil => simp [cmpPaths]
  | cons e entries ih =>
    rw [cmpPaths, List.forall_mem_cons, ← ih]
    split
    · next h => simp [h]
    · next hne => exact ⟨fun h => absurd h hne, fun h => absurd h.1 hne⟩

/-- What is accepted without `strip`: the output has every path, the uartlogs, and the text of every other file as it
    is read with universal newlines. -/
theorem cmpOutput_eq_none (hstrip : c.stripUart = none) : c.cmpOutput test (some ref) = .ok none ↔
    (∀ p ∈ ref.entries.keys, test.entries.hasKey p) ∧ UartlogsFound test ref ∧ Translated test ref := by
  rw [cmpOutput, cmpPaths_eq_none]
  constructor
  · intro h
    refine ⟨fun p hp => ?_, fun p r hmem hp => ?_, fun p r hmem hp => ?_⟩
    · obtain ⟨e, he, rfl⟩ := List.mem_map.mp hp
      have hpath := h e he
      rcases hnode : e.2 with r | _
      · rw [hnode] at hpath
        obtain ⟨t, ht, -⟩ := cmpPath_file.mp hpath
        exact Dict.hasKey_iff.mpr ⟨_, ht⟩
      · rw [hnode] at hpath
        exact cmpPath_dir.mp hpath
    · obtain ⟨t, ht, hcmp⟩ := cmpPath_file.mp (h (p, .file r) hmem)
      rw [hstrip, if_pos hp, cmpUartlog_eq_none_iff] at hcmp
      exact ⟨t, ht, hcmp⟩
    · obtain ⟨t, ht, hcmp⟩ := cmpPath_file.mp (h (p, .file r) hmem)
      rw [ht, show universalNewlines r = t by simpa [hp] using hcmp]
  · rintro ⟨hpaths, huart, hfiles⟩ ⟨p, node⟩ hmem
    cases node with
    | dir => exact cmpPath_dir.mpr (hpaths p (List.mem_map.mpr ⟨_, hmem, rfl⟩))
    | file r =>
      refine cmpPath_file.mpr ?_
      cases hp : isUartlog p with
      | true =>
        obtain ⟨t, ht, hfound⟩ := huart p r hmem hp
        refine ⟨t, ht, ?_⟩
        rw [if_pos rfl, hstrip]
        exact cmpUartlog_eq_none_iff.mpr hfound
      | false => exact ⟨_, hfiles p r hmem hp, by simp⟩

end Comparison

/-! ### Reference files with carriage returns -/

theorem Translated.files_iff {test ref : Tree} (h : Translated test ref) :
    (∀ p r, (p, .file r) ∈ ref.entries → isUartlog p = false → test.entries.lookup p = some (.file r)) ↔
      NoCR ref := by
  constructor
  · intro hfiles p r hmem hp
    have htext := hfiles p r hmem hp
    rw [h p r hmem hp, Option.some.injEq, Node.file.injEq] at htext
    exact universalNewlines_eq_self.mp htext
  · intro hunix p r hmem hp
    rw [h p r hmem hp, universalNewlines_of_not_mem (hunix p r hmem hp)]

theorem NoCR.translated {test ref : Tree} (h : NoCR ref) (hmatch : Matches test ref) : Translated test ref := by
  intro p r hmem hp
  rw [hmatch.files p r hmem hp, universalNewlines_of_not_mem (h p r hmem hp)]

/-- A comparison without `strip` accepts the output just if it matches, provided that no carriage return in the
    reference makes a difference, and that the uartlogs of a matching output are found. -/
theorem cmpOutput_exact_iff (testDir refDir : String) (unifiedDiff : UnifiedDiff) (test ref : Tree) :
    (Comparison.cmpOutput { testDir, refDir, unifiedDiff } test (some ref) = .ok none ↔ Matches test ref) ↔
      (Matches test ref → NoCR ref ∧ UartlogsFound test ref) ∧
      ((∀ p ∈ ref.entries.keys, test.entries.hasKey p) → UartlogsFound test ref → Translated test ref → NoCR ref) := by
  rw [Comparison.cmpOutput_eq_none rfl]
  constructor
  · intro h
    refine ⟨fun hmatch => ?_, fun hpaths huart hfiles => ?_⟩
    · obtain ⟨-, huart, hfiles⟩ := h.mpr hmatch
      exact ⟨hfiles.files_iff.mp hmatch.files, huart⟩
    · exact hfiles.files_iff.mp (h.mp ⟨hpaths, huart, hfiles⟩).files
  · rintro ⟨hsame, htranslated⟩
    constructor
    · rintro ⟨hpaths, huart, hfiles⟩
      exact ⟨hpaths, hfiles.files_iff.mpr (htranslated hpaths huart hfiles)⟩
    · intro hmatch
      obtain ⟨hunix, huart⟩ := hsame hmatch
      exact ⟨hmatch.paths, huart, hunix.translated hmatch⟩

def singleFile (text : String) : Tree where
  entries := [(["out.txt"], .file text.toList)]
  nodup := by simp [Dict.keys]
  parents := by simp [Dict.keys]

theorem matches_singleFile {s t : String} : Matches (singleFile s) (singleFile t) ↔ s.toList = t.toList := by
  constructor
  · intro h
    have := h.files ["out.txt"] t.toList (by simp [singleFile]) (by decide)
    simpa [singleFile] using this
  · intro h
    refine ⟨fun p hp => ?_, fun p text hmem _ => ?_⟩
    · obtain rfl := List.mem_singleton.mp hp
      simp [singleFile, Dict.hasKey]
    · obtain ⟨rfl, rfl⟩ : p = ["out.txt"] ∧ text = t.toList := by simpa [singleFile] using hmem
      simp [singleFile, h]

/-- A file with CRLF is not accepted against itself, but against a file with LF. -/
theorem cmpOutput_translates_reference :
    (Matches (singleFile "a\r\n") (singleFile "a\r\n") ∧ ∀ unifiedDiff : UnifiedDiff,
      Comparison.cmpOutput ⟨"out", "ref", none, unifiedDiff⟩ (singleFile "a\r\n") (some (singleFile "a\r\n")) ≠
        .ok none) ∧
    ¬ Matches (singleFile "a\n") (singleFile "a\r\n") ∧ ∀ unifiedDiff : UnifiedDiff,
      Comparison.cmpOutput ⟨"out", "ref", none, unifiedDiff⟩ (singleFile "a\n") (some (singleFile "a\r\n")) =
        .ok none := by
  have haccepted : ∀ (unifiedDiff : UnifiedDiff) (s t : String),
      Comparison.cmpOutput ⟨"out", "ref", none, unifiedDiff⟩ (singleFile s) (some (singleFile t)) = .ok none ↔
        s.toList = universalNewlines t.toList := by
    intro unifiedDiff s t
    have hlookup : (singleFile s).entries.lookup ["out.txt"] = some (.file s.toList) := by simp [singleFile]
    have huartlog : isUartlog ["out.txt"] = false := by decide
    rw [Comparison.cmpOutput, Comparison.cmpPaths_eq_none, singleFile, List.forall_mem_singleton,
      Comparison.cmpPath_file, hlookup]
    simp [huartlog, eq_comm]
  simp only [ne_eq, haccepted, matches_singleFile]
  exact ⟨⟨trivial, fun _ => by decide⟩, by decide, fun _ => by decide⟩

end FireMarshal
