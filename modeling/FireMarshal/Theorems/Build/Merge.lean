import FireMarshal.Build.Merge
import Mathlib.Data.List.Infix
import Mathlib.Data.List.TakeWhile

/-! Which value an option has after its files are merged. -/

namespace FireMarshal

namespace Merge

open Layers

variable {pre x y : Name} {v : Value} {l rest : Line} {file : List Line} {t tmp : Text} {o : Options} {f : String}
  {notes : List Note}

/-! ### Lines -/

theorem nameOf_eq (h : nameOf pre l = some (x, rest)) :
    ∃ u, (∀ c ∈ u, isWord c = true) ∧ x = pre ++ u ∧ l = x ++ rest := by
  rw [nameOf] at h
  split at h
  · rename_i hpre
    obtain ⟨t, rfl⟩ := List.isPrefixOf_iff_prefix.mp hpre
    simp only [List.drop_left, Option.some.injEq, Prod.mk.injEq] at h
    obtain ⟨rfl, rfl⟩ := h
    refine ⟨t.takeWhile isWord, fun c hc => List.mem_takeWhile_imp hc, rfl, ?_⟩
    rw [List.append_assoc, List.takeWhile_append_dropWhile]
  · cases h

theorem setting_cases (h : setting pre l = some (x, v)) :
    ∃ u, (∀ c ∈ u, isWord c = true) ∧ x = pre ++ u ∧
      ((∃ w, v = .text w ∧ l = x ++ '=' :: w) ∨ (v = .notSet ∧ l = '#' :: ' ' :: (x ++ " is not set".toList))) := by
  rw [setting, Option.or_eq_some_iff] at h
  obtain h | ⟨-, h⟩ := h
  · rw [assigned] at h
    split at h
    · rename_i x' w hname
      obtain ⟨rfl, rfl⟩ := Prod.mk.inj (Option.some.inj h)
      obtain ⟨u, hu, hx, hl⟩ := nameOf_eq hname
      exact ⟨u, hu, hx, .inl ⟨w, rfl, hl⟩⟩
    · cases h
  · unfold unset at h
    split at h
    · split at h
      · rename_i x' rest hname
        split at h
        · rename_i hrest
          obtain ⟨rfl, rfl⟩ := Prod.mk.inj (Option.some.inj h)
          obtain ⟨u, hu, hx, hl⟩ := nameOf_eq hname
          exact ⟨u, hu, hx, .inr ⟨rfl, by rw [hl, hrest]⟩⟩
        · cases h
      · cases h
    · cases h

theorem mentions_iff : mentions x l = true ↔ x ++ [' '] <:+: l ∨ x ++ ['='] <:+: l := by
  simp only [mentions, List.any_eq_true, List.mem_tails, Bool.or_eq_true, List.isPrefixOf_iff_prefix,
    List.infix_iff_prefix_suffix]
  constructor
  · rintro ⟨t, ht, h | h⟩
    · exact .inl ⟨t, h, ht⟩
    · exact .inr ⟨t, h, ht⟩
  · rintro (⟨t, h, ht⟩ | ⟨t, h, ht⟩)
    · exact ⟨t, ht, .inl h⟩
    · exact ⟨t, ht, .inr h⟩

theorem mentions_of_setting (h : setting pre l = some (x, v)) : mentions x l = true := by
  rw [mentions_iff]
  obtain ⟨u, -, -, ⟨w, -, rfl⟩ | ⟨-, rfl⟩⟩ := setting_cases h
  · exact .inr ⟨[], w, by simp⟩
  · exact .inl ⟨['#', ' '], "is not set".toList, by simp⟩

theorem hasWordFrom_append (h : rest.head?.any isWord = false) : hasWordFrom x false (x ++ rest) = true := by
  cases hx : x ++ rest with
  | nil =>
    obtain ⟨rfl, -⟩ := List.append_eq_nil_iff.mp hx
    rfl
  | cons c u => rw [hasWordFrom, ← hx, List.drop_left, h, List.isPrefixOf_iff_prefix.mpr (List.prefix_append _ _)]; rfl

theorem hasWord_of_setting (h : setting pre l = some (x, v)) : hasWord x l = true := by
  obtain ⟨u, -, -, ⟨w, -, rfl⟩ | ⟨-, rfl⟩⟩ := setting_cases h
  · exact hasWordFrom_append rfl
  · have hrest : hasWordFrom x false (x ++ " is not set".toList) = true := hasWordFrom_append rfl
    rw [hasWord, hasWordFrom, hasWordFrom, show isWord '#' = false from rfl, show isWord ' ' = false from rfl, hrest,
      Bool.or_true, Bool.or_true]

/-! ### Files -/

theorem grepWord_append (as bs : List Line) : grepWord x (as ++ bs) = grepWord x as ++ grepWord x bs :=
  List.filter_append _ _

theorem read_grepWord : read (setting pre) (grepWord x file) x = read (setting pre) file x :=
  read_filter fun _ _ _ h => hasWord_of_setting h

theorem grepWord_eq_nil (h : grepWord x file = []) : x ∉ keys (setting pre) file := by
  intro hx
  obtain ⟨l, hl, v, hset⟩ := mem_keys_iff.mp hx
  exact List.filter_eq_nil_iff.mp h l hl (hasWord_of_setting hset)

/-- No line that sets `x` mentions another option of the list. -/
def Unmentioned (pre : Name) (x : Name) (ys : List Name) (file : List Line) : Prop :=
  ∀ l ∈ file, (setting pre l).map Prod.fst = some x → ∀ y ∈ ys, mentions y l = true → y = x

instance (pre x : Name) (ys : List Name) (file : List Line) : Decidable (Unmentioned pre x ys file) :=
  inferInstanceAs (Decidable (∀ l ∈ file, _))

theorem Unmentioned.of_subset {ys zs : List Name} {file' : List Line} (h : Unmentioned pre x ys file)
    (hfile : ∀ l ∈ file', l ∈ file) (hys : ∀ y ∈ zs, y ∈ ys) : Unmentioned pre x zs file' :=
  fun l hl hset y hy => h l (hfile l hl) hset y (hys y hy)

theorem read_delete {ys : List Name} (h : Unmentioned pre x ys file) (hy : y ∈ ys) (hxy : y ≠ x) :
    read (setting pre) (delete y file) x = read (setting pre) file x := by
  refine read_filter fun l hl v hset => ?_
  cases hm : mentions y l with
  | true => exact absurd (h l hl (by rw [hset]; rfl) y hy hm) hxy
  | false => rfl

namespace Text

theorem all_of_ended (h : t.Ended) : t.all = t.lines := by
  rw [all, show t.rest = [] from h]
  rfl

theorem all_cat {a b : Text} (h : a.Ended) : (a.cat b).all = a.all ++ b.all := by
  obtain ⟨ls, rest⟩ := a
  obtain ⟨ls', rest'⟩ := b
  obtain rfl : rest = [] := h
  cases ls' <;> cases rest' <;> simp [cat, all]

theorem Ended.cat {a b : Text} (ha : a.Ended) (hb : b.Ended) : (a.cat b).Ended := by
  obtain ⟨ls, rest⟩ := a
  obtain ⟨ls', rest'⟩ := b
  obtain rfl : rest = [] := ha
  obtain rfl : rest' = [] := hb
  cases ls' <;> rfl

theorem Ended.delete (h : t.Ended) (x : Name) : (t.delete x).Ended := by
  rw [Text.delete, Ended, show t.rest = [] from h, ite_self]

end Text

theorem mentions_nil : mentions x [] = false := by
  simp [mentions]

theorem all_delete : (t.delete x).all = delete x t.all := by
  obtain ⟨ls, rest⟩ := t
  cases rest with
  | nil => simp [Text.delete, Text.all, mentions_nil]
  | cons c u => cases hm : mentions x (c :: u) <;> simp [Text.delete, Text.all, delete, hm]

/-! ### One fragment -/

theorem mergeOption_cases (o : Options) (f : String) (s : State) (x : Name) :
    (grepWord x s.tmp.all = [] ∧ mergeOption o f s x = s) ∨
    (grepWord x s.tmp.all ≠ [] ∧
      (o.builtin && stripName (grepWord x s.merge.all) == ['m'] && stripName (grepWord x s.tmp.all) == ['y']) = true ∧
      (mergeOption o f s x).tmp = s.tmp ∧ (mergeOption o f s x).merge = s.merge.delete x) ∨
    (grepWord x s.tmp.all ≠ [] ∧
      (o.builtin && stripName (grepWord x s.merge.all) == ['m'] && stripName (grepWord x s.tmp.all) == ['y']) = false ∧
      (mergeOption o f s x).tmp = s.tmp.delete x ∧ (mergeOption o f s x).merge = s.merge) := by
  rw [mergeOption]
  by_cases hprev : grepWord x s.tmp.all = []
  · exact .inl ⟨hprev, by rw [hprev]; rfl⟩
  · have hne : (grepWord x s.tmp.all).isEmpty = false := by rw [List.isEmpty_eq_false_iff]; exact hprev
    right
    cases hd : (o.builtin && stripName (grepWord x s.merge.all) == ['m'] && stripName (grepWord x s.tmp.all) == ['y']) with
    | true => exact .inl ⟨hprev, rfl, by simp only [hne, Bool.false_eq_true, if_false, if_true, and_self]⟩
    | false => exact .inr ⟨hprev, rfl, by simp only [hne, Bool.false_eq_true, if_false, and_self]⟩

theorem mergeOption_tmp_sublist (s : State) : (mergeOption o f s x).tmp.all.Sublist s.tmp.all := by
  obtain ⟨-, h⟩ | ⟨-, -, h, -⟩ | ⟨-, -, h, -⟩ := mergeOption_cases o f s x
  · rw [h]
  · rw [h]
  · rw [h, all_delete]
    exact List.filter_sublist

theorem mergeOption_merge_sublist (s : State) : (mergeOption o f s x).merge.all.Sublist s.merge.all := by
  obtain ⟨-, h⟩ | ⟨-, -, -, h⟩ | ⟨-, -, -, h⟩ := mergeOption_cases o f s x
  · rw [h]
  · rw [h, all_delete]
    exact List.filter_sublist
  · rw [h]

theorem foldl_mergeOption_sublist (ys : List Name) (s : State) :
    (ys.foldl (mergeOption o f) s).tmp.all.Sublist s.tmp.all ∧
      (ys.foldl (mergeOption o f) s).merge.all.Sublist s.merge.all := by
  induction ys generalizing s with
  | nil => exact ⟨.refl _, .refl _⟩
  | cons y ys ih =>
    obtain ⟨htmp, hmerge⟩ := ih (mergeOption o f s y)
    exact ⟨htmp.trans (mergeOption_tmp_sublist s), hmerge.trans (mergeOption_merge_sublist s)⟩

theorem foldl_mergeOption_read {ys : List Name} {s : State} (h : Unmentioned pre x ys s.tmp.all) (hx : x ∉ ys) :
    read (setting pre) (ys.foldl (mergeOption o f) s).tmp.all x = read (setting pre) s.tmp.all x := by
  induction ys generalizing s with
  | nil => rfl
  | cons y ys ih =>
    rw [List.mem_cons, not_or] at hx
    have hsub := mergeOption_tmp_sublist (o := o) (f := f) (x := y) s
    rw [List.foldl_cons, ih (h.of_subset (fun l hl => hsub.subset hl) fun z hz => List.mem_cons_of_mem y hz) hx.2]
    obtain ⟨-, h'⟩ | ⟨-, -, h', -⟩ | ⟨-, -, h', -⟩ := mergeOption_cases o f s y
    · rw [h']
    · rw [h']
    · rw [h', all_delete, read_delete h List.mem_cons_self (Ne.symm hx.1)]

theorem foldl_mergeOption_merge (ho : o.builtin = false) (ys : List Name) (s : State) :
    (ys.foldl (mergeOption o f) s).merge = s.merge := by
  induction ys generalizing s with
  | nil => rfl
  | cons y ys ih =>
    rw [List.foldl_cons, ih]
    obtain ⟨-, h⟩ | ⟨-, h, -⟩ | ⟨-, -, -, h⟩ := mergeOption_cases o f s y
    · rw [h]
    · rw [ho] at h
      cases h
    · exact h

theorem foldl_mergeOption_ended (ys : List Name) (s : State) :
    (s.tmp.Ended → (ys.foldl (mergeOption o f) s).tmp.Ended) ∧
      (s.merge.Ended → (ys.foldl (mergeOption o f) s).merge.Ended) := by
  induction ys generalizing s with
  | nil => exact ⟨id, id⟩
  | cons y ys ih =>
    obtain ⟨htmp, hmerge⟩ := ih (mergeOption o f s y)
    obtain ⟨-, h⟩ | ⟨-, -, h, h'⟩ | ⟨-, -, h, h'⟩ := mergeOption_cases o f s y
    · rw [h] at htmp hmerge
      rw [List.foldl_cons, h]
      exact ⟨htmp, hmerge⟩
    · exact ⟨fun hs => htmp (by rwa [h]), fun hs => hmerge (by rw [h']; exact hs.delete y)⟩
    · exact ⟨fun hs => htmp (by rw [h]; exact hs.delete y), fun hs => hmerge (by rwa [h'])⟩

def mergedText (o : Options) (f : String) (t tmp : Text) (notes : List Note) : Text :=
  (mergeFragment o f t tmp notes).tmp.cat (mergeFragment o f t tmp notes).merge

theorem mergedText_ended (htmp : tmp.Ended) (ht : t.Ended) : (mergedText o f t tmp notes).Ended :=
  ((foldl_mergeOption_ended _ ⟨tmp, t, _⟩).1 htmp).cat ((foldl_mergeOption_ended _ ⟨tmp, t, _⟩).2 ht)

theorem all_mergedText (htmp : tmp.Ended) : (mergedText o f t tmp notes).all =
    (mergeFragment o f t tmp notes).tmp.all ++ (mergeFragment o f t tmp notes).merge.all :=
  Text.all_cat ((foldl_mergeOption_ended _ ⟨tmp, t, _⟩).1 htmp)

theorem mergedText_read (ho : o.builtin = false) (htmp : tmp.Ended)
    (h : Unmentioned o.pre x (keys (setting o.pre) t.all) tmp.all) :
    read (setting o.pre) (mergedText o f t tmp notes).all x = read (setting o.pre) (tmp.all ++ t.all) x := by
  rw [all_mergedText htmp, read_append, read_append, mergeFragment, foldl_mergeOption_merge ho]
  by_cases hx : x ∈ keys (setting o.pre) t.all
  · obtain ⟨v, hv⟩ := Option.isSome_iff_exists.mp (read_isSome hx)
    rw [hv]
    rfl
  · rw [foldl_mergeOption_read h hx]

/-! ### The script -/

def contents (files : String → Option Text) (fs : List String) : List Line :=
  fs.flatMap fun f => ((files f).map Text.all).getD []

/-- Every file but the last one ends with a newline, so that none runs into the next. -/
def Whole (files : String → Option Text) (fs : List String) : Prop :=
  ∀ f ∈ fs.dropLast, ∀ t ∈ files f, t.Ended

instance (files : String → Option Text) (fs : List String) : Decidable (Whole files fs) :=
  inferInstanceAs (Decidable (∀ f ∈ fs.dropLast, ∀ t ∈ files f, t.Ended))

variable {files : String → Option Text} {fs : List String} {make : Text → Text} {init : String}
  {config tmp' : Text} {notes' : List Note}

theorem contents_cons (h : files f = some t) : contents files (f :: fs) = t.all ++ contents files fs := by
  rw [contents, List.flatMap_cons, h]
  rfl

theorem Whole.head (h : Whole files (f :: fs)) (hfs : fs ≠ []) (ht : files f = some t) : t.Ended :=
  h f (by rw [List.dropLast_cons_of_ne_nil hfs]; exact List.mem_cons_self) t ht

theorem Whole.tail (h : Whole files (f :: fs)) : Whole files fs := by
  intro g hg
  refine h g ?_
  rw [List.dropLast_cons_of_ne_nil (by rintro rfl; cases hg)]
  exact List.mem_cons_of_mem f hg

theorem mergeFragments_cons (h : mergeFragments o files (f :: fs) tmp notes = .ok (tmp', notes')) :
    ∃ t, files f = some t ∧
      mergeFragments o files fs (mergedText o f t tmp notes) (mergeFragment o f t tmp notes).notes =
        .ok (tmp', notes') := by
  rw [mergeFragments] at h
  split at h
  · cases h
  · rename_i t ht
    exact ⟨t, ht, h⟩

theorem mem_of_mem_mergedText {l : Line} (htmp : tmp.Ended) (h : l ∈ (mergedText o f t tmp notes).all) :
    l ∈ tmp.all ++ t.all := by
  obtain ⟨hsub, hsub'⟩ := foldl_mergeOption_sublist (o := o) (f := f) (keys (setting o.pre) t.all)
    ⟨tmp, t, notes ++ [.merging f]⟩
  rw [all_mergedText htmp, List.mem_append] at h
  exact List.mem_append.mpr (h.imp (fun h => hsub.subset h) fun h => hsub'.subset h)

theorem mergeFragments_read (ho : o.builtin = false) (htmp : fs ≠ [] → tmp.Ended) (hfs : Whole files fs)
    (hx : Unmentioned o.pre x (keys (setting o.pre) (contents files fs)) (tmp.all ++ contents files fs))
    (h : mergeFragments o files fs tmp notes = .ok (tmp', notes')) :
    read (setting o.pre) tmp'.all x = read (setting o.pre) (tmp.all ++ contents files fs) x := by
  induction fs generalizing tmp notes with
  | nil =>
    cases h
    rw [contents, List.flatMap_nil, List.append_nil]
  | cons f fs ih =>
    obtain ⟨t, ht, h⟩ := mergeFragments_cons h
    have htmp := htmp (List.cons_ne_nil f fs)
    rw [contents_cons ht, keys_append] at hx
    have hfirst : Unmentioned o.pre x (keys (setting o.pre) t.all) tmp.all :=
      hx.of_subset (fun l hl => List.mem_append_left _ hl) fun y hy => List.mem_append_left _ hy
    have hrest := ih (fun hne => mergedText_ended htmp (hfs.head hne ht)) hfs.tail
      (hx.of_subset (fun l hl => ?_) fun y hy => List.mem_append_right _ hy) h
    · rw [hrest, contents_cons ht, ← List.append_assoc, read_append, mergedText_read ho htmp hfirst, ← read_append]
    · rw [← List.append_assoc, List.mem_append]
      exact (List.mem_append.mp hl).imp (mem_of_mem_mergedText htmp) id

/-- The option of which the script says that its value did not make it to the configuration. -/
def Note.missing : Note → Option Name
  | .notInConfig x _ _ => some x
  | _ => none

def Silent (x : Name) (notes : List Note) : Prop := ∀ n ∈ notes, n.missing ≠ some x

instance (x : Name) (notes : List Note) : Decidable (Silent x notes) := inferInstanceAs (Decidable (∀ n ∈ notes, _))

theorem silent_missed {tmp config : List Line} (h : Silent x (missed pre tmp config))
    (hv : read (setting pre) tmp x = some v) : read (setting pre) config x = some v := by
  have hx : x ∈ keys (setting pre) tmp := by
    by_contra hx
    rw [read_eq_none hx] at hv
    cases hv
  by_cases hg : grepWord x tmp = grepWord x config
  · rw [← read_grepWord, ← hg, read_grepWord, hv]
  · refine absurd rfl (h (.notInConfig x (grepWord x tmp) (grepWord x config)) (List.mem_flatMap.mpr ⟨x, hx, ?_⟩))
    rw [if_pos hg]
    exact List.mem_singleton_self _

theorem script_ok (h : script o make files init fs = .ok (config, notes)) :
    ∃ t tmp ns, files init = some t ∧ mergeFragments o files fs t [.base init] = .ok (tmp, ns) ∧
      (Silent x notes → ∀ v, read (setting o.pre) tmp.all x = some v →
        read (setting o.pre) config.all x = some v) := by
  rw [script] at h
  split at h
  · cases h
  · rename_i t ht
    split at h
    · cases h
    · rename_i tmp ns hmerge
      refine ⟨t, tmp, ns, ht, hmerge, fun hsilent v hv => ?_⟩
      split at h
      · obtain ⟨rfl, rfl⟩ := Prod.mk.inj (Except.ok.inj h)
        exact silent_missed (fun n hmem => hsilent n (List.mem_append_right _ hmem)) hv
      · obtain ⟨rfl, rfl⟩ := Prod.mk.inj (Except.ok.inj h)
        exact hv

/-- Without `-y`, an option has the value that the last of the files gives to it, unless the script says that it did
    not take. -/
theorem script_read (ho : o.builtin = false) (h : script o make files init fs = .ok (config, notes))
    (hfs : Whole files (init :: fs))
    (hx : Unmentioned o.pre x (keys (setting o.pre) (contents files (init :: fs))) (contents files (init :: fs)))
    (hsilent : Silent x notes) (hv : read (setting o.pre) (contents files (init :: fs)) x = some v) :
    read (setting o.pre) config.all x = some v := by
  obtain ⟨t, tmp, ns, ht, hmerge, hconfig⟩ := script_ok (x := x) h
  rw [contents_cons ht] at hx hv
  refine hconfig hsilent v ?_
  rw [mergeFragments_read ho (fun hne => hfs.head hne ht) hfs.tail (hx.of_subset (fun _ hl => hl) fun y hy => ?_)
    hmerge, hv]
  rw [keys_append]
  exact List.mem_append_right _ hy

/-- A configuration and two fragments, of which the second one has no newline at its end. -/
def sample : String → Option Text
  | "defconfig" => some ⟨["CONFIG_SMP=y".toList, "# CONFIG_NUMA is not set".toList, "CONFIG_NET=y".toList], []⟩
  | "a.kfrag" => some ⟨["CONFIG_NUMA=y".toList, "CONFIG_NET=m".toList], []⟩
  | "b.kfrag" => some ⟨[], "# CONFIG_SMP is not set".toList⟩
  | _ => none

theorem script_read_numa :
    ∃ config notes, script {} id sample "defconfig" ["a.kfrag", "b.kfrag"] = .ok (config, notes) ∧
      read (setting "CONFIG_".toList) config.all "CONFIG_NUMA".toList = some (.text ['y']) := by
  refine ⟨_, _, rfl, script_read (o := {}) rfl
    (rfl : script {} id sample "defconfig" ["a.kfrag", "b.kfrag"] = _) ?_ ?_ ?_ ?_⟩
  all_goals decide +kernel

/-- A fragment after `b.kfrag` is lost: its first line ends the last one of `b.kfrag`. -/
example : ∃ config notes, script {} id sample "b.kfrag" ["a.kfrag"] = .ok (config, notes) ∧
    read (setting "CONFIG_".toList) config.all "CONFIG_NUMA".toList = none ∧
    Silent "CONFIG_NUMA".toList notes := by
  refine ⟨_, _, rfl, ?_, ?_⟩ <;> decide +kernel

end Merge

end FireMarshal
