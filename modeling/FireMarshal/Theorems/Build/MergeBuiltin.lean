import FireMarshal.Theorems.Build.Merge

/-! The option `-y` of the script: what is builtin stays builtin. -/

namespace FireMarshal

namespace Merge

open Layers

variable {pre x y : Name} {v : Value} {l : Line} {file : List Line} {t tmp tmp' config : Text} {o : Options}
  {f init : String} {notes notes' : List Note} {files : String → Option Text} {fs : List String} {make : Text → Text}

theorem stripName_nil : stripName [] = [] := by decide

structure Plain (pre x : Name) (ys : List Name) (file : List Line) : Prop where
  only : ∀ l ∈ file, hasWord x l = true → (setting pre l).map Prod.fst = some x
  unmentioned : Unmentioned pre x ys file

theorem Plain.of_subset {ys zs : List Name} {file' : List Line} (h : Plain pre x ys file)
    (hfile : ∀ l ∈ file', l ∈ file) (hys : ∀ y ∈ zs, y ∈ ys) : Plain pre x zs file' :=
  ⟨fun l hl => h.only l (hfile l hl), h.unmentioned.of_subset hfile hys⟩

theorem Plain.setting_eq {ys : List Name} (h : Plain pre x ys file) (hl : l ∈ file) (hw : hasWord x l = true) :
    ∃ v, setting pre l = some (x, v) := by
  obtain ⟨⟨x', v⟩, hset, rfl⟩ := Option.map_eq_some_iff.mp (h.only l hl hw)
  exact ⟨v, hset⟩

theorem Plain.grepWord_delete {ys : List Name} (h : Plain pre x ys file) (hy : y ∈ ys) (hxy : y ≠ x) :
    grepWord x (delete y file) = grepWord x file := by
  rw [grepWord, grepWord, delete, List.filter_filter]
  refine List.filter_congr fun l hl => ?_
  cases hw : hasWord x l with
  | false => rfl
  | true =>
    cases hm : mentions y l with
    | true => exact absurd (h.unmentioned l hl (h.only l hl hw) y hy hm) hxy
    | false => rfl

theorem Plain.grepWord_delete_self {ys : List Name} (h : Plain pre x ys file) : grepWord x (delete x file) = [] := by
  rw [grepWord, List.filter_eq_nil_iff]
  intro l hl hw
  obtain ⟨hl, hm⟩ := List.mem_filter.mp hl
  obtain ⟨v, hset⟩ := h.setting_eq hl hw
  rw [mentions_of_setting hset] at hm
  cases hm

theorem Plain.mem_keys {ys : List Name} (h : Plain pre x ys file) (hne : grepWord x file ≠ []) :
    x ∈ keys (setting pre) file := by
  obtain ⟨l, hl⟩ := List.exists_mem_of_ne_nil _ hne
  obtain ⟨hl, hw⟩ := List.mem_filter.mp hl
  exact mem_keys_iff.mpr ⟨l, hl, h.setting_eq hl hw⟩

theorem count_keys_le : (keys (setting pre) file).count x ≤ (grepWord x file).length := by
  induction file with
  | nil => exact Nat.le_refl _
  | cons l file ih =>
    rw [← List.singleton_append, keys_append, grepWord_append, List.count_append, List.length_append]
    refine Nat.add_le_add ?_ ih
    cases hset : setting pre l with
    | none => simp [keys, hset]
    | some e =>
      obtain ⟨y, v⟩ := e
      have hkey : keys (setting pre) [l] = [y] := by simp [keys, hset]
      by_cases hxy : y = x
      · subst hxy
        have hw := hasWord_of_setting hset
        simp [hkey, grepWord, hw]
      · simp [hkey, hxy]

theorem mergeOption_grepWord_of_ne {ys : List Name} {s : State} (htmp : Plain pre x ys s.tmp.all)
    (hmerge : Plain pre x ys s.merge.all) (hy : y ∈ ys) (hxy : y ≠ x) :
    grepWord x (mergeOption o f s y).tmp.all = grepWord x s.tmp.all ∧
      grepWord x (mergeOption o f s y).merge.all = grepWord x s.merge.all := by
  obtain ⟨-, h⟩ | ⟨-, -, h1, h2⟩ | ⟨-, -, h1, h2⟩ := mergeOption_cases o f s y
  · rw [h]
    exact ⟨rfl, rfl⟩
  · rw [h1, h2, all_delete, hmerge.grepWord_delete hy hxy]
    exact ⟨rfl, rfl⟩
  · rw [h1, h2, all_delete, htmp.grepWord_delete hy hxy]
    exact ⟨rfl, rfl⟩

theorem foldl_mergeOption_grepWord {zs ys : List Name} {s : State} (htmp : Plain pre x zs s.tmp.all)
    (hmerge : Plain pre x zs s.merge.all) (hys : ∀ y ∈ ys, y ∈ zs) (hx : x ∉ ys) :
    grepWord x (ys.foldl (mergeOption o f) s).tmp.all = grepWord x s.tmp.all ∧
      grepWord x (ys.foldl (mergeOption o f) s).merge.all = grepWord x s.merge.all := by
  induction ys generalizing s with
  | nil => exact ⟨rfl, rfl⟩
  | cons y ys ih =>
    rw [List.mem_cons, not_or] at hx
    obtain ⟨h1, h2⟩ := mergeOption_grepWord_of_ne (o := o) (f := f) htmp hmerge (hys y List.mem_cons_self)
      (Ne.symm hx.1)
    obtain ⟨h3, h4⟩ := ih (htmp.of_subset (fun l hl => (mergeOption_tmp_sublist s).subset hl) fun _ hz => hz)
      (hmerge.of_subset (fun l hl => (mergeOption_merge_sublist s).subset hl) fun _ hz => hz)
      (fun z hz => hys z (List.mem_cons_of_mem y hz)) hx.2
    exact ⟨h3.trans h1, h4.trans h2⟩

theorem mergedText_grepWord (hended : tmp.Ended) (htmp : Plain o.pre x (keys (setting o.pre) t.all) tmp.all)
    (hfile : Plain o.pre x (keys (setting o.pre) t.all) t.all) (hone : (grepWord x t.all).length ≤ 1) :
    grepWord x (mergedText o f t tmp notes).all =
      if grepWord x t.all = [] then grepWord x tmp.all
      else if (o.builtin && stripName (grepWord x t.all) == ['m'] && stripName (grepWord x tmp.all) == ['y']) = true then
        grepWord x tmp.all
      else grepWord x t.all := by
  rw [all_mergedText hended, mergeFragment, grepWord_append]
  set s : State := ⟨tmp, t, notes ++ [.merging f]⟩
  by_cases hnil : grepWord x t.all = []
  · obtain ⟨h1, h2⟩ := foldl_mergeOption_grepWord (o := o) (f := f) (s := s) htmp hfile (fun _ hy => hy)
      (grepWord_eq_nil hnil)
    rw [h1, h2, if_pos hnil, hnil, List.append_nil]
  · -- `x` comes up exactly once; the rounds before and after it leave its lines alone.
    obtain ⟨as, bs, hkeys⟩ := List.append_of_mem (hfile.mem_keys hnil)
    have hcount : (keys (setting o.pre) t.all).count x ≤ 1 := Nat.le_trans count_keys_le hone
    rw [hkeys, List.count_append, List.count_cons_self] at hcount
    have has : x ∉ as := List.count_eq_zero.mp (by omega)
    have hbs : x ∉ bs := List.count_eq_zero.mp (by omega)
    rw [if_neg hnil, hkeys, List.foldl_append, List.foldl_cons]
    obtain ⟨h1, h2⟩ := foldl_mergeOption_grepWord (o := o) (f := f) (s := s) htmp hfile
      (fun y hy => by rw [hkeys]; exact List.mem_append_left _ hy) has
    obtain ⟨hsub1, hsub2⟩ := foldl_mergeOption_sublist (o := o) (f := f) as s
    set u := as.foldl (mergeOption o f) s
    have htmp' : Plain o.pre x (keys (setting o.pre) t.all) u.tmp.all :=
      htmp.of_subset (fun l hl => hsub1.subset hl) fun _ h => h
    have hfile' : Plain o.pre x (keys (setting o.pre) t.all) u.merge.all :=
      hfile.of_subset (fun l hl => hsub2.subset hl) fun _ h => h
    obtain ⟨h3, h4⟩ := foldl_mergeOption_grepWord (o := o) (f := f) (s := mergeOption o f u x)
      (htmp'.of_subset (fun l hl => (mergeOption_tmp_sublist u).subset hl) fun _ h => h)
      (hfile'.of_subset (fun l hl => (mergeOption_merge_sublist u).subset hl) fun _ h => h)
      (fun y hy => by rw [hkeys]; exact List.mem_append_right _ (List.mem_cons_of_mem x hy)) hbs
    rw [h3, h4]
    obtain ⟨hp, h⟩ | ⟨-, hd, h5, h6⟩ | ⟨-, hd, h5, h6⟩ := mergeOption_cases o f u x
    · rw [h1] at hp
      rw [h, h1, h2, hp, stripName_nil, if_neg (by simp), List.nil_append]
    · rw [h1, h2] at hd
      rw [h5, h6, all_delete, hfile'.grepWord_delete_self, h1, if_pos hd, List.append_nil]
    · rw [h1, h2] at hd
      rw [h5, h6, all_delete, htmp'.grepWord_delete_self, h2, hd, if_neg Bool.false_ne_true, List.nil_append]

/-- The value of an option after a fragment: with `-y`, a builtin is not demoted to a module. -/
def settle (builtin : Bool) (prev new : Option Value) : Option Value :=
  if builtin = true ∧ prev = some (.text ['y']) ∧ new = some (.text ['m']) then prev else new.or prev

theorem dropWhile_name {w : List Char} (t : List Char) (h : ∀ c ∈ w, isWord c = true) :
    (w ++ '=' :: t).dropWhile (· != '=') = '=' :: t := by
  rw [List.dropWhile_append_of_pos fun c hc => ?_]
  · rfl
  · rw [bne_iff_ne]
    rintro rfl
    exact absurd (h '=' hc) (by decide)

theorem stripName_eq_iff {c : Char} (hc : c ≠ '#') (h : setting "CONFIG_".toList l = some (x, v)) :
    (stripName [l] == [c]) = true ↔ v = .text [c] := by
  obtain ⟨u, hu, rfl, ⟨w, rfl, rfl⟩ | ⟨rfl, rfl⟩⟩ := setting_cases h
  · have hstrip : stripName ["CONFIG_".toList ++ u ++ '=' :: w] = w := by
      rw [stripName, List.intercalate_singleton, List.append_assoc,
        if_pos (List.isPrefixOf_iff_prefix.mpr (List.prefix_append _ _)), ← String.length_toList, List.drop_left,
        dropWhile_name w hu]
    rw [hstrip, beq_iff_eq, Value.text.injEq]
  · have hstrip : stripName ['#' :: ' ' :: ("CONFIG_".toList ++ u ++ " is not set".toList)] =
        '#' :: ' ' :: ("CONFIG_".toList ++ u ++ " is not set".toList) := by
      rw [stripName, List.intercalate_singleton, if_neg]
      exact Bool.false_ne_true
    rw [hstrip, beq_iff_eq]
    constructor
    · intro heq
      exact absurd (List.cons.inj heq).1.symm hc
    · intro heq
      cases heq

theorem read_singleton (h : setting pre l = some (x, v)) : read (setting pre) [l] x = some v := by
  simp [Layers.read, h]

theorem Plain.grepWord_cases {ys : List Name} (h : Plain pre x ys file) (hone : (grepWord x file).length ≤ 1) :
    (grepWord x file = [] ∧ read (setting pre) file x = none) ∨
    ∃ l v, grepWord x file = [l] ∧ setting pre l = some (x, v) ∧ read (setting pre) file x = some v := by
  rcases hg : grepWord x file with - | ⟨l, rest⟩
  · exact .inl ⟨rfl, read_eq_none (grepWord_eq_nil hg)⟩
  · rw [hg, List.length_cons] at hone
    obtain rfl := List.eq_nil_of_length_eq_zero (show rest.length = 0 by omega)
    obtain ⟨hl, hw⟩ := List.mem_filter.mp (hg ▸ List.mem_singleton_self l : l ∈ grepWord x file)
    obtain ⟨v, hset⟩ := h.setting_eq hl hw
    exact .inr ⟨l, v, rfl, hset, by rw [← read_grepWord, hg, read_singleton hset]⟩

theorem mergedText_settle (f : String) (notes : List Note) (ho : o.pre = "CONFIG_".toList) (hended : tmp.Ended)
    (htmp : Plain o.pre x (keys (setting o.pre) t.all) tmp.all)
    (hfile : Plain o.pre x (keys (setting o.pre) t.all) t.all) (htmp1 : (grepWord x tmp.all).length ≤ 1)
    (hfile1 : (grepWord x t.all).length ≤ 1) :
    read (setting o.pre) (mergedText o f t tmp notes).all x =
        settle o.builtin (read (setting o.pre) tmp.all x) (read (setting o.pre) t.all x) ∧
      (grepWord x (mergedText o f t tmp notes).all).length ≤ 1 := by
  rw [← read_grepWord, mergedText_grepWord hended htmp hfile hfile1]
  obtain ⟨hp, hprev⟩ | ⟨l, v, hp, hset, hprev⟩ := htmp.grepWord_cases htmp1
  · obtain ⟨hn, hnew⟩ | ⟨l', v', hn, hset', hnew⟩ := hfile.grepWord_cases hfile1
    · simp [hp, hn, hprev, hnew, settle]
    · simp [hp, hn, hprev, hnew, settle, stripName_nil, read_singleton hset']
  · obtain ⟨hn, hnew⟩ | ⟨l', v', hn, hset', hnew⟩ := hfile.grepWord_cases hfile1
    · simp [hp, hn, hprev, hnew, settle, read_singleton hset]
    · rw [ho] at hset hset'
      have hy := stripName_eq_iff (c := 'y') (by decide) hset
      have hm := stripName_eq_iff (c := 'm') (by decide) hset'
      rw [hp, hn, hprev, hnew, if_neg (List.cons_ne_nil _ _), settle]
      by_cases hd : o.builtin = true ∧ some v = some (.text ['y']) ∧ some v' = some (.text ['m'])
      · have hcond : (o.builtin && stripName [l'] == ['m'] && stripName [l] == ['y']) = true := by
          rw [hd.1, hy.mpr (Option.some.inj hd.2.1), hm.mpr (Option.some.inj hd.2.2)]
          rfl
        rw [if_pos hcond, if_pos hd, ho, read_singleton hset]
        exact ⟨rfl, Nat.le_refl 1⟩
      · have hcond : ¬(o.builtin && stripName [l'] == ['m'] && stripName [l] == ['y']) = true := by
          rw [Bool.and_eq_true, Bool.and_eq_true, hm, hy]
          rintro ⟨⟨hb, hm⟩, hy⟩
          exact hd ⟨hb, congrArg some hy, congrArg some hm⟩
        rw [if_neg hcond, if_neg hd, ho, read_singleton hset']
        exact ⟨rfl, Nat.le_refl 1⟩

def settled (o : Options) (files : String → Option Text) (x : Name) (v : Option Value) (fs : List String) :
    Option Value :=
  fs.foldl (fun v f => settle o.builtin v (read (setting o.pre) (contents files [f]) x)) v

theorem contents_singleton (h : files f = some t) : contents files [f] = t.all := by
  rw [contents_cons h, contents, List.flatMap_nil, List.append_nil]

theorem mergeFragments_settle (ho : o.pre = "CONFIG_".toList) (hended : fs ≠ [] → tmp.Ended) (hfs : Whole files fs)
    (hx : Plain o.pre x (keys (setting o.pre) (contents files fs)) (tmp.all ++ contents files fs))
    (htmp1 : (grepWord x tmp.all).length ≤ 1) (hone : ∀ f ∈ fs, (grepWord x (contents files [f])).length ≤ 1)
    (h : mergeFragments o files fs tmp notes = .ok (tmp', notes')) :
    read (setting o.pre) tmp'.all x = settled o files x (read (setting o.pre) tmp.all x) fs := by
  induction fs generalizing tmp notes with
  | nil =>
    cases h
    rfl
  | cons f fs ih =>
    obtain ⟨t, ht, h⟩ := mergeFragments_cons h
    have hended := hended (List.cons_ne_nil f fs)
    have hone1 := hone f List.mem_cons_self
    rw [contents_singleton ht] at hone1
    rw [contents_cons ht, keys_append] at hx
    have hplain : Plain o.pre x (keys (setting o.pre) t.all) (tmp.all ++ t.all) :=
      hx.of_subset (fun l hl => by rw [← List.append_assoc]; exact List.mem_append_left _ hl)
        fun y hy => List.mem_append_left _ hy
    obtain ⟨hread, hlen⟩ := mergedText_settle f notes ho hended
      (hplain.of_subset (fun l hl => List.mem_append_left _ hl) fun _ hy => hy)
      (hplain.of_subset (fun l hl => List.mem_append_right _ hl) fun _ hy => hy) htmp1 hone1
    have hrest := ih (fun hne => mergedText_ended hended (hfs.head hne ht)) hfs.tail
      (hx.of_subset (fun l hl => ?_) fun y hy => List.mem_append_right _ hy) hlen
      (fun g hg => hone g (List.mem_cons_of_mem f hg)) h
    · rw [hrest, hread, settled, settled, List.foldl_cons, contents_singleton ht]
    · rw [← List.append_assoc, List.mem_append]
      exact (List.mem_append.mp hl).imp (mem_of_mem_mergedText hended) id

/-- With or without `-y`, for an option that every file sets at most once and that stands nowhere else. -/
theorem script_settled (ho : o.pre = "CONFIG_".toList) (h : script o make files init fs = .ok (config, notes))
    (hfs : Whole files (init :: fs))
    (hx : Plain o.pre x (keys (setting o.pre) (contents files (init :: fs))) (contents files (init :: fs)))
    (hone : ∀ f ∈ init :: fs, (grepWord x (contents files [f])).length ≤ 1) (hsilent : Silent x notes)
    (hv : settled o files x none (init :: fs) = some v) : read (setting o.pre) config.all x = some v := by
  obtain ⟨t, tmp, ns, ht, hmerge, hconfig⟩ := script_ok (x := x) h
  have hone1 := hone init List.mem_cons_self
  rw [contents_singleton ht] at hone1
  rw [contents_cons ht, keys_append] at hx
  refine hconfig hsilent v ?_
  rw [mergeFragments_settle ho (fun hne => hfs.head hne ht) hfs.tail
    (hx.of_subset (fun _ hl => hl) fun y hy => List.mem_append_right _ hy) hone1
    (fun f hf => hone f (List.mem_cons_of_mem init hf)) hmerge]
  rw [settled, List.foldl_cons, contents_singleton ht, settle, if_neg (by simp), Option.or_none] at hv
  exact hv

theorem script_settled_net :
    ∃ config notes, script { builtin := true } id sample "defconfig" ["a.kfrag", "b.kfrag"] = .ok (config, notes) ∧
      read (setting "CONFIG_".toList) config.all "CONFIG_NET".toList = some (.text ['y']) := by
  refine ⟨_, _, rfl, script_settled (o := { builtin := true }) rfl
    (rfl : script { builtin := true } id sample "defconfig" ["a.kfrag", "b.kfrag"] = _) ?_ ⟨?_, ?_⟩ ?_ ?_ ?_⟩
  all_goals decide +kernel

end Merge

end FireMarshal
