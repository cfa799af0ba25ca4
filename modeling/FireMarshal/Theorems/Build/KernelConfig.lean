import FireMarshal.Theorems.Build.Merge

/-! What the kernels and buildroot are configured with. -/

namespace FireMarshal

/-! ### Kernels -/

section Kernel

open Merge Layers

variable {ε : Type} {merge : MergeScript ε} {files : String → Option Text} {defCfg : String} {x : Name}
  {config config' : Text} {v : Value} {b : KernelBuild} {bs : List KernelBuild} {Fair : Text → Prop}

/-- On fair files the script leaves `x` with the value that the last of the files gives to it, and what it writes is
    fair again. -/
structure LastWins (merge : MergeScript ε) (x : Name) (Fair : Text → Prop) : Prop where
  value : ∀ files init fs config, merge files init fs = .ok config → (∀ f ∈ init :: fs, ∀ t ∈ files f, Fair t) →
    ∀ v, read (setting "CONFIG_".toList) (contents files (init :: fs)) x = some v →
      read (setting "CONFIG_".toList) config.all x = some v
  fair : ∀ files init fs config, merge files init fs = .ok config → (∀ f ∈ init :: fs, ∀ t ∈ files f, Fair t) →
    Fair config

theorem contents_of_not_mem {fs : List String} {file : Option Text} (h : defCfg ∉ fs) :
    contents (fun f => if f = defCfg then file else files f) fs = contents files fs := by
  induction fs with
  | nil => rfl
  | cons f fs ih =>
    rw [List.mem_cons, not_or] at h
    have ih := ih h.2
    rw [contents] at ih ⊢
    rw [List.flatMap_cons, ih, if_neg (Ne.symm h.1)]
    rfl

structure Tidy (x : Name) (ys : List Name) (t : Text) : Prop where
  ended : t.Ended
  keys : ∀ y ∈ keys (setting "CONFIG_".toList) t.all, y ∈ ys
  unmentioned : Unmentioned "CONFIG_".toList x ys t.all

instance (x : Name) (ys : List Name) (t : Text) : Decidable (Tidy x ys t) :=
  decidable_of_iff (t.Ended ∧ (∀ y ∈ keys (setting "CONFIG_".toList) t.all, y ∈ ys) ∧
      Unmentioned "CONFIG_".toList x ys t.all)
    ⟨fun ⟨h₁, h₂, h₃⟩ => ⟨h₁, h₂, h₃⟩, fun h => ⟨h.ended, h.keys, h.unmentioned⟩⟩

theorem mem_contents_iff {fs : List String} {l : Line} :
    l ∈ contents files fs ↔ ∃ f ∈ fs, ∃ t ∈ files f, l ∈ t.all := by
  simp only [contents, List.mem_flatMap]
  refine exists_congr fun f => and_congr_right fun _ => ?_
  cases files f with
  | none => simp
  | some t => simp

theorem Tidy.mergedText {o : Options} {f : String} {ys : List Name} {t tmp : Text} {notes : List Note}
    (htmp : Tidy x ys tmp) (ht : Tidy x ys t) : Tidy x ys (mergedText o f t tmp notes) := by
  have hmem : ∀ l ∈ (Merge.mergedText o f t tmp notes).all, l ∈ tmp.all ++ t.all :=
    fun _ => mem_of_mem_mergedText htmp.ended
  refine ⟨mergedText_ended htmp.ended ht.ended, fun y hy => ?_, fun l hl => ?_⟩
  · obtain ⟨l, hl, v, hset⟩ := mem_keys_iff.mp hy
    obtain hl | hl := List.mem_append.mp (hmem l hl)
    · exact htmp.keys y (mem_keys_iff.mpr ⟨l, hl, v, hset⟩)
    · exact ht.keys y (mem_keys_iff.mpr ⟨l, hl, v, hset⟩)
  · exact (List.mem_append.mp (hmem l hl)).elim (htmp.unmentioned l) (ht.unmentioned l)

theorem mergeFragments_tidy {o : Options} {ys : List Name} {fs : List String} {tmp tmp' : Text}
    {notes notes' : List Note} (htmp : Tidy x ys tmp) (hfs : ∀ f ∈ fs, ∀ t ∈ files f, Tidy x ys t)
    (h : mergeFragments o files fs tmp notes = .ok (tmp', notes')) : Tidy x ys tmp' := by
  induction fs generalizing tmp notes with
  | nil =>
    cases h
    exact htmp
  | cons f fs ih =>
    obtain ⟨t, ht, h⟩ := mergeFragments_cons h
    exact ih (htmp.mergedText (hfs f List.mem_cons_self t ht)) (fun g hg => hfs g (List.mem_cons_of_mem f hg)) h

theorem script_tidy {make : Text → Text} {ys : List Name} {init : String} {fs : List String}
    (h : (script {} make files init fs).map Prod.fst = .ok config)
    (hfiles : ∀ f ∈ init :: fs, ∀ t ∈ files f, Tidy x ys t) :
    ∃ tmp, Tidy x ys tmp ∧ config = make tmp ∧ read (setting "CONFIG_".toList) tmp.all x =
      read (setting "CONFIG_".toList) (contents files (init :: fs)) x := by
  cases hs : script {} make files init fs with
  | error e =>
    rw [hs] at h
    cases h
  | ok r =>
    rw [hs] at h
    cases h
    rw [script] at hs
    split at hs
    · cases hs
    rename_i t ht
    split at hs
    · cases hs
    rename_i tmp notes hmerge
    cases hs
    have htidy := hfiles init List.mem_cons_self t ht
    have hfs := fun f hf => hfiles f (List.mem_cons_of_mem init hf)
    refine ⟨tmp, mergeFragments_tidy htidy hfs hmerge, rfl, ?_⟩
    rw [contents_cons ht]
    refine mergeFragments_read rfl (fun _ => htidy.ended)
      (fun f hf t ht => (hfs f (List.mem_of_mem_dropLast hf) t ht).ended) (fun l hl hset y hy => ?_) hmerge
    have hy : y ∈ ys := by
      obtain ⟨l, hl, v, hset⟩ := mem_keys_iff.mp hy
      obtain ⟨f, hf, t, ht, hl⟩ := mem_contents_iff.mp hl
      exact (hfs f hf t ht).keys y (mem_keys_iff.mpr ⟨l, hl, v, hset⟩)
    obtain hl | hl := List.mem_append.mp hl
    · exact htidy.unmentioned l hl hset y hy
    · obtain ⟨f, hf, t, ht, hl⟩ := mem_contents_iff.mp hl
      exact (hfs f hf t ht).unmentioned l hl hset y hy

/-- The script of buildroot is such a script, if `make` takes the values of a tidy file. -/
theorem script_lastWins {make : Text → Text} {ys : List Name} (hmake : ∀ tmp, Tidy x ys tmp → Tidy x ys (make tmp) ∧
      ∀ v, read (setting "CONFIG_".toList) tmp.all x = some v →
        read (setting "CONFIG_".toList) (make tmp).all x = some v) :
    LastWins (fun files init fs => (script {} make files init fs).map Prod.fst) x (Tidy x ys) := by
  constructor
  · intro files init fs config h hfiles v hv
    obtain ⟨tmp, htidy, rfl, hread⟩ := script_tidy h hfiles
    exact (hmake tmp htidy).2 v (hread.trans hv)
  · intro files init fs config h hfiles
    obtain ⟨tmp, htidy, rfl, -⟩ := script_tidy h hfiles
    exact (hmake tmp htidy).1

theorem generateKConfig_read {kfrags : List String} (hmerge : LastWins merge x Fair) (hdef : defCfg ∉ kfrags)
    (hconfig : Fair config) (hfair : ∀ f ∈ kfrags, ∀ t ∈ files f, Fair t)
    (h : generateKConfig merge files defCfg kfrags config = .ok config') :
    Fair config' ∧ ∀ v, read (setting "CONFIG_".toList) (config.all ++ contents files kfrags) x = some v →
      read (setting "CONFIG_".toList) config'.all x = some v := by
  have hall : ∀ f ∈ defCfg :: kfrags, ∀ t ∈ (if f = defCfg then some config else files f), Fair t := by
    intro f hf t ht
    split at ht
    · cases ht
      exact hconfig
    · rename_i hne
      exact hfair f ((List.mem_cons.mp hf).resolve_left hne) t ht
  refine ⟨hmerge.fair _ _ _ _ h hall, fun v hv => hmerge.value _ _ _ _ h hall v ?_⟩
  rw [contents_cons (if_pos rfl), contents_of_not_mem hdef]
  exact hv

def asked : List KernelBuild → (String → Option Text) → List Line
  | [], _ => []
  | b :: bs, files => contents (b.written files) b.fragments ++ asked bs (b.written files)

def KernelBuild.Apart (defCfg : String) (b : KernelBuild) : Prop :=
  defCfg ∉ b.fragments ∧ b.initramfsKfrag ∉ b.kfrags

instance (defCfg : String) (b : KernelBuild) : Decidable (b.Apart defCfg) := inferInstanceAs (Decidable (_ ∧ _))

theorem KernelBuild.Apart.contents_fragments (files : String → Option Text) (h : b.Apart defCfg) :
    contents (b.written files) b.fragments =
      contents files b.kfrags ++ (makeInitramfsKfrag b.initramfsPath).all := by
  rw [KernelBuild.fragments, contents, List.flatMap_append, List.flatMap_singleton, KernelBuild.written, if_pos rfl]
  exact congrArg (· ++ _) (contents_of_not_mem h.2)

theorem KernelBuild.written_fair {fs : List String} (hb : Fair (makeInitramfsKfrag b.initramfsPath))
    (h : ∀ f ∈ fs, ∀ t ∈ files f, Fair t) : ∀ f ∈ fs, ∀ t ∈ b.written files f, Fair t := by
  intro f hf t ht
  rw [KernelBuild.written] at ht
  split at ht
  · cases ht
    exact hb
  · exact h f hf t ht

theorem configureKernel_read (hmerge : LastWins merge x Fair) (hb : b.Apart defCfg) (hconfig : Fair config)
    (hfair : ∀ f ∈ b.kfrags, ∀ t ∈ files f, Fair t) (hinit : Fair (makeInitramfsKfrag b.initramfsPath))
    (h : configureKernel merge files defCfg config b = .ok config') :
    Fair config' ∧
      ∀ v, read (setting "CONFIG_".toList) (config.all ++ contents (b.written files) b.fragments) x = some v →
        read (setting "CONFIG_".toList) config'.all x = some v := by
  rw [configureKernel] at h
  split at h
  · cases h
  rename_i modules hmodules
  obtain ⟨hmod, hmodv⟩ := generateKConfig_read hmerge (fun hmem => hb.1 (List.mem_append_left _ hmem)) hconfig hfair
    hmodules
  have hall : ∀ f ∈ b.fragments, ∀ t ∈ b.written files f, Fair t := by
    intro f hf t ht
    obtain hf | hf := List.mem_append.mp hf
    · exact KernelBuild.written_fair hinit hfair f hf t ht
    · obtain rfl := List.mem_singleton.mp hf
      rw [KernelBuild.written, if_pos rfl] at ht
      cases ht
      exact hinit
  obtain ⟨hlin, hlinv⟩ := generateKConfig_read hmerge hb.1 hmod hall h
  refine ⟨hlin, fun v hv => hlinv v ?_⟩
  rw [hb.contents_fragments files, ← List.append_assoc] at hv ⊢
  refine read_append_of_imp (fun w hw => ?_) hv
  have hmodw := hmodv w hw
  rw [read_append] at hw ⊢
  cases hk : read (setting "CONFIG_".toList) (contents files b.kfrags) x with
  | some u => rwa [hk] at hw
  | none => rw [hmodw]; rfl

/-- An option has the value of the last fragment that sets it in all of the builds so far, and only where none does
    that of the first configuration. -/
theorem configureKernels_read (hmerge : LastWins merge x Fair) (hbs : ∀ b ∈ bs, b.Apart defCfg)
    (hconfig : Fair config) (hfair : ∀ b ∈ bs, ∀ f ∈ b.kfrags, ∀ t ∈ files f, Fair t)
    (hinit : ∀ b ∈ bs, Fair (makeInitramfsKfrag b.initramfsPath))
    (h : configureKernels merge defCfg bs files config = .ok config')
    (hv : read (setting "CONFIG_".toList) (config.all ++ asked bs files) x = some v) :
    read (setting "CONFIG_".toList) config'.all x = some v := by
  induction bs generalizing files config with
  | nil =>
    cases h
    rwa [asked, List.append_nil] at hv
  | cons b bs ih =>
    rw [configureKernels] at h
    split at h
    · cases h
    rename_i config₁ hfirst
    have hb : b ∈ b :: bs := List.mem_cons_self
    obtain ⟨hconfig₁, hv₁⟩ := configureKernel_read hmerge (hbs b hb) hconfig (hfair b hb) (hinit b hb) hfirst
    rw [asked, ← List.append_assoc] at hv
    exact ih (fun b' hb' => hbs b' (List.mem_cons_of_mem b hb')) hconfig₁
      (fun b' hb' => KernelBuild.written_fair (hinit b hb) (hfair b' (List.mem_cons_of_mem b hb')))
      (fun b' hb' => hinit b' (List.mem_cons_of_mem b hb')) h (read_append_of_imp hv₁ hv)

theorem configureKernels_read_numa :
    ∃ config, configureKernels (fun files init fs => (script {} id files init fs).map Prod.fst) "gen/defconfig"
        [⟨["a.kfrag"], "a/initramfs.kfrag", "a/initramfs.cpio"⟩, ⟨[], "b/initramfs.kfrag", "b/initramfs.cpio"⟩]
        sample ⟨["# CONFIG_NUMA is not set".toList], []⟩ = .ok config ∧
      read (setting "CONFIG_".toList) config.all "CONFIG_NUMA".toList = some (.text ['y']) := by
  have hmerge : LastWins (fun files init fs => (script {} id files init fs).map Prod.fst) "CONFIG_NUMA".toList
      (Tidy "CONFIG_NUMA".toList ["CONFIG_NUMA".toList, "CONFIG_NET".toList, "CONFIG_BLK_DEV_INITRD".toList,
        "CONFIG_INITRAMFS_SOURCE".toList]) := script_lastWins fun _ h => ⟨h, fun _ hv => hv⟩
  refine ⟨_, rfl, configureKernels_read hmerge ?_ ?_ ?_ ?_
    (rfl : configureKernels (fun files init fs => (script {} id files init fs).map Prod.fst) "gen/defconfig"
        [⟨["a.kfrag"], "a/initramfs.kfrag", "a/initramfs.cpio"⟩, ⟨[], "b/initramfs.kfrag", "b/initramfs.cpio"⟩]
        sample ⟨["# CONFIG_NUMA is not set".toList], []⟩ = _) ?_⟩
  all_goals decide +kernel

end Kernel

/-! ### Buildroot -/

namespace br

open Merge Layers

variable {make : Text → Text} {files : String → Option Text} {genDir : String} {defconfig : Text}
  {configs : List String}

theorem mergeFragments_eq_append {o : Options} {fs : List String} {tmp : Text} (notes : List Note)
    (htmp : fs ≠ [] → tmp.Ended) (hfs : Whole files fs)
    (h : ∀ f ∈ fs, ∃ t, files f = some t ∧ keys (setting o.pre) t.all = []) :
    ∃ tmp', mergeFragments o files fs tmp notes = .ok (tmp', notes ++ fs.map Note.merging) ∧
      tmp'.all = tmp.all ++ contents files fs := by
  induction fs generalizing tmp notes with
  | nil => exact ⟨tmp, by rw [mergeFragments, List.map_nil, List.append_nil], (List.append_nil _).symm⟩
  | cons f fs ih =>
    obtain ⟨t, ht, hkeys⟩ := h f List.mem_cons_self
    have htmp := htmp (List.cons_ne_nil f fs)
    have hs : mergeFragment o f t tmp notes = ⟨tmp, t, notes ++ [.merging f]⟩ := by
      rw [mergeFragment, hkeys]
      rfl
    obtain ⟨tmp', hmerge, hall⟩ := @ih (tmp.cat t) (notes ++ [.merging f])
      (fun hne => htmp.cat (hfs.head hne ht)) hfs.tail fun g hg => h g (List.mem_cons_of_mem f hg)
    refine ⟨tmp', ?_, ?_⟩
    · rw [mergeFragments, ht]
      dsimp only
      rw [hs, hmerge, List.append_assoc]
      rfl
    · rw [hall, Text.all_cat htmp, contents_cons ht, List.append_assoc]

theorem setting_eq_none {c : Char} (t : List Char) (hc : c ≠ 'C') (hc' : c ≠ '#') :
    setting "CONFIG_".toList (c :: t) = none := by
  cases hset : setting "CONFIG_".toList (c :: t) with
  | none => rfl
  | some e =>
    obtain ⟨u, -, hx, ⟨w, -, hl⟩ | ⟨-, hl⟩⟩ := setting_cases (x := e.1) (v := e.2) hset
    · rw [hx] at hl
      exact absurd (Option.some.inj (congrArg List.head? hl)) hc
    · exact absurd (Option.some.inj (congrArg List.head? hl)) hc'

theorem toolKfrag_ended (v : ToolVersions) (jlevel : Nat) : (toolKfrag v jlevel).Ended := rfl

theorem toolKfrag_head {v : ToolVersions} {jlevel : Nat} {l : Line} (h : l ∈ (toolKfrag v jlevel).all) :
    ∃ t, l = 'B' :: t := by
  rw [Text.all_of_ended (toolKfrag_ended v jlevel)] at h
  simp only [toolKfrag, List.map_cons, List.map_nil, List.mem_cons, List.not_mem_nil, or_false,
    String.toList_append] at h
  rcases h with rfl | rfl | rfl | rfl | rfl | rfl | rfl | rfl
  all_goals exact ⟨_, rfl⟩

theorem keys_toolKfrag (v : ToolVersions) (jlevel : Nat) :
    keys (setting "CONFIG_".toList) (toolKfrag v jlevel).all = [] := by
  rw [List.eq_nil_iff_forall_not_mem]
  intro x hx
  obtain ⟨l, hl, v, hset⟩ := mem_keys_iff.mp hx
  obtain ⟨t, rfl⟩ := toolKfrag_head hl
  rw [setting_eq_none t (by decide) (by decide)] at hset
  cases hset

theorem keys_contents {fs : List String}
    (h : ∀ f ∈ fs, ∃ t, files f = some t ∧ keys (setting "CONFIG_".toList) t.all = []) :
    keys (setting "CONFIG_".toList) (contents files fs) = [] := by
  induction fs with
  | nil => rfl
  | cons f fs ih =>
    obtain ⟨t, ht, hkeys⟩ := h f List.mem_cons_self
    rw [contents_cons ht, keys_append, hkeys, ih fun g hg => h g (List.mem_cons_of_mem f hg)]
    rfl

theorem missed_eq_nil {tmp : List Line} (config : List Line) (h : keys (setting "CONFIG_".toList) tmp = []) :
    missed "CONFIG_".toList tmp config = [] := by
  rw [missed, h]
  rfl

def Foreign (files : String → Option Text) (genDir f : String) : Prop :=
  f ≠ joinPath genDir "brDefConfig" ∧ f ≠ joinPath genDir "brToolKfrag" ∧
    ∃ t, files f = some t ∧ keys (setting "CONFIG_".toList) t.all = []

theorem Foreign.written {f : String} (tool defconfig : Text) (h : Foreign files genDir f) :
    written files genDir tool defconfig f = files f := by
  rw [br.written, if_neg h.1, if_neg h.2.1]

theorem written_toolKfrag (tool defconfig : Text) :
    written files genDir tool defconfig (joinPath genDir "brToolKfrag") = some tool := by
  have hne : joinPath genDir "brToolKfrag" ≠ joinPath genDir "brDefConfig" := by
    rw [joinPath, joinPath, ne_eq, Posix.join_inj (by decide) (by decide)]
    decide
  rw [br.written, if_neg hne, if_pos rfl]

theorem contents_written {tool : Text} (h : ∀ f ∈ configs, Foreign files genDir f) :
    contents (written files genDir tool defconfig) (joinPath genDir "brToolKfrag" :: configs) =
      tool.all ++ contents files configs := by
  rw [contents_cons (written_toolKfrag tool defconfig)]
  refine congrArg (tool.all ++ ·) (List.flatMap_congr fun f hf => ?_)
  rw [(h f hf).written]

theorem written_foreign {tool : Text} (defconfig : Text) (htool : keys (setting "CONFIG_".toList) tool.all = [])
    (h : ∀ f ∈ configs, Foreign files genDir f) :
    ∀ f ∈ joinPath genDir "brToolKfrag" :: configs, ∃ t,
      written files genDir tool defconfig f = some t ∧ keys (setting "CONFIG_".toList) t.all = [] := by
  intro f hf
  obtain rfl | hf := List.mem_cons.mp hf
  · exact ⟨tool, written_toolKfrag tool defconfig, htool⟩
  · obtain ⟨t, ht, hkeys⟩ := (h f hf).2.2
    exact ⟨t, by rw [(h f hf).written, ht], hkeys⟩

theorem written_whole {tool : Text} (defconfig : Text) (htool : tool.Ended) (h : ∀ f ∈ configs, Foreign files genDir f)
    (hconfigs : Whole files configs) :
    Whole (written files genDir tool defconfig) (joinPath genDir "brToolKfrag" :: configs) := by
  intro f hf t ht
  cases configs with
  | nil => cases hf
  | cons g gs =>
    rw [List.dropLast_cons_of_ne_nil (List.cons_ne_nil g gs)] at hf
    obtain rfl | hf := List.mem_cons.mp hf
    · rw [written_toolKfrag, Option.mem_some_iff] at ht
      exact ht ▸ htool
    · rw [(h f (List.mem_of_mem_dropLast hf)).written] at ht
      exact hconfigs f hf t ht

/-- The prefix of the script is that of Linux, so for buildroot it puts the files one after the other, where later
    ones count first, and prints no warning. -/
theorem configure_read (v : ToolVersions) (jlevel : Nat) (hdef : defconfig.Ended)
    (hkeys : keys (setting "CONFIG_".toList) defconfig.all = []) (hconfigs : ∀ f ∈ configs, Foreign files genDir f)
    (hwhole : Whole files configs) :
    ∃ tmp, configure make files genDir defconfig v jlevel configs =
        .ok (make tmp,
          .base (joinPath genDir "brDefConfig") :: (joinPath genDir "brToolKfrag" :: configs).map Note.merging) ∧
      tmp.all = defconfig.all ++ ((toolKfrag v jlevel).all ++ contents files configs) ∧
      ∀ x w, (∀ u, read (setting "BR2_".toList) tmp.all x = some u →
          read (setting "BR2_".toList) (make tmp).all x = some u) →
        (read (setting "BR2_".toList) (contents files configs) x).or
          ((read (setting "BR2_".toList) (toolKfrag v jlevel).all x).or
            (read (setting "BR2_".toList) defconfig.all x)) = some w →
        read (setting "BR2_".toList) (make tmp).all x = some w := by
  have hall := written_foreign defconfig (keys_toolKfrag v jlevel) hconfigs
  obtain ⟨tmp, hmerge, htmp⟩ := mergeFragments_eq_append (o := {}) [.base (joinPath genDir "brDefConfig")]
    (fun _ => hdef) (written_whole defconfig (toolKfrag_ended v jlevel) hconfigs hwhole) hall
  have hmissed := missed_eq_nil (make tmp).all
    (show keys (setting "CONFIG_".toList) tmp.all = [] by rw [htmp, keys_append, hkeys, keys_contents hall]; rfl)
  rw [contents_written hconfigs] at htmp
  refine ⟨tmp, ?_, htmp, fun x w hmake hw => hmake w ?_⟩
  · rw [configure, script, show written files genDir (toolKfrag v jlevel) defconfig _ = some defconfig from if_pos rfl]
    dsimp only
    rw [hmerge]
    dsimp only
    rw [if_pos rfl, hmissed, List.append_nil]
    rfl
  · rw [htmp, read_append, read_append, Option.or_assoc]
    exact hw

theorem configure_read_jlevel :
    ∃ config notes, configure id (fun f => if f = "w.kfrag" then some ⟨["BR2_JLEVEL=4".toList], []⟩ else none) "gen"
        ⟨["# BR2_JLEVEL is not set".toList], []⟩ ⟨"5", "7", "9"⟩ 16 ["w.kfrag"] = .ok (config, notes) ∧
      read (setting "BR2_".toList) config.all "BR2_JLEVEL".toList = some (.text ['4']) := by
  obtain ⟨tmp, hconfig, -, hread⟩ := @configure_read id
    (fun f => if f = "w.kfrag" then some ⟨["BR2_JLEVEL=4".toList], []⟩ else none) "gen"
    ⟨["# BR2_JLEVEL is not set".toList], []⟩ ["w.kfrag"] ⟨"5", "7", "9"⟩ 16 (by decide) (by decide +kernel)
    (fun f hf => by
      obtain rfl := List.mem_singleton.mp hf
      exact ⟨by decide, by decide, _, rfl, by decide +kernel⟩)
    (by decide)
  exact ⟨tmp, _, hconfig, hread _ _ (fun _ h => h) (by decide +kernel)⟩

end br

end FireMarshal
