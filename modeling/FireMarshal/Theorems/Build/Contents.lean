import FireMarshal.Build.Contents
import FireMarshal.Lib.Layers

/-! Images that are made one after the other, through overlays and a script that all of them write: each one holds what
its own options and the contents of its base say. -/

namespace FireMarshal

open Raising (Refines)

variable {τ : Type} {env : ContentsEnv τ} {c : Config} {path b : String} {s : ImageStep} {h : ImageHost τ} {t u : τ}
variable {k : Option String}

theorem imageSteps_eq (commandScript : String) (c : Config) :
    c.imageSteps commandScript = c.firstSteps ++ c.lastSteps commandScript := by
  simp [Config.imageSteps, Config.contentSteps, Config.firstSteps, Config.lastSteps]

/-! ### Other images -/

namespace ContentsEnv

theorem store_images {q : String} (hq : q ≠ path) (g : τ → Except ImageError τ) (t : τ) (h : ImageHost τ) :
    (env.store path s g t h).1.images q = h.images q := Function.update_of_ne hq _ _

theorem edit_images {q : String} (hq : q ≠ path) (g : τ → Except ImageError τ) (h : ImageHost τ) :
    (env.edit path s g h).1.images q = h.images q := by
  unfold edit
  split
  · rfl
  · exact store_images hq g _ h

theorem step_images {q : String} (hq : q ≠ path) (s : ImageStep) (h : ImageHost τ) :
    (env.step path s h).1.images q = h.images q := by
  unfold step
  split
  case h_1 =>
    split
    · rfl
    · exact store_images hq _ _ h
  case h_2 =>
    split
    · rfl
    · exact edit_images hq _ h
  case h_5 => split <;> rfl
  case h_6 => rfl
  case h_7 =>
    split
    · rfl
    · exact edit_images hq _ _
  all_goals exact edit_images hq _ h

end ContentsEnv

theorem makeImageOn_images {q : String} (hq : c.img ≠ some q) (h : ImageHost τ) :
    (c.makeImageOn env h).1.images q = h.images q := by
  unfold Config.makeImageOn
  split
  · rfl
  · rename_i path himg
    have hne : q ≠ path := fun heq => hq (heq ▸ himg)
    have hkeep : ∀ steps (g : ImageHost τ), g.images q = h.images q →
        (Raising.each (env.step path) steps g).1.images q = h.images q := fun steps g hg =>
      Raising.each_state (P := fun g : ImageHost τ => g.images q = h.images q) hg
        fun s _ g hg => (ContentsEnv.step_images hne s g).trans hg
    refine Raising.andThen_state (P := fun g : ImageHost τ => g.images q = h.images q)
      (hkeep _ _ (Function.update_of_ne hne _ _)) fun g hg => hkeep _ _ ?_
    have := hkeep c.firstSteps { h with images := Function.update h.images path none } (Function.update_of_ne hne _ _)
    rwa [hg] at this

/-! ### Steps -/

def ContentsEnv.Faults (env : ContentsEnv τ) (e : ImageError) : Prop := ∃ n s t, env.fault n s t = some e

/-- The image at `path` holds `t`, and the script for commands is `k`. -/
def ImageHost.Holds (path : String) (k : Option String) (h : ImageHost τ) (t : τ) : Prop :=
  h.images path = some t ∧ h.commandScript = k

/-- There is a script to delete in the overlay of the builder. -/
def ImageHost.Scripted (path : String) (k : Option String) (b : String) (h : ImageHost τ) (t : τ) : Prop :=
  h.Holds path k t ∧ (h.boot b).script.isSome = true

/-- A step that only changes the image, or runs a script that is named. -/
def ImageStep.Plain : ImageStep → Prop
  | .copyBase _ => False
  | .bootScript (some _) none _ => False
  | _ => True

namespace ContentsEnv

theorem store_refines (g : τ → Except ImageError τ) (t : τ) (h : ImageHost τ) :
    Refines env.Faults (fun h' u => h'.Holds path h.commandScript u ∧ h'.boot = h.boot) (env.store path s g t h)
      (g t) := by
  unfold store attempt
  cases hfault : env.fault h.calls s t with
  | some e => exact .inr ⟨_, _, _, hfault⟩
  | none =>
    cases hg : g t with
    | error e => exact .inl rfl
    | ok u => exact ⟨u, rfl, ⟨Function.update_self _ _ _, rfl⟩, rfl⟩

theorem edit_refines (hk : h.Holds path k t) (g : τ → Except ImageError τ) :
    Refines env.Faults (fun h' u => h'.Holds path k u ∧ h'.boot = h.boot) (env.edit path s g h) (g t) := by
  unfold edit
  rw [hk.1, ← hk.2]
  exact store_refines g t h

theorem Holds.edit (hk : h.Holds path k t) (g : τ → Except ImageError τ) :
    Refines env.Faults (ImageHost.Holds path k) (env.edit path s g h) (g t) :=
  (edit_refines hk g).mono fun _ _ h => h.1

theorem bootScript_refines (hk : h.Holds path k t) (b script : String) (args : List String) :
    Refines env.Faults (ImageHost.Scripted path k b) (env.step path (.bootScript (some b) (some script) args) h)
      (env.write k t (.bootScript (some b) (some script) args)) := by
  simp only [step, write, scriptText, hk.2]
  cases env.readScript k script with
  | none => exact .inl rfl
  | some text =>
    simp only [Option.map_some, Option.elim_some, Except.ok_bind, BootOverlay.generateBootScriptOverlay]
    have hwritten : ImageHost.Holds path k
        { h with boot := Function.update h.boot b ((env.builder b).files text args) } t := hk
    rw [hk.2] at hwritten
    refine (edit_refines hwritten _).mono fun h' u hu => ⟨hu.1, ?_⟩
    rw [hu.2]
    simp [BootOverlay.files]

theorem clear_refines (hk : h.Scripted path k b t) (args : List String) :
    Refines env.Faults (ImageHost.Holds path k) (env.step path (.bootScript (some b) none args) h)
      (env.write k t (.bootScript (some b) none args)) := by
  obtain ⟨old, hold⟩ := Option.isSome_iff_exists.mp hk.2
  simp only [step, write, scriptText, Except.ok_bind, BootOverlay.generateBootScriptOverlay, hold]
  exact Holds.edit (h := { h with boot := Function.update h.boot b ((env.builder b).files "" args) }) hk.1 _

theorem boot_refines (hk : h.Scripted path k b t) :
    Refines env.Faults (ImageHost.Scripted path k b) (env.step path .boot h) (env.write k t .boot) :=
  (edit_refines hk.1 _).mono fun h' u hu => ⟨hu.1, by rw [hu.2]; exact hk.2⟩

theorem step_refines (hs : s.Plain) (hk : h.Holds path k t) :
    Refines env.Faults (ImageHost.Holds path k) (env.step path s h) (env.write k t s) := by
  cases s with
  | copyBase base => cases hs
  | resizeFS n =>
    rw [step, hk.1]
    exact Holds.edit hk _
  | applyOverlay overlay => exact Holds.edit hk _
  | copyImgFiles files => exact Holds.edit hk _
  | findScript kind script =>
    rw [step, write, hk.2]
    split
    · exact ⟨t, rfl, hk⟩
    · exact .inl rfl
  | bootScript builder script args =>
    cases builder with
    | none => exact .inl rfl
    | some b =>
      cases script with
      | none => cases hs
      | some script => exact (bootScript_refines hk b script args).mono fun _ _ h => h.1
  | boot => exact Holds.edit hk _

theorem steps_refines {steps : List ImageStep} (hs : ∀ s ∈ steps, s.Plain) (hk : h.Holds path k t) :
    Refines env.Faults (ImageHost.Holds path k) (Raising.each (env.step path) steps h)
      (steps.foldlM (env.write k) t) :=
  Raising.Refines.each hk fun _ hmem _ _ hk => step_refines (hs _ hmem) hk

theorem guestInit_refines (hk : h.Holds path k t) {spec : RunSpec} {script : String}
    (hscript : spec.path = some script) :
    Refines env.Faults (ImageHost.Holds path k) (Raising.each (env.step path) (c.guestInitSteps spec) h)
      ((c.guestInitSteps spec).foldlM (env.write k) t) := by
  simp only [Config.guestInitSteps, hscript, Raising.each, List.foldlM_cons, List.foldlM_nil]
  have hfind : (ImageStep.findScript "Init" ((some script).getD "")).Plain := trivial
  refine (step_refines hfind hk).andThen fun h t hk => ?_
  cases c.builder with
  | none => exact .inl rfl
  | some b =>
    refine (bootScript_refines hk b script _).andThen fun h t hk => ?_
    refine (boot_refines hk).andThen fun h t hk => ?_
    refine (clear_refines hk _).andThen fun h t hk => ?_
    exact ⟨t, rfl, hk⟩

end ContentsEnv

def ImageStep.script? : ImageStep → Option String
  | .findScript _ script => some script
  | .bootScript _ script _ => script
  | _ => none

/-- The scripts of a workload are files of its own: none is the one that is written for commands. -/
structure Config.OwnScripts (env : ContentsEnv τ) (c : Config) : Prop where
  guestInit : ∀ spec ∈ c.guestInit, ∃ script, spec.path = some script ∧ script ≠ env.commandScript
  run : ∀ spec ∈ c.runSpec, spec.command = none → ∃ script, spec.path = some script ∧ script ≠ env.commandScript

namespace ContentsEnv

theorem write_congr (hs : s.script? ≠ some env.commandScript) (k l : Option String) (t : τ) :
    env.write k t s = env.write l t s := by
  have hread : ∀ script, s.script? = some script → env.readScript k script = env.readScript l script := by
    intro script hscript
    have hne : script ≠ env.commandScript := fun heq => hs (heq ▸ hscript)
    rw [readScript, readScript, if_neg hne, if_neg hne]
  cases s with
  | findScript kind script => rw [write, write, hread script rfl]
  | bootScript builder script args =>
    cases builder with
    | none => rfl
    | some b =>
      cases script with
      | none => rfl
      | some script => simp only [write, scriptText, hread script rfl]
  | _ => rfl

theorem steps_congr {steps : List ImageStep} (hs : ∀ s ∈ steps, s.script? ≠ some env.commandScript)
    (k l : Option String) (t : τ) : steps.foldlM (env.write k) t = steps.foldlM (env.write l) t := by
  induction steps generalizing t with
  | nil => rfl
  | cons s steps ih =>
    rw [List.foldlM_cons, List.foldlM_cons, write_congr (hs s List.mem_cons_self) k l]
    exact Except.bind_congr_ok fun u _ => ih (fun s hmem => hs s (List.mem_cons_of_mem _ hmem)) u

end ContentsEnv

namespace Config

/-- The steps between the copy of the base and the first script. -/
def copySteps (c : Config) : List ImageStep :=
  (if c.imgSz ≠ 0 then [.resizeFS c.imgSz] else []) ++ c.overlay.toList.map .applyOverlay ++
    c.files.toList.map .copyImgFiles

theorem copySteps_plain (hs : s ∈ c.copySteps) : s.Plain ∧ s.script? = none := by
  simp only [copySteps, List.mem_append, List.mem_map] at hs
  obtain (hs | ⟨overlay, -, rfl⟩) | ⟨files, -, rfl⟩ := hs
  · split at hs
    · obtain rfl := List.mem_singleton.mp hs
      exact ⟨trivial, rfl⟩
    · cases hs
  · exact ⟨trivial, rfl⟩
  · exact ⟨trivial, rfl⟩

theorem firstSteps_eq (hbase : c.baseImg = some b) :
    c.firstSteps = .copyBase b :: (c.copySteps ++ c.guestInit.toList.flatMap c.guestInitSteps) := by
  simp [firstSteps, copySteps, hbase]

theorem firstSteps_script (hown : c.OwnScripts env) (hs : s ∈ c.firstSteps) :
    s.script? ≠ some env.commandScript := by
  have hs : s ∈ c.baseImg.toList.map .copyBase ++ c.copySteps ++ c.guestInit.toList.flatMap c.guestInitSteps := by
    simpa [firstSteps, copySteps] using hs
  rw [List.mem_append, List.mem_append, List.mem_map, List.mem_flatMap] at hs
  obtain (⟨base, -, rfl⟩ | hs) | ⟨spec, hspec, hs⟩ := hs
  · exact Option.some_ne_none _ ∘ Eq.symm
  · rw [(copySteps_plain hs).2]
    exact Option.some_ne_none _ ∘ Eq.symm
  · obtain ⟨script, hscript, hne⟩ := hown.guestInit spec (Option.mem_toList.mp hspec)
    have hne : some script ≠ some env.commandScript := fun heq => hne (Option.some.inj heq)
    simp only [guestInitSteps, hscript, List.mem_cons, List.not_mem_nil, or_false] at hs
    rcases hs with rfl | rfl | rfl | rfl
    · exact hne
    · exact hne
    · exact Option.some_ne_none _ ∘ Eq.symm
    · exact Option.some_ne_none _ ∘ Eq.symm

theorem lastSteps_plain (hown : c.OwnScripts env) (hs : s ∈ c.lastSteps env.commandScript) :
    s.Plain ∧ (c.commandText = none → s.script? ≠ some env.commandScript) := by
  have hresize : ∀ n, (ImageStep.resizeFS n).script? ≠ some env.commandScript := fun _ =>
    Option.some_ne_none _ ∘ Eq.symm
  rw [lastSteps, List.mem_append, List.mem_flatMap] at hs
  obtain ⟨spec, hspec, hs⟩ | hs := hs
  · have hspec := Option.mem_toList.mp hspec
    cases hcommand : spec.command with
    | some command =>
      have htext : c.commandText ≠ none := by simp [commandText, Option.mem_def.mp hspec, hcommand]
      simp only [runSteps, hcommand, List.mem_singleton] at hs
      subst hs
      cases c.builder with
      | none => exact ⟨trivial, fun h => absurd h htext⟩
      | some b => exact ⟨trivial, fun h => absurd h htext⟩
    | none =>
      obtain ⟨script, hscript, hne⟩ := hown.run spec hspec hcommand
      have hne : some script ≠ some env.commandScript := fun heq => hne (Option.some.inj heq)
      simp only [runSteps, hcommand, hscript, List.mem_cons, List.not_mem_nil, or_false] at hs
      rcases hs with rfl | rfl
      · exact ⟨trivial, fun _ => hne⟩
      · cases c.builder with
        | none => exact ⟨trivial, fun _ => hne⟩
        | some b => exact ⟨trivial, fun _ => hne⟩
  · split at hs
    · obtain rfl := List.mem_singleton.mp hs
      exact ⟨trivial, fun _ => hresize 0⟩
    · cases hs

end Config

/-! ### Images -/

theorem firstSteps_refines (hown : c.OwnScripts env) (hbase : c.baseImg = some b) (hb : h.images b = some t) :
    Refines env.Faults (ImageHost.Holds path h.commandScript) (Raising.each (env.step path) c.firstSteps h)
      (c.firstSteps.foldlM (env.write c.commandText) t) := by
  rw [ContentsEnv.steps_congr (fun _ => Config.firstSteps_script hown) c.commandText h.commandScript,
    Config.firstSteps_eq hbase, List.foldlM_cons, Raising.each]
  have hcopied : Refines env.Faults (ImageHost.Holds path h.commandScript) (env.step path (.copyBase b) h)
      (env.write h.commandScript t (.copyBase b)) := by
    simp only [ContentsEnv.step, hb]
    exact (ContentsEnv.store_refines .ok t h).mono fun _ _ h => h.1
  refine hcopied.andThen fun g t hg => ?_
  rw [Raising.each_append, List.foldlM_append]
  refine (ContentsEnv.steps_refines (fun _ hmem => (Config.copySteps_plain hmem).1) hg).andThen fun g t hg => ?_
  cases hguest : c.guestInit with
  | none => exact ⟨t, rfl, hg⟩
  | some spec =>
    obtain ⟨script, hscript, -⟩ := hown.guestInit spec hguest
    simpa using ContentsEnv.guestInit_refines hg hscript

theorem lastSteps_refines (hown : c.OwnScripts env) {k : Option String} (hh : h.Holds path k t) :
    Refines env.Faults (fun g u => g.images path = some u)
      (Raising.each (env.step path) (c.lastSteps env.commandScript) { h with commandScript := c.commandText.or k })
      ((c.lastSteps env.commandScript).foldlM (env.write c.commandText) t) := by
  have hwritten : ImageHost.Holds path (c.commandText.or k) { h with commandScript := c.commandText.or k } t :=
    ⟨hh.1, rfl⟩
  have hplain : ∀ s ∈ c.lastSteps env.commandScript, s.Plain := fun _ hmem => (Config.lastSteps_plain hown hmem).1
  have hrefines : Refines env.Faults _ _ _ := ContentsEnv.steps_refines hplain hwritten
  have hsame : (c.lastSteps env.commandScript).foldlM (env.write (c.commandText.or k)) t =
      (c.lastSteps env.commandScript).foldlM (env.write c.commandText) t := by
    cases hcommand : c.commandText with
    | some text => rfl
    | none => exact ContentsEnv.steps_congr (fun _ hmem => (Config.lastSteps_plain hown hmem).2 hcommand) _ _ _
  rw [hsame] at hrefines
  exact hrefines.mono fun _ _ hg => hg.1

/-- Whatever images were made before, an image is made as its options and the contents of its base say. -/
theorem makeImageOn_refines (hown : c.OwnScripts env) (himg : c.img = some path) (hbase : c.baseImg = some b)
    (hb : h.images b = some t) (hne : b ≠ path) :
    Refines env.Faults (fun g u => g.images path = some u) (c.makeImageOn env h) (c.contents env t) := by
  rw [Config.makeImageOn, himg, Config.contents, imageSteps_eq, List.foldlM_append]
  have hb' : (Function.update h.images path none) b = some t := (Function.update_of_ne hne _ _).trans hb
  refine (firstSteps_refines (h := { h with images := Function.update h.images path none }) hown hbase hb').andThen
    fun g u hg => ?_
  rw [hg.2]
  exact lastSteps_refines hown hg

theorem base_ne_img (himg : c.img = some path) (hbase : c.baseImg = some b) (hok : (c.makeImageOn env h).2 = none) :
    b ≠ path := by
  rintro rfl
  rw [Config.makeImageOn, himg] at hok
  simp [Config.firstSteps_eq hbase, Raising.each, ContentsEnv.step] at hok

theorem contents_of_makeImageOn (hown : c.OwnScripts env) (himg : c.img = some path) (hbase : c.baseImg = some b)
    (hb : h.images b = some t) (hok : (c.makeImageOn env h).2 = none) :
    ∃ u, c.contents env t = .ok u ∧ (c.makeImageOn env h).1.images path = some u := by
  have hrefines := makeImageOn_refines hown himg hbase hb (base_ne_img himg hbase hok)
  rw [Refines, hok] at hrefines
  exact hrefines

/-! ### Builds -/

/-- What an image is to hold: what it held first, or what the options of a workload say, for what its base is to
    hold. -/
inductive Expected (env : ContentsEnv τ) (cs : List Config) (first : String → τ → Prop) : String → τ → Prop
  | first {path : String} {t : τ} (h : first path t) : Expected env cs first path t
  | made {c : Config} {path b : String} {t u : τ} (hc : c ∈ cs) (himg : c.img = some path)
      (hbase : c.baseImg = some b) (hb : Expected env cs first b t) (hu : c.contents env t = .ok u) :
      Expected env cs first path u

def intact (env : ContentsEnv τ) : List Config → ImageHost τ → List String → List String
  | [], _, good => good
  | c :: cs, h, good =>
    intact env cs (c.makeImageOn env h).1
      (if (c.makeImageOn env h).2.isNone && c.baseImg.any good.contains then c.img.toList ++ good
        else good.filter fun path => c.img ≠ some path)

variable {cs cs' : List Config} {first : String → τ → Prop} {good : List String}

theorem intact_hold (hown : ∀ c ∈ cs, c.OwnScripts env) (hsub : cs ⊆ cs')
    (hgood : ∀ path ∈ good, ∃ t, h.images path = some t ∧ Expected env cs' first path t) :
    ∀ path ∈ intact env cs h good, ∃ u, (makeImages env cs h).images path = some u ∧
      Expected env cs' first path u := by
  induction cs generalizing h good with
  | nil => exact hgood
  | cons c cs ih =>
    obtain ⟨hc, hsub⟩ := List.cons_subset.mp hsub
    refine ih (fun c hc => hown c (List.mem_cons_of_mem _ hc)) hsub fun path hpath => ?_
    -- Another image stays as it is.
    have hkeep : ∀ path ∈ good, c.img ≠ some path →
        ∃ t, (c.makeImageOn env h).1.images path = some t ∧ Expected env cs' first path t := by
      intro path hmem hne
      obtain ⟨t, ht, hexp⟩ := hgood path hmem
      exact ⟨t, (makeImageOn_images hne h).trans ht, hexp⟩
    split at hpath
    · rename_i hmade
      obtain ⟨hok, hbase⟩ := Bool.and_eq_true_iff.mp hmade
      by_cases himg : c.img = some path
      · obtain ⟨b, hb, hmem⟩ := (Option.any_eq_true _ _).mp hbase
        obtain ⟨t, ht, hexp⟩ := hgood b (List.contains_iff_mem.mp hmem)
        obtain ⟨u, hu, himage⟩ := contents_of_makeImageOn (hown c List.mem_cons_self) himg hb ht
          (Option.isNone_iff_eq_none.mp hok)
        exact ⟨u, himage, .made hc himg hb hexp hu⟩
      · rcases List.mem_append.mp hpath with hmem | hmem
        · exact absurd (Option.mem_toList.mp hmem) himg
        · exact hkeep path hmem himg
    · obtain ⟨hmem, hne⟩ := List.mem_filter.mp hpath
      exact hkeep path hmem (of_decide_eq_true hne)

theorem makeImages_hold (hown : ∀ c ∈ cs, c.OwnScripts env) (hgood : ∀ path ∈ good, (h.images path).isSome = true) :
    ∀ path ∈ intact env cs h good, ∃ u, (makeImages env cs h).images path = some u ∧
      Expected env cs (fun path t => path ∈ good ∧ h.images path = some t) path u := by
  refine intact_hold hown (List.Subset.refl cs) fun path hpath => ?_
  obtain ⟨t, ht⟩ := Option.isSome_iff_exists.mp (hgood path hpath)
  exact ⟨t, ht, .first ⟨hpath, ht⟩⟩

/-! ### A workload with a command, and one with a script that is based on it -/

def sampleContentsEnv : ContentsEnv (List String → Option Entry) where
  commandScript := "/gen/_command.sh"
  builder _ := br.bootOverlay [(["etc"], .dir), (["etc", "init.d"], .dir)]
  overlay _ := []
  source _ := none
  script path := if path = "/wl/run.sh" then some "echo bye" else none
  copy l t := fun p => (Layers.read some l p).or (t p)
  isDir t p := decide (t p = some .dir)
  guest t := t
  fault n _ _ := if n = 1 then some (.calledProcessError 1) else none
  left _ _ t := t

def emptyContents : List String → Option Entry := fun path => if path = [] then some .dir else none

def helloConfig : Config :=
  { name := "hello", outDir := "/images/hello", builder := some "br", baseImg := some "/br.img",
    img := some "/images/hello/hello.img", runSpec := some { command := some "echo hello" } }

def byeConfig : Config :=
  { name := "bye", outDir := "/images/bye", builder := some "br", baseImg := some "/images/hello/hello.img",
    img := some "/images/bye/bye.img", runSpec := some { path := some "/wl/run.sh" } }

/-- A workload without a builder, whose image cannot be made. -/
def brokenConfig : Config :=
  { name := "broken", outDir := "/images/broken", baseImg := some "/br.img", img := some "/images/broken/broken.img",
    runSpec := some { command := some "echo broken" } }

def brHost : ImageHost (List String → Option Entry) where
  images path := if path = "/br.img" then some emptyContents else none
  boot _ := {}

theorem sample_ownScripts : ∀ c ∈ [helloConfig, helloConfig, brokenConfig, byeConfig],
    c.OwnScripts sampleContentsEnv := by
  intro c hc
  simp only [List.mem_cons, List.not_mem_nil, or_false] at hc
  rcases hc with rfl | rfl | rfl | rfl
  · exact ⟨by simp [helloConfig], by simp [helloConfig]⟩
  · exact ⟨by simp [helloConfig], by simp [helloConfig]⟩
  · exact ⟨by simp [brokenConfig], by simp [brokenConfig]⟩
  · exact ⟨by simp [byeConfig], by simp [byeConfig, sampleContentsEnv]⟩

theorem makeImages_hold_bye :
    (helloConfig.makeImageOn sampleContentsEnv brHost).2 = some (.calledProcessError 1) ∧
      ∃ u, (makeImages sampleContentsEnv [helloConfig, helloConfig, brokenConfig, byeConfig] brHost).images
          "/images/bye/bye.img" = some u ∧
        Expected sampleContentsEnv [helloConfig, helloConfig, brokenConfig, byeConfig]
          (fun path t => path ∈ ["/br.img"] ∧ brHost.images path = some t) "/images/bye/bye.img" u := by
  refine ⟨by decide +kernel, ?_⟩
  refine makeImages_hold sample_ownScripts (fun path hpath => ?_) "/images/bye/bye.img" (by decide +kernel)
  rw [List.mem_singleton.mp hpath]
  rfl

end FireMarshal
