import FireMarshal.Theorems.Build.Contents
import FireMarshal.Theorems.Config.Inherit

/-! What images hold, path by path: the copies of all workloads of a chain in their order, over the first image. What an
image runs is the script of the nearest workload that has one.

`cp` writes through the links of an image, so that the first result is about paths without links on them. -/

namespace FireMarshal

open Layers (read)

variable {τ : Type} {env : ContentsEnv τ} {c : Config} {t u : τ} {s : ImageStep} {k : Option String}
variable {get : τ → List String → Option Entry} {p q : List String}

/-! ### Copies -/

def LinkFree (p : List String) (at' : List String → Option Entry) : Prop :=
  ∀ q, q <+: p → q ≠ [] → ∀ target, at' q ≠ some (.link target)

/-- `t` with the entries of `l` over it, at a path and above it. -/
def Over (get : τ → List String → Option Entry) (p : List String) (l : Listing) (t u : τ) : Prop :=
  ∀ q, q <+: p → q ≠ [] → get u q = (read some l q).or (get t q)

/-- Where there are no links, a copy puts its entries at their paths and leaves other paths alone. -/
def ContentsEnv.Copies (env : ContentsEnv τ) (get : τ → List String → Option Entry) (p : List String) : Prop :=
  ∀ l t, LinkFree p (read some l) → LinkFree p (get t) → Over get p l t (env.copy l t)

theorem Over.linkFree {l : Listing} (h : Over get p l t u) (hl : LinkFree p (read some l)) (ht : LinkFree p (get t)) :
    LinkFree p (get u) := by
  intro q hq hne target hlink
  rw [h q hq hne] at hlink
  rcases Option.or_eq_some_iff.mp hlink with hlink | ⟨-, hlink⟩
  · exact hl q hq hne target hlink
  · exact ht q hq hne target hlink

theorem Over.append {l l' : Listing} {v : τ} (h : Over get p l t u) (h' : Over get p l' u v) :
    Over get p (l ++ l') t v := by
  intro q hq hne
  rw [h' q hq hne, h q hq hne, Layers.read_append, Option.or_assoc]

theorem Over.nil (get : τ → List String → Option Entry) (p : List String) (t : τ) : Over get p [] t t :=
  fun _ _ _ => rfl

namespace Listing

theorem read_below (n : String) (l : Listing) (q : List String) :
    read some (below n l) q = read some l (n :: q) := by
  induction l with
  | nil => rfl
  | cons e l ih =>
    obtain ⟨p, e⟩ := e
    rw [Layers.read_cons, ← ih]
    cases p with
    | nil => simp [below, List.filterMap_cons, belowEntry]
    | cons m p =>
      by_cases hm : m = n
      · subst hm
        simp [belowEntry, Layers.read_cons, below]
      · simp [belowEntry, hm, below, Ne.symm hm]

theorem read_under (n m : String) (l : Listing) (q : List String) :
    read some (under [n] l) (m :: q) = if m = n then read some l q else none := by
  induction l with
  | nil => simp [under]
  | cons e l ih =>
    rw [under, List.map_cons, Layers.read_cons, ← under, ih]
    by_cases hm : m = n
    · simp [hm, Layers.read_cons]
    · simp [hm]

theorem mem_names {l : Listing} {m : String} : m ∈ names l ↔ ∃ e ∈ l, e.1.head? = some m := by
  rw [names, List.mem_eraseDups, List.mem_filterMap]

theorem read_of_not_mem {l : Listing} {m : String} (hm : m ∉ names l) (q : List String) :
    read some l (m :: q) = none := by
  refine Layers.read_eq_none fun hmem => hm ?_
  obtain ⟨e, he, v, hset⟩ := Layers.mem_keys_iff.mp hmem
  cases hset
  exact mem_names.mpr ⟨_, he, rfl⟩

end Listing

namespace ContentsEnv

theorem copies_over (hcopy : env.Copies get p) {l : Listing} (hl : LinkFree p (read some l)) (ht : LinkFree p (get t))
    (ns : List String) (m : String) (q : List String) (hq : m :: q <+: p) :
    get (ns.foldl (fun t n => env.copy (Listing.under [n] (Listing.below n l)) t) t) (m :: q) =
      if m ∈ ns then (read some l (m :: q)).or (get t (m :: q)) else get t (m :: q) := by
  induction ns generalizing t with
  | nil => simp
  | cons n ns ih =>
    have hread : ∀ m q, read some (Listing.under [n] (Listing.below n l)) (m :: q) =
        if m = n then read some l (m :: q) else none := by
      intro m q
      rw [Listing.read_under, Listing.read_below]
      split
      · rename_i hm
        rw [hm]
      · rfl
    have hfree : LinkFree p (read some (Listing.under [n] (Listing.below n l))) := by
      intro q hq hne target hlink
      obtain ⟨m, q, rfl⟩ := List.exists_cons_of_ne_nil hne
      rw [hread] at hlink
      split at hlink
      · exact hl _ hq hne target hlink
      · cases hlink
    have hover := hcopy _ t hfree ht
    rw [List.foldl_cons, ih (hover.linkFree hfree ht), hover _ hq (List.cons_ne_nil m q), hread]
    by_cases hm : m = n
    · simp only [hm, if_true, List.mem_cons_self, ← Option.or_assoc, Option.or_self, ite_self]
    · simp [hm]

theorem applyOverlay_over (hcopy : env.Copies get p) {l : Listing} (hl : LinkFree p (read some l))
    (ht : LinkFree p (get t)) : Over get p l t (env.applyOverlay l t) := by
  intro q hq hne
  obtain ⟨m, q, rfl⟩ := List.exists_cons_of_ne_nil hne
  rw [applyOverlay, copies_over hcopy hl ht _ m q hq]
  split
  · rfl
  · rename_i hm
    rw [Listing.read_of_not_mem hm, Option.none_or]

/-- What the copy of a file or directory writes: in a directory of the image, or in place of what there is. -/
def FileLog (env : ContentsEnv τ) (f : FileSpec) (log : Listing) : Prop :=
  ∃ dst l name, relativeToRoot f.dst = .ok dst ∧ env.source f.src = some l ∧ (parts f.src).getLast? = some name ∧
    (log = Listing.under (dst ++ [name]) l ∨ log = Listing.under dst l)

theorem copyFile_log {f : FileSpec} (h : env.copyFile t f = .ok u) : ∃ log, env.FileLog f log ∧ u = env.copy log t := by
  unfold copyFile at h
  split at h
  · cases h
  · rename_i dst hdst
    split at h
    · rename_i l name hsource hname
      cases h
      refine ⟨_, ⟨dst, l, name, hdst, hsource, hname, ?_⟩, rfl⟩
      rw [target]
      split
      · exact .inl rfl
      · exact .inr rfl
    · cases h

theorem copyFiles_over (hcopy : env.Copies get p) {files : List FileSpec}
    (hfiles : ∀ f ∈ files, ∀ log, env.FileLog f log → LinkFree p (read some log)) (ht : LinkFree p (get t))
    (h : files.foldlM env.copyFile t = .ok u) :
    LinkFree p (get u) ∧ ∃ logs, List.Forall₂ env.FileLog files logs ∧ Over get p logs.flatten t u := by
  induction files generalizing t with
  | nil =>
    cases h
    exact ⟨ht, [], .nil, Over.nil get p _⟩
  | cons f files ih =>
    obtain ⟨v, hv, h⟩ := Except.foldlM_cons_ok h
    obtain ⟨log, hlog, rfl⟩ := copyFile_log hv
    have hfree := hfiles f List.mem_cons_self log hlog
    have hover := hcopy log t hfree ht
    obtain ⟨hu, logs, hlogs, hrest⟩ :=
      ih (fun f hf => hfiles f (List.mem_cons_of_mem _ hf)) (hover.linkFree hfree ht) h
    exact ⟨hu, log :: logs, .cons hlog hlogs, hover.append hrest⟩

end ContentsEnv

/-! ### Boot scripts -/

def RunSpec.text (env : ContentsEnv τ) (spec : RunSpec) : Option String :=
  match spec.command with
  | some command => some (genRunScript command)
  | none => spec.path.bind env.script

namespace BootOverlay

variable {o : BootOverlay} {text : String} {args : List String}

theorem read_script : read some (o.listing (o.files text args)) o.scriptDst = some (.file text) := by
  rw [listing, Layers.read_append, Layers.read_append]
  simp [files, Layers.read_cons, o.distinct]

end BootOverlay

theorem write_bootScript {b script : String} {args : List String}
    (h : env.write k t (.bootScript (some b) (some script) args) = .ok u) :
    ∃ text, env.readScript k script = some text ∧
      u = env.applyOverlay ((env.builder b).listing ((env.builder b).files text args)) t := by
  simp only [ContentsEnv.write, ContentsEnv.scriptText] at h
  cases hread : env.readScript k script with
  | none =>
    rw [hread] at h
    cases h
  | some text =>
    rw [hread] at h
    cases h
    exact ⟨text, rfl, rfl⟩

theorem write_findScript {kind script : String} (h : env.write k t (.findScript kind script) = .ok u) : t = u := by
  rw [ContentsEnv.write] at h
  split at h
  · exact Except.ok.inj h
  · cases h

def Config.bootLog (env : ContentsEnv τ) (c : Config) : Listing :=
  match c.runSpec, c.builder with
  | some spec, some b =>
    ((spec.text env).map fun text => (env.builder b).listing ((env.builder b).files text spec.args)).getD []
  | _, _ => []

theorem lastSteps_runs (hown : c.OwnScripts env) {spec : RunSpec} {b : String} (hspec : c.runSpec = some spec)
    (hbuilder : c.builder = some b) (h : (c.lastSteps env.commandScript).foldlM (env.write c.commandText) t = .ok u) :
    ∃ text, spec.text env = some text ∧
      u = env.applyOverlay ((env.builder b).listing ((env.builder b).files text spec.args)) t := by
  rw [Config.lastSteps, List.foldlM_append] at h
  obtain ⟨v, hv, h⟩ := Except.bind_ok h
  obtain rfl : v = u := by
    split at h
    · cases h
      rfl
    · cases h
      rfl
  rw [hspec, Option.toList_some, List.flatMap_singleton] at hv
  cases hcommand : spec.command with
  | some command =>
    simp only [Config.runSteps, hcommand, hbuilder] at hv
    obtain ⟨w, hw, hv⟩ := Except.foldlM_cons_ok hv
    cases hv
    obtain ⟨text, htext, hw⟩ := write_bootScript hw
    refine ⟨text, ?_, hw⟩
    rw [ContentsEnv.readScript, if_pos rfl] at htext
    rw [RunSpec.text, hcommand]
    simpa [Config.commandText, hspec, hcommand] using htext
  | none =>
    obtain ⟨script, hscript, hne⟩ := hown.run spec hspec hcommand
    simp only [Config.runSteps, hcommand, hbuilder, hscript] at hv
    obtain ⟨w, hw, hv⟩ := Except.foldlM_cons_ok hv
    obtain rfl := write_findScript hw
    obtain ⟨w, hw, hv⟩ := Except.foldlM_cons_ok hv
    cases hv
    obtain ⟨text, htext, hw⟩ := write_bootScript hw
    refine ⟨text, ?_, hw⟩
    rw [ContentsEnv.readScript, if_neg hne] at htext
    rw [RunSpec.text, hcommand, hscript]
    exact htext

theorem contents_ok (h : c.contents env t = .ok u) :
    ∃ v, c.firstSteps.foldlM (env.write c.commandText) t = .ok v ∧
      (c.lastSteps env.commandScript).foldlM (env.write c.commandText) v = .ok u := by
  rw [Config.contents, imageSteps_eq, List.foldlM_append] at h
  exact Except.bind_ok h

/-! ### Layers -/

/-- What a workload writes to its image, in order, if it does not boot it. -/
def Config.Logs (env : ContentsEnv τ) (c : Config) (log : Listing) : Prop :=
  ∃ files, List.Forall₂ env.FileLog (c.files.getD []) files ∧
    log = (c.overlay.map env.overlay).getD [] ++ files.flatten ++ c.bootLog env

structure Config.LinkFree (env : ContentsEnv τ) (p : List String) (c : Config) : Prop where
  overlay : ∀ overlay ∈ c.overlay, FireMarshal.LinkFree p (read some (env.overlay overlay))
  files : ∀ f ∈ c.files.getD [], ∀ log, env.FileLog f log → FireMarshal.LinkFree p (read some log)
  boot : FireMarshal.LinkFree p (read some (c.bootLog env))

theorem copySteps_over (hcopy : env.Copies get p) (hc : c.LinkFree env p) (ht : LinkFree p (get t))
    (h : c.copySteps.foldlM (env.write k) t = .ok u) :
    LinkFree p (get u) ∧ ∃ files, List.Forall₂ env.FileLog (c.files.getD []) files ∧
      Over get p ((c.overlay.map env.overlay).getD [] ++ files.flatten) t u := by
  rw [Config.copySteps, List.foldlM_append, List.foldlM_append] at h
  obtain ⟨v, hv, h⟩ := Except.bind_ok h
  obtain ⟨w, hw, hv⟩ := Except.bind_ok hv
  obtain rfl : t = w := by
    split at hw
    · cases hw
      rfl
    · cases hw
      rfl
  obtain ⟨hfree, hoverlay⟩ : LinkFree p (get v) ∧ Over get p ((c.overlay.map env.overlay).getD []) t v := by
    cases hover : c.overlay with
    | none =>
      rw [hover] at hv
      cases hv
      exact ⟨ht, Over.nil get p t⟩
    | some overlay =>
      rw [hover] at hv
      cases hv
      have hl := hc.overlay overlay hover
      have happlied := ContentsEnv.applyOverlay_over hcopy hl ht
      exact ⟨happlied.linkFree hl ht, happlied⟩
  have hcopied : (c.files.getD []).foldlM env.copyFile v = .ok u := by
    cases hfiles : c.files with
    | none =>
      rw [hfiles] at h
      exact h
    | some files =>
      rw [hfiles] at h
      obtain ⟨w, hw, h⟩ := Except.foldlM_cons_ok h
      cases h
      exact hw
  obtain ⟨hu, files, hfiles, hover⟩ := ContentsEnv.copyFiles_over hcopy hc.files hfree hcopied
  exact ⟨hu, files, hfiles, hoverlay.append hover⟩

structure Config.Scripted (env : ContentsEnv τ) (c : Config) : Prop where
  own : c.OwnScripts env
  run : c.runSpec.isSome = true
  builder : c.builder.isSome = true
  guestInit : c.guestInit = none

theorem contents_over (hcopy : env.Copies get p) (hc : c.Scripted env) (hfree : c.LinkFree env p)
    (ht : LinkFree p (get t)) (h : c.contents env t = .ok u) :
    LinkFree p (get u) ∧ ∃ log, c.Logs env log ∧ Over get p log t u := by
  obtain ⟨hown, hrun, hbuilder, hguest⟩ := hc
  obtain ⟨spec, hspec⟩ := Option.isSome_iff_exists.mp hrun
  obtain ⟨b, hbuilder⟩ := Option.isSome_iff_exists.mp hbuilder
  obtain ⟨v, hv, h⟩ := contents_ok h
  have hcopies : c.copySteps.foldlM (env.write c.commandText) t = .ok v := by
    have hsteps : c.firstSteps = c.baseImg.toList.map .copyBase ++ c.copySteps := by
      simp [Config.firstSteps, Config.copySteps, hguest]
    rw [hsteps, List.foldlM_append] at hv
    cases hbase : c.baseImg with
    | none => rwa [hbase] at hv
    | some base => rwa [hbase] at hv
  obtain ⟨hvfree, files, hfiles, hover⟩ := copySteps_over hcopy hfree ht hcopies
  obtain ⟨text, htext, rfl⟩ := lastSteps_runs hown hspec hbuilder h
  have hboot : c.bootLog env = (env.builder b).listing ((env.builder b).files text spec.args) := by
    simp [Config.bootLog, hspec, hbuilder, htext]
  rw [← hboot]
  have happlied := ContentsEnv.applyOverlay_over hcopy hfree.boot hvfree
  exact ⟨happlied.linkFree hfree.boot hvfree, _, ⟨files, hfiles, rfl⟩, hover.append happlied⟩

/-- Workloads that are each based on the one before, from the image `b` to the image `q`. -/
inductive BuiltOn : String → List Config → String → Prop
  | nil (b : String) : BuiltOn b [] b
  | cons {b path q : String} {c : Config} {cs : List Config} (hbase : c.baseImg = some b) (himg : c.img = some path)
      (hrest : BuiltOn path cs q) : BuiltOn b (c :: cs) q

section Nearest

variable {ω : Type} {ienv : InitEnv} {m : Marshal ω} {wlutilDir : String} {raw : RawConfig} {chain : List (Origin ω)}
variable {v : Config}

def Origin.runSpec (ienv : InitEnv) : Origin ω → Option RunSpec
  | .file raw => raw.initWorkdir.toOption.bind fun workdir =>
    match raw.run, raw.command with
    | some run, _ => some (.fromString ienv run workdir)
    | none, some command => some { command := some command }
    | none, none => none
  | .distro _ => none

/-- The script that does nothing. -/
def nullRun (wlutilDir : String) : RunSpec := { path := some (joinPath wlutilDir "null_run.sh") }

def nearestRun (ienv : InitEnv) (wlutilDir : String) (chain : List (Origin ω)) : RunSpec :=
  (chain.findSome? (Origin.runSpec ienv)).getD (nullRun wlutilDir)

theorem runSpec_ofFile (h : c.OfFile ienv raw) : c.runSpec = (Origin.file raw : Origin ω).runSpec ienv := by
  obtain ⟨c₀, hinit, hc⟩ := h
  obtain ⟨workdir, imgSz, mem, cpus, hworkdir, -, -, -, rfl⟩ := Config.init_eq_ok hinit
  rw [hc, Origin.runSpec, hworkdir]
  rfl

theorem runSpec_setRunSpec (self : Config) :
    (self.setRunSpec wlutilDir).runSpec = some (self.runSpec.getD (nullRun wlutilDir)) := by
  unfold Config.setRunSpec
  cases hspec : self.runSpec with
  | none => rfl
  | some spec => exact hspec

theorem runSpec_applied {u : Config} (h : c.applyBase wlutilDir u = .ok v) :
    v.runSpec = some ((c.runSpec.or u.runSpec).getD (nullRun wlutilDir)) := by
  unfold Config.applyBase at h
  rw [Config.inheritTargets_eq] at h
  obtain ⟨linux, -, h⟩ := Except.bind_ok h
  obtain ⟨firmware, -, h⟩ := Except.bind_ok h
  simp only [Config.setBinary_eq] at h
  cases h
  rw [runSpec_setRunSpec]
  change some ((c.runSpec <|> u.runSpec).getD (nullRun wlutilDir)) = _
  rw [Option.orElse_eq_orElse, Option.orElse_eq_or]

theorem runSpec_of_chain (h : BaseChain ienv m wlutilDir chain v) :
    v.runSpec.getD (nullRun wlutilDir) = nearestRun ienv wlutilDir chain := by
  induction h with
  | distro w d => rfl
  | @alone raw c hfile =>
    rw [nearestRun, List.findSome?_singleton, ← runSpec_ofFile hfile]
    rfl
  | @based raw c u v chain hfile hbase happly ih =>
    rw [runSpec_applied happly, nearestRun, List.findSome?_cons, ← runSpec_ofFile hfile, Option.getD_some]
    cases c.runSpec with
    | some spec => rfl
    | none => exact ih

/-- Once the overlay of a builder is applied, its two files can be read in the image. -/
def ContentsEnv.BootCopied (env : ContentsEnv τ) (get : τ → List String → Option Entry) (b : String) : Prop :=
  ∀ text args t,
    get (env.applyOverlay ((env.builder b).listing ((env.builder b).files text args)) t) (env.builder b).scriptDst =
      some (.file text) ∧
    get (env.applyOverlay ((env.builder b).listing ((env.builder b).files text args)) t) (env.builder b).serviceDst =
      some (.file ((env.builder b).service (" ".intercalate args)))

theorem image_runs_nearest {h : ImageHost τ} {o : Origin ω} {path b bd : String}
    (hv : BaseChain ienv m wlutilDir (.file raw :: o :: chain) v) (hown : v.OwnScripts env) (himg : v.img = some path)
    (hbase : v.baseImg = some b) (hb : h.images b = some t) (hbuilder : v.builder = some bd)
    (hcopied : env.BootCopied get bd) (hok : (v.makeImageOn env h).2 = none) :
    ∃ u text, (v.makeImageOn env h).1.images path = some u ∧
      (nearestRun ienv wlutilDir (.file raw :: o :: chain)).text env = some text ∧
      get u (env.builder bd).scriptDst = some (.file text) ∧
      get u (env.builder bd).serviceDst = some (.file ((env.builder bd).service
        (" ".intercalate (nearestRun ienv wlutilDir (.file raw :: o :: chain)).args))) := by
  have hnearest := runSpec_of_chain hv
  have hspec : v.runSpec = some (nearestRun ienv wlutilDir (.file raw :: o :: chain)) := by
    cases hv with
    | based hfile hbase happly =>
      rw [runSpec_applied happly, Option.getD_some] at hnearest
      rw [runSpec_applied happly, hnearest]
  obtain ⟨u, hcontents, himage⟩ := contents_of_makeImageOn hown himg hbase hb hok
  obtain ⟨w, -, hlast⟩ := contents_ok hcontents
  obtain ⟨text, htext, rfl⟩ := lastSteps_runs hown hspec hbuilder hlast
  obtain ⟨hscript, hservice⟩ := hcopied text (nearestRun ienv wlutilDir (.file raw :: o :: chain)).args w
  exact ⟨_, text, himage, htext, hscript, hservice⟩

end Nearest

def commandParent : RawConfig :=
  { name := "parent", cfgFile := some ⟨"/wl", "parent.yaml"⟩, img := some "/br.img", builder := some "br",
    command := some "echo hello" }

def madeHost : ImageHost (List String → Option Entry) :=
  makeImages sampleContentsEnv [helloConfig, helloConfig, byeConfig] brHost

theorem image_runs_nearest_child :
    ∃ v u, BaseChain sampleInitEnv (⟨[], "/images"⟩ : Marshal Unit) "/wlutil"
        [.file childOfMany, .file commandParent] v ∧
      (v.makeImageOn sampleContentsEnv madeHost).1.images "/images/child/child.img" = some u ∧
      u ["firemarshal.sh"] = some (.file (genRunScript "echo hello")) := by
  have hparent : Config.init sampleInitEnv commandParent none [] =
      .ok (.ofRaw sampleInitEnv commandParent none [] "/wl/parent" Config.defaultImgSz Config.defaultMem
        Config.defaultCpus) := by decide +kernel
  have hchild : Config.init sampleInitEnv childOfMany none [] =
      .ok (.ofRaw sampleInitEnv childOfMany none [] "/wl/child" Config.defaultImgSz Config.defaultMem
        Config.defaultCpus) := by decide +kernel
  obtain ⟨v, hv, hconfig⟩ : ∃ v, BaseChain sampleInitEnv (⟨[], "/images"⟩ : Marshal Unit) "/wlutil"
      [.file childOfMany, .file commandParent] v ∧ v.img = some "/images/child/child.img" ∧
      v.baseImg = some "/br.img" ∧ v.builder = some "br" ∧ v.guestInit = none ∧
      v.runSpec = some { command := some "echo hello" } ∧
      (v.makeImageOn sampleContentsEnv madeHost).2 = none :=
    ⟨_, .based (ofFile_init hchild) (.alone (ofFile_init hparent)) rfl, by decide +kernel⟩
  obtain ⟨himg, hbase, hbuilder, hguest, hrun, hdone⟩ := hconfig
  have hown : v.OwnScripts sampleContentsEnv := ⟨by simp [hguest], by simp [hrun]⟩
  have hcopied : sampleContentsEnv.BootCopied (fun t => t) "br" := fun text args t => ⟨rfl, rfl⟩
  obtain ⟨u, text, hu, htext, hscript, -⟩ :=
    image_runs_nearest hv hown himg hbase rfl hbuilder hcopied hdone
  refine ⟨v, u, hv, hu, hscript.trans ?_⟩
  rw [← Option.some.inj htext]

end FireMarshal
