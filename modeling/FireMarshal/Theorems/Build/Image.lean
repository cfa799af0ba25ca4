import FireMarshal.Build.Image
import FireMarshal.Theorems.Config.Inherit

/-! The sizes of images, along base chains. -/

namespace FireMarshal

/-! ### Steps -/

def ImageStep.keepsSize : ImageStep → Bool
  | copyBase _ | resizeFS _ => false
  | _ => true

variable {tools : ImageTools} {path commandScript : String} {img out : Image} {steps : List ImageStep} {c : Config}

theorem contentSteps_keepSize {s : ImageStep} (h : s ∈ c.contentSteps commandScript) : s.keepsSize = true := by
  simp only [Config.contentSteps, List.mem_append, List.mem_map, List.mem_flatMap] at h
  rcases h with ((⟨_, -, rfl⟩ | ⟨_, -, rfl⟩) | ⟨script, -, h⟩) | ⟨spec, -, h⟩
  · rfl
  · rfl
  · simp only [Config.guestInitSteps, List.mem_cons, List.not_mem_nil, or_false] at h
    rcases h with rfl | rfl | rfl | rfl <;> rfl
  · unfold Config.runSteps at h
    split at h
    · obtain rfl := List.mem_singleton.mp h
      rfl
    · simp only [List.mem_cons, List.not_mem_nil, or_false] at h
      rcases h with rfl | rfl <;> rfl

structure Image.WrittenSince (img out : Image) : Prop where
  base : out.base = img.base
  size : out.size = img.size
  writes : ∃ ws : List ImageStep, out.writes = img.writes ++ ws.map fun s => (s, img.size)

theorem Image.WrittenSince.refl (img : Image) : img.WrittenSince img := ⟨rfl, rfl, [], by simp⟩

theorem Image.WrittenSince.trans {img mid out : Image} (h : img.WrittenSince mid) (h' : mid.WrittenSince out) :
    img.WrittenSince out := by
  obtain ⟨ws, hws⟩ := h.writes
  obtain ⟨ws', hws'⟩ := h'.writes
  exact ⟨h'.base.trans h.base, h'.size.trans h.size, ws ++ ws', by simp [hws', hws, h.size]⟩

theorem step_keepsSize {s : ImageStep} {o : Option Image} (hs : s.keepsSize = true)
    (h : tools.step path (some img) s = .ok o) : ∃ out, o = some out ∧ img.WrittenSince out := by
  have hwrite : (tools.write img s >>= fun _ =>
      .ok (some { img with writes := img.writes ++ [(s, img.size)] })) = .ok o →
      ∃ out, o = some out ∧ img.WrittenSince out := by
    intro h
    obtain ⟨-, -, h⟩ := Except.bind_ok h
    exact ⟨_, (Except.ok.inj h).symm, rfl, rfl, [s], rfl⟩
  cases s with
  | copyBase => cases hs
  | resizeFS => cases hs
  | applyOverlay => exact hwrite h
  | copyImgFiles => exact hwrite h
  | boot => exact hwrite h
  | findScript kind script =>
    simp only [ImageTools.step] at h
    split at h
    · exact ⟨img, (Except.ok.inj h).symm, .refl img⟩
    · cases h
  | bootScript builder script args =>
    cases builder with
    | none => cases h
    | some builder => exact hwrite h

theorem steps_keepSize {o : Option Image} (hs : ∀ s ∈ steps, s.keepsSize = true)
    (h : steps.foldlM (tools.step path) (some img) = .ok o) : ∃ out, o = some out ∧ img.WrittenSince out := by
  induction steps generalizing img with
  | nil => exact ⟨img, (Except.ok.inj h).symm, .refl img⟩
  | cons s steps ih =>
    obtain ⟨mid, hmid, h⟩ := Except.foldlM_cons_ok h
    obtain ⟨mid, rfl, hfirst⟩ := step_keepsSize (hs s List.mem_cons_self) hmid
    obtain ⟨out, rfl, hrest⟩ := ih (fun s' hs' => hs s' (List.mem_cons_of_mem _ hs')) h
    exact ⟨out, rfl, hfirst.trans hrest⟩

theorem resizeFS_size {newSize : Nat} (h : tools.resizeFS img newSize = .ok out) :
    out.size = (if newSize = 0 then tools.minimum img + tools.margin else max img.size newSize) ∧
      out.base = img.base ∧ out.writes = img.writes := by
  unfold ImageTools.resizeFS at h
  split at h
  · cases h
  · rw [← Except.ok.inj h]
    refine ⟨?_, rfl, rfl⟩
    by_cases hzero : newSize = 0
    · simp only [hzero, if_true]
      split <;> omega
    · simp only [hzero, if_false]
      split <;> omega

/-! ### Images -/

theorem resizeFS_mem_imageSteps {n : Nat} : .resizeFS n ∈ c.imageSteps commandScript ↔ n = c.imgSz := by
  have hcontent : .resizeFS n ∉ c.contentSteps commandScript := fun h => by
    cases contentSteps_keepSize h
  by_cases hzero : c.imgSz = 0 <;> simp [Config.imageSteps, hcontent, hzero]

/-- An image is grown before anything is written to it, and its size is not changed again. -/
def Config.GrowsTo (commandScript : String) (c : Config) (size : Nat) : Prop :=
  ∃ pre post, c.imageSteps commandScript = pre ++ .resizeFS size :: post ∧ (∀ s ∈ pre, ∃ b, s = .copyBase b) ∧
    ∀ n, .resizeFS n ∉ post

theorem growsTo_iff {size : Nat} (hsize : 0 < size) : c.GrowsTo commandScript size ↔ c.imgSz = size := by
  constructor
  · rintro ⟨pre, post, hsteps, -, -⟩
    have hmem : .resizeFS size ∈ c.imageSteps commandScript := by simp [hsteps]
    exact (resizeFS_mem_imageSteps.mp hmem).symm
  · rintro rfl
    have hzero : c.imgSz ≠ 0 := Nat.ne_of_gt hsize
    refine ⟨c.baseImg.toList.map .copyBase, c.contentSteps commandScript, ?_, ?_, fun n hmem => ?_⟩
    · simp [Config.imageSteps, hzero]
    · simp
    · cases contentSteps_keepSize hmem

/-- With a size, all is written to an image that has grown to it. Without one, all is written to an image of the size of
    the base, which is shrunk to the minimum and the margin. -/
theorem makeImage_size {b : String} {n : Nat} {o : Option Image} (hbase : c.baseImg = some b)
    (hsize : tools.getsize b = some n) (h : makeImage tools c = .ok o) :
    ∃ out, o = some out ∧
      (c.imgSz ≠ 0 → out.size = max n c.imgSz ∧ ∀ w ∈ out.writes, w.2 = max n c.imgSz) ∧
      (c.imgSz = 0 → (∃ full : Image, full.writes = out.writes ∧ out.size = tools.minimum full + tools.margin) ∧
        ∀ w ∈ out.writes, w.2 = n) := by
  unfold makeImage at h
  split at h
  · cases h
  next path _ =>
  have hcopy : tools.step path none (.copyBase b) = .ok (some { base := b, size := n }) := by
    simp [ImageTools.step, hsize]
  by_cases hzero : c.imgSz = 0
  · have hsteps : c.imageSteps tools.commandScript =
        .copyBase b :: (c.contentSteps tools.commandScript ++ [.resizeFS 0]) := by
      simp [Config.imageSteps, hbase, hzero]
    rw [hsteps, List.foldlM_cons, hcopy, Except.ok_bind, List.foldlM_append] at h
    obtain ⟨full, hfull, h⟩ := Except.bind_ok h
    obtain ⟨full, rfl, hwritten⟩ := steps_keepSize (fun s hs => contentSteps_keepSize hs) hfull
    obtain ⟨out, hout, h⟩ := Except.foldlM_cons_ok h
    obtain ⟨out, hresize, hout⟩ := Except.bind_ok hout
    cases hout
    cases h
    obtain ⟨hsize, -, hwrites⟩ := resizeFS_size hresize
    obtain ⟨ws, hws⟩ := hwritten.writes
    refine ⟨out, rfl, fun hne => absurd hzero hne, fun _ => ⟨⟨full, hwrites.symm, hsize⟩, fun w hw => ?_⟩⟩
    rw [hwrites, hws] at hw
    simp at hw
    obtain ⟨s, -, rfl⟩ := hw
    rfl
  · have hsteps : c.imageSteps tools.commandScript =
        .copyBase b :: .resizeFS c.imgSz :: c.contentSteps tools.commandScript := by
      simp [Config.imageSteps, hbase, hzero]
    rw [hsteps, List.foldlM_cons, hcopy, Except.ok_bind] at h
    obtain ⟨grown, hgrown, h⟩ := Except.foldlM_cons_ok h
    obtain ⟨grown, hresize, hgrown⟩ := Except.bind_ok hgrown
    cases hgrown
    obtain ⟨hsize, -, hnone⟩ := resizeFS_size hresize
    rw [if_neg hzero] at hsize
    obtain ⟨out, rfl, hwritten⟩ := steps_keepSize (fun s hs => contentSteps_keepSize hs) h
    obtain ⟨ws, hws⟩ := hwritten.writes
    refine ⟨out, rfl, fun _ => ⟨hwritten.size.trans hsize, fun w hw => ?_⟩, fun hz => absurd hz hzero⟩
    rw [hws, hnone] at hw
    simp at hw
    obtain ⟨s, -, rfl⟩ := hw
    exact hsize

/-! ### Base chains -/

section
variable {ω : Type} {env : InitEnv} {m : Marshal ω} {wlutilDir text : String} {raw : RawConfig}
variable {chain : List (Origin ω)} {v : Config} {size : Nat}

def Origin.rootfsSize : Origin ω → Option String
  | file raw => raw.rootfsSize
  | distro _ => none

theorem rootfsSize_ofFile (h : c.OfFile env raw) : c.rootfsSize = raw.rootfsSize ∧
    Config.parseOr env.parseSize Config.defaultImgSz raw.rootfsSize = .ok c.imgSz := by
  obtain ⟨c₀, hinit, hc⟩ := h
  obtain ⟨workdir, imgSz, mem, cpus, -, himgSz, -, -, rfl⟩ := Config.init_eq_ok hinit
  rw [hc]
  exact ⟨rfl, himgSz⟩

theorem rootfsSize_of_chain (h : BaseChain env m wlutilDir chain v) :
    v.rootfsSize = chain.findSome? Origin.rootfsSize := by
  induction h with
  | distro w d => rfl
  | @alone raw c hfile =>
    rw [List.findSome?_cons]
    have hown := (rootfsSize_ofFile hfile).1
    cases hraw : raw.rootfsSize <;> simp [Config.setLaunch, Origin.rootfsSize, hown, hraw]
  | @based raw c u v chain hfile hbase happly ih =>
    rw [List.findSome?_cons, (Config.applied_of_applyBase happly).rootfsSize, (rootfsSize_ofFile hfile).1, ih]
    cases hraw : raw.rootfsSize <;> simp [Origin.rootfsSize, hraw]

theorem imgSz_of_chain (h : BaseChain env m wlutilDir (.file raw :: chain) v) :
    Config.parseOr env.parseSize Config.defaultImgSz raw.rootfsSize = .ok v.imgSz := by
  cases h with
  | alone hfile => exact (rootfsSize_ofFile hfile).2
  | based hfile hbase happly =>
    rw [(Config.applied_of_applyBase happly).imgSz]
    exact (rootfsSize_ofFile hfile).2

/-- A size that the nearest configuration of a chain sets is inherited, but used for the image only if the leaf itself
    sets it. -/
theorem imgSz_inherited_iff (h : BaseChain env m wlutilDir (.file raw :: chain) v)
    (hnearest : (.file raw :: chain).findSome? Origin.rootfsSize = some text) (hparse : env.parseSize text = .ok size)
    (hsize : 0 < size) (commandScript : String) :
    v.rootfsSize = some text ∧ (v.imgSz = size ↔ raw.rootfsSize.isSome) ∧
      (v.GrowsTo commandScript size ↔ raw.rootfsSize.isSome) := by
  have himgSz := imgSz_of_chain h
  have hiff : v.imgSz = size ↔ raw.rootfsSize.isSome := by
    cases hraw : raw.rootfsSize with
    | none =>
      rw [hraw] at himgSz
      have hzero : 0 = v.imgSz := Except.ok.inj himgSz
      simp [← hzero, Nat.ne_of_lt hsize]
    | some own =>
      rw [List.findSome?_cons] at hnearest
      simp only [Origin.rootfsSize, hraw] at hnearest
      obtain rfl := Option.some.inj hnearest
      rw [hraw] at himgSz
      have hown : env.parseSize own = .ok v.imgSz := himgSz
      simpa using (Except.ok.inj (hparse.symm.trans hown)).symm
  exact ⟨(rootfsSize_of_chain h).trans hnearest, hiff, (growsTo_iff hsize).trans hiff⟩

end

/-! ### A base with a larger image -/

def sizeEnv : InitEnv :=
  { sampleInitEnv with
    parseSize := fun text => .ok (if text = "4GB" then 4000000000 else if text = "8GB" then 8000000000 else 0) }

def largeImage : RawConfig := { name := "parent", cfgFile := some ⟨"/wl", "parent.yaml"⟩, rootfsSize := some "4GB" }

theorem init_largeImage : Config.init sizeEnv largeImage none [] =
    .ok (.ofRaw sizeEnv largeImage none [] "/wl/parent" 4000000000 Config.defaultMem Config.defaultCpus) := by
  decide +kernel

def largerImage : RawConfig :=
  { name := "child", base := some "parent.yaml", cfgFile := some ⟨"/wl", "child.yaml"⟩, rootfsSize := some "8GB" }

theorem imgSz_own : ∃ v : Config,
    BaseChain sizeEnv (⟨[], "/images"⟩ : Marshal Unit) "/wlutil" [.file largerImage, .file largeImage] v ∧
      v.imgSz = 8000000000 := by
  have hchild : Config.init sizeEnv largerImage none [] =
      .ok (.ofRaw sizeEnv largerImage none [] "/wl/child" 8000000000 Config.defaultMem Config.defaultCpus) := by
    decide +kernel
  have hv : BaseChain sizeEnv (⟨[], "/images"⟩ : Marshal Unit) "/wlutil" [.file largerImage, .file largeImage] _ :=
    .based (ofFile_init hchild) (.alone (ofFile_init init_largeImage)) rfl
  have hparse : sizeEnv.parseSize "8GB" = .ok 8000000000 := by decide
  exact ⟨_, hv, (imgSz_inherited_iff hv rfl hparse (by decide) "").2.1.mpr rfl⟩

theorem imgSz_not_inherited : ∃ v : Config,
    BaseChain sizeEnv (⟨[], "/images"⟩ : Marshal Unit) "/wlutil" [.file childOfMany, .file largeImage] v ∧
      v.rootfsSize = some "4GB" ∧ v.imgSz = 0 := by
  have hchild : Config.init sizeEnv childOfMany none [] =
      .ok (.ofRaw sizeEnv childOfMany none [] "/wl/child" Config.defaultImgSz Config.defaultMem
        Config.defaultCpus) := by decide +kernel
  exact ⟨_, .based (ofFile_init hchild) (.alone (ofFile_init init_largeImage)) rfl, rfl, rfl⟩

end FireMarshal
