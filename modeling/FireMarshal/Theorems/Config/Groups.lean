import FireMarshal.Theorems.Build.Bin

/-! The groups 'linux' and 'firmware' along a base chain. Fragments and build arguments are appended, root first;
    modules are overridden or removed by name; sources come from the nearest member. -/

namespace FireMarshal
namespace Config

/-! ### Options of the groups -/

def fragments (c : Config) : Option (List String) := c.linux.bind Linux.config

def linuxSource (c : Config) : Option String := c.linux.bind Linux.source

/-- What the configuration says of a kernel module: a path, or that it is not to be included. -/
def kernelModule (c : Config) (name : String) : Option (Option String) :=
  c.linux.bind fun l => l.modules.bind fun d => d.lookup name

def firmwareSrc (c : Config) : Option String := c.firmware.bind Firmware.opensbiSrc

def firmwareArgs (c : Config) : Option (List String) := c.firmware.bind Firmware.opensbiBuildArgs

def firmwareSource (c : Config) : Option String := c.firmware.bind Firmware.source

end Config

/-- The lists that members of a chain set, root first; the chain has the leaf first. -/
def rootFirst (get : Config → Option (List String)) (chain : List Config) : Option (List String) :=
  match chain.reverse.filterMap get with
  | [] => none
  | ls => some ls.flatten

theorem rootFirst_cons (get : Config → Option (List String)) (c : Config) (chain : List Config) :
    rootFirst get (c :: chain) = (rootFirst get chain).merge (· ++ ·) (get c) := by
  simp only [rootFirst, List.reverse_cons, List.filterMap_append]
  cases hc : get c with
  | none => cases chain.reverse.filterMap get <;> simp [hc]
  | some l => cases chain.reverse.filterMap get <;> simp [hc]

structure GroupsOf (chain : List Config) (v : Config) : Prop where
  fragments : v.fragments = rootFirst Config.fragments chain
  modules : ∀ name path, v.kernelModule name = some (some path) ↔
    chain.findSome? (·.kernelModule name) = some (some path)
  linuxSource : v.linuxSource = chain.findSome? Config.linuxSource
  firmwareSrc : v.firmwareSrc = chain.findSome? Config.firmwareSrc
  firmwareArgs : v.firmwareArgs = rootFirst Config.firmwareArgs chain

/-! ### One base -/

theorem inheritLinuxOpts_cases {config base l : Option Linux} (h : inheritLinuxOpts config base = .ok l) :
    config = none ∧ l = base ∨ base = none ∧ l = config ∨
      ∃ own b d, config = some own ∧ base = some b ∧ b.modules.merge Dict.merge own.modules = some d ∧
        l = some
          { source := own.source.or b.source
            config := b.config.merge (· ++ ·) own.config
            modules := some (d.filter fun (_, src) => src.isSome) } := by
  cases config with
  | none => exact .inl ⟨rfl, (Except.ok.inj h).symm⟩
  | some own =>
    cases base with
    | none => exact .inr (.inl ⟨rfl, (Except.ok.inj h).symm⟩)
    | some b =>
      refine .inr (.inr ⟨own, b, ?_⟩)
      obtain ⟨source, config, modules⟩ := own
      obtain ⟨bsource, bconfig, bmodules⟩ := b
      simp only [inheritLinuxOpts] at h
      split at h
      · cases h
      · next d hd =>
        refine ⟨d, rfl, rfl, ?_, ?_⟩
        · rw [← hd]
          cases bmodules <;> cases modules <;> rfl
        · rw [← Except.ok.inj h]
          cases bconfig <;> cases config <;> cases source <;> cases bsource <;> rfl

theorem inheritFirmwareOpts_eq_ok {config base f : Option Firmware} (h : inheritFirmwareOpts config base = .ok f) :
    f.bind Firmware.opensbiSrc = (config.bind Firmware.opensbiSrc).or (base.bind Firmware.opensbiSrc) ∧
    f.bind Firmware.opensbiBuildArgs =
      (base.bind Firmware.opensbiBuildArgs).merge (· ++ ·) (config.bind Firmware.opensbiBuildArgs) ∧
    f.bind Firmware.source = f.bind Firmware.opensbiSrc := by
  -- Whatever the two groups are merged to goes through the same check as a group of its own.
  have hsource : ∀ g : Firmware, inheritFirmwareOpts none (some g) = .ok f →
      f.bind Firmware.opensbiSrc = g.opensbiSrc ∧ f.bind Firmware.opensbiBuildArgs = g.opensbiBuildArgs ∧
        f.bind Firmware.source = f.bind Firmware.opensbiSrc := by
    intro g hg
    simp only [inheritFirmwareOpts] at hg
    split at hg
    · cases hg
    · next src hsrc =>
      rw [← Except.ok.inj hg]
      exact ⟨hsrc ▸ rfl, rfl, hsrc ▸ rfl⟩
  cases config with
  | none =>
    cases base with
    | none =>
      rw [← Except.ok.inj h]
      exact ⟨rfl, rfl, rfl⟩
    | some b =>
      obtain ⟨hsrc, hargs, heq⟩ := hsource b h
      exact ⟨hsrc, by simp [hargs], heq⟩
  | some own =>
    cases base with
    | none =>
      obtain ⟨hsrc, hargs, heq⟩ := hsource own h
      exact ⟨by simp [hsrc], by simp [hargs], heq⟩
    | some b =>
      obtain ⟨hsrc, hargs, heq⟩ := hsource _ h
      refine ⟨?_, ?_, heq⟩
      · simp [hsrc, Option.orElse_eq_or]
      · rw [hargs]
        cases hb : b.opensbiBuildArgs <;> cases hown : own.opensbiBuildArgs <;> simp [hb, hown]

theorem lookup_filter_isSome {d : Dict String (Option String)} (hd : d.keys.Nodup) (name path : String) :
    List.lookup name (d.filter fun (_, src) => src.isSome) = some (some path) ↔
      d.lookup name = some (some path) := by
  have hkeys : (Dict.keys (d.filter fun (_, src) => src.isSome)).Nodup := hd.sublist (List.filter_sublist.map _)
  rw [Dict.lookup_eq_some hkeys, Dict.lookup_eq_some hd, List.mem_filter]
  simp

theorem merged_modules {own b : Linux} {d : Dict String (Option String)} (hown : own.Valid) (hb : b.Valid)
    (h : b.modules.merge Dict.merge own.modules = some d) (name : String) :
    d.keys.Nodup ∧
      d.lookup name = (own.modules.bind fun d => d.lookup name).or (b.modules.bind fun d => d.lookup name) := by
  cases hbm : b.modules with
  | none =>
    have hom : own.modules = some d := by simpa [hbm] using h
    exact ⟨hown d hom, by simp [hom]⟩
  | some bm =>
    cases hom : own.modules with
    | none =>
      rw [hbm, hom] at h
      obtain rfl : bm = d := Option.some.inj h
      exact ⟨hb bm hbm, by simp⟩
    | some om =>
      rw [hbm, hom] at h
      obtain rfl : Dict.merge bm om = d := Option.some.inj h
      exact ⟨Dict.nodup_merge (hb bm hbm) (hown om hom), Dict.lookup_merge bm om name⟩

theorem GroupsOf.applied {chain : List Config} {c u v : Config} (h : GroupsOf chain u) (ha : c.Applied u v)
    (hc : ∀ l ∈ c.linux, l.Valid) (hu : ∀ b ∈ u.linux, b.Valid) : GroupsOf (c :: chain) v := by
  obtain ⟨hsrc, hargs, -⟩ := inheritFirmwareOpts_eq_ok ha.firmware
  have hlinux := inheritLinuxOpts_cases ha.linux
  refine ⟨?_, fun name path => ?_, ?_, ?_, ?_⟩
  · rw [rootFirst_cons, ← h.fragments]
    simp only [Config.fragments]
    rcases hlinux with ⟨hcl, hv⟩ | ⟨hul, hv⟩ | ⟨own, b, d, hcl, hul, -, hv⟩
    · simp [hcl, hv]
    · simp [hul, hv]
    · simp [hcl, hul, hv]
  · have hnearest : (c :: chain).findSome? (·.kernelModule name) =
        (c.kernelModule name).or (chain.findSome? (·.kernelModule name)) := by
      rw [List.findSome?_cons]
      cases c.kernelModule name <;> rfl
    -- What the base says of a module counts only if the configuration itself does not mention it.
    have hstep : v.kernelModule name = some (some path) ↔
        (c.kernelModule name).or (u.kernelModule name) = some (some path) := by
      simp only [Config.kernelModule]
      rcases hlinux with ⟨hcl, hv⟩ | ⟨hul, hv⟩ | ⟨own, b, d, hcl, hul, hd, hv⟩
      · simp [hcl, hv]
      · simp [hul, hv]
      · obtain ⟨hkeys, hlookup⟩ := merged_modules (hc own hcl) (hu b hul) hd name
        simp only [hcl, hul, hv, Option.bind_some]
        rw [lookup_filter_isSome hkeys, hlookup]
    rw [hnearest, hstep, Option.or_eq_some_iff, Option.or_eq_some_iff, h.modules]
  · rw [List.findSome?_cons, ← h.linuxSource]
    simp only [Config.linuxSource]
    rcases hlinux with ⟨hcl, hv⟩ | ⟨hul, hv⟩ | ⟨own, b, d, hcl, hul, -, hv⟩
    · simp [hcl, hv]
    · cases hs : c.linux.bind Linux.source <;> simp [hul, hv, hs]
    · cases hs : own.source <;> simp [hcl, hul, hv, hs]
  · rw [List.findSome?_cons, ← h.firmwareSrc]
    simp only [Config.firmwareSrc, hsrc]
    cases c.firmware.bind Firmware.opensbiSrc <;> rfl
  · rw [rootFirst_cons, ← h.firmwareArgs]
    exact hargs

theorem groupsOf_root (root : Config) : GroupsOf [root] root := by
  refine ⟨?_, fun name path => ?_, ?_, ?_, ?_⟩
  · rw [rootFirst_cons]
    simp [rootFirst]
  · rw [List.findSome?_cons]
    cases root.kernelModule name <;> simp
  · rw [List.findSome?_cons]
    cases root.linuxSource <;> rfl
  · rw [List.findSome?_cons]
    cases root.firmwareSrc <;> rfl
  · rw [rootFirst_cons]
    simp [rootFirst]

/-! ### Chains -/

variable {wlutilDir : String} {root c v : Config} {cs rs : List Config}

theorem groupsOf_chain (hvalid : ∀ m ∈ cs ++ [root], ∀ l ∈ m.linux, l.Valid)
    (h : resolveChain wlutilDir root cs = .ok rs) :
    GroupsOf (cs ++ [root]) (rs.headD root) ∧ ∀ l ∈ (rs.headD root).linux, l.Valid := by
  induction cs generalizing rs with
  | nil =>
    cases h
    exact ⟨groupsOf_root root, hvalid root (by simp)⟩
  | cons c cs ih =>
    obtain ⟨v, rs, rfl, hrs, hv⟩ := resolveChain_cons.mp h
    obtain ⟨hgroups, hbase⟩ := ih (fun m hm => hvalid m (List.mem_cons_of_mem _ hm)) hrs
    have ha := Config.applied_of_applyBase hv
    have hc := hvalid c List.mem_cons_self
    exact ⟨hgroups.applied ha hc hbase, ha.valid hc hbase⟩

/-- For every chain that `applyBase` resolves, of any length. -/
theorem resolveChain_groups (hvalid : ∀ m ∈ c :: (cs ++ [root]), ∀ l ∈ m.linux, l.Valid)
    (h : resolveChain wlutilDir root (c :: cs) = .ok (v :: rs)) :
    GroupsOf (c :: (cs ++ [root])) v ∧ v.firmwareSource = v.firmwareSrc := by
  refine ⟨(groupsOf_chain hvalid h).1, ?_⟩
  obtain ⟨v', rs', heq, -, hv⟩ := resolveChain_cons.mp h
  cases heq
  exact (inheritFirmwareOpts_eq_ok (Config.applied_of_applyBase hv).firmware).2.2

/-! ### A module that is disabled and comes back -/

def moduleRoot : Config :=
  { name := "root", outDir := "/root"
    firmware := some { opensbiSrc := some "/opensbi", opensbiBuildArgs := some ["FW_PIC=n"] }
    linux := some
      { source := some "/linux", config := some ["root.kfrag"]
        modules := some [("icenet", some "/icenet"), ("iceblk", some "/iceblk")] } }

def moduleOff : Config :=
  { name := "off", outDir := "/off", linux := some { modules := some [("icenet", none), ("iceblk", none)] } }

def moduleOn : Config :=
  { name := "on", outDir := "/on"
    linux := some { config := some ["on.kfrag"], modules := some [("icenet", some "/on/icenet")] } }

theorem resolveChain_groups_modules : ∃ v rs,
    resolveChain "/wlutil" moduleRoot [moduleOn, moduleOff] = .ok (v :: rs) ∧
      GroupsOf [moduleOn, moduleOff, moduleRoot] v ∧ v.fragments = some ["root.kfrag", "on.kfrag"] ∧
      v.kernelModule "icenet" = some (some "/on/icenet") ∧ v.kernelModule "iceblk" = none ∧
      v.firmwareSource = some "/opensbi" := by
  obtain ⟨v, rs, h, hnone⟩ : ∃ v rs, resolveChain "/wlutil" moduleRoot [moduleOn, moduleOff] = .ok (v :: rs) ∧
      v.kernelModule "iceblk" = none := ⟨_, _, rfl, rfl⟩
  have hvalid : ∀ m ∈ moduleOn :: ([moduleOff] ++ [moduleRoot]), ∀ l ∈ m.linux, l.Valid := by
    simp [moduleOn, moduleOff, moduleRoot, Linux.Valid, Dict.keys]
  obtain ⟨hg, hsource⟩ := resolveChain_groups hvalid h
  exact ⟨v, rs, h, hg, hg.fragments, (hg.modules _ _).mpr rfl, hnone, hsource.trans hg.firmwareSrc⟩

end FireMarshal
