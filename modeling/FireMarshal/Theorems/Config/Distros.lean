import FireMarshal.Config.Distros
import FireMarshal.Theorems.Config.ForkNames

/-! The options and identifiers of the distro modules. -/

namespace FireMarshal

variable {h : Host} {id : String}

/-! ### The modules -/

theorem distroMods_cases {h : Host} {name : String} {distMod : DistroModule DistroOpts}
    (hmod : (distroMods h).lookup name = some distMod) :
    name = "br" ∧ distMod = brModule h ∨ name = "fedora" ∧ distMod = fedoraModule h ∨
      name = "ubuntu" ∧ distMod = ubuntuModule h ∨ name = "bare" ∧ distMod = bareModule := by
  rw [Dict.lookup_eq_some (by simp [Dict.keys, distroMods])] at hmod
  simpa [distroMods] using hmod

theorem mem_of_distroMods {h : Host} {name : String} (hmod : ((distroMods h).lookup name).isSome) :
    name ∈ ["br", "fedora", "ubuntu", "bare"] := by
  obtain ⟨distMod, hmod⟩ := Option.isSome_iff_exists.mp hmod
  rcases distroMods_cases hmod with ⟨rfl, -⟩ | ⟨rfl, -⟩ | ⟨rfl, -⟩ | ⟨rfl, -⟩ <;> simp

/-! ### Buildroot -/

theorem br.hashOpts_of_configs {opts : DistroOpts} (hopts : opts.configs.isSome = true) :
    ∃ id, br.hashOpts h opts = some id := by
  unfold br.hashOpts
  split
  · next hnone _ => simp [hnone] at hopts
  · exact ⟨_, rfl⟩

theorem br.digest_of_hashOpts {opts : DistroOpts} (hid : br.hashOpts h opts = some id) :
    ∃ s, id = String.ofList ((h.hexdigest s).toList.take 4) := by
  unfold br.hashOpts at hid
  split at hid
  · cases hid
  · exact ⟨_, (Option.some.inj hid).symm⟩

theorem br.length_of_hashOpts {opts : DistroOpts} (hhex : ∀ s, 4 ≤ (h.hexdigest s).length)
    (hid : br.hashOpts h opts = some id) : id.length = 4 := by
  obtain ⟨s, rfl⟩ := br.digest_of_hashOpts hid
  simp [String.length_toList, hhex]

theorem br.configs_of_mergeOpts {base new v : DistroOpts} (hv : br.mergeOpts base new = .ok v) :
    v.configs.isSome = true := by
  unfold br.mergeOpts at hv
  split at hv
  · cases hv
    rfl
  · cases hv
  · cases hv
  · cases hv

theorem hashOpts_distroMods {name : String} {distMod : DistroModule DistroOpts} {opts : DistroOpts}
    (hmod : (distroMods h).lookup name = some distMod) (hid : distMod.hashOpts opts = some id) :
    name = "br" ∧ br.hashOpts h opts = some id := by
  rcases distroMods_cases hmod with ⟨rfl, rfl⟩ | ⟨rfl, rfl⟩ | ⟨rfl, rfl⟩ | ⟨rfl, rfl⟩
  · exact ⟨rfl, hid⟩
  · cases hid
  · cases hid
  · cases hid

def fragmentCount (opts : DistroOpts) : Nat := (opts.configs.getD []).length

theorem fragmentCount_mergeOpts {base new v : DistroOpts} (h : br.mergeOpts base new = .ok v) :
    fragmentCount v = fragmentCount base + fragmentCount new := by
  unfold br.mergeOpts at h
  split at h
  · next hb hn _ _ =>
    cases h
    simp [fragmentCount, hb, hn]
  · cases h
  · cases h
  · cases h

def sampleHost : Host where
  read path := path
  gitStatus := "clean"
  hexdigest s := s.length.repr ++ "abcd"
  str env := env.keys.foldl (· ++ ·) ""
  brDir := "br"
  fedDir := "fedora"
  ubuntuDir := "ubuntu"
  imageDir := "images"

def sampleMarshal : Marshal DistroOpts := ⟨distroMods sampleHost, "images"⟩

end FireMarshal
