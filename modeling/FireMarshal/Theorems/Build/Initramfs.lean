import FireMarshal.Build.Initramfs
import Mathlib.Data.List.Nodup

/-! The initramfs as the concatenation of archives. The archives are named by the last component of their source, beside
    the result: it is right for all archives exactly if these names are distinct from each other and from the others in
    use. -/

namespace FireMarshal.Initramfs

variable {env : Env} {cpioDir initramfsDir fuel : Nat} {srcs : List Source} {files : Files} {file final : File}
  {includeDevNodes : Bool} {written out : List Bytes} {cpios : List File}

/-- Whatever the archives are, `makeInitramfs` ends, and its result is their concatenation in order, with the device
    nodes at the end if they are asked for. -/
def Concatenates (initramfsDir : Nat) (srcs : List Source) (cpioDir : Nat) (includeDevNodes : Bool) : Prop :=
  ∀ (env : Env) (files : Files) (dev : Bytes),
    (includeDevNodes = true → files (devNodes initramfsDir) = some dev) →
    ∃ fuel out, makeInitramfs env initramfsDir srcs cpioDir includeDevNodes files fuel = some (.ok out) ∧
      out (finalPath cpioDir) =
        some (srcs.flatMap (fun src => env.toCpio src.dir) ++ if includeDevNodes then dev else [])

/-- No archive takes the name of another, of the result, or of the device nodes. -/
structure Apart (initramfsDir : Nat) (srcs : List Source) (cpioDir : Nat) (includeDevNodes : Bool) : Prop where
  names : (srcs.map Source.name).Nodup
  final : "initramfs" ∉ srcs.map Source.name
  devNodes : includeDevNodes = true → cpioDir = initramfsDir → "devNodes" ∉ srcs.map Source.name

/-! ### Names -/

theorem cpio_inj {s t : Source} : s.cpio cpioDir = t.cpio cpioDir ↔ s.name = t.name := by
  rw [Source.cpio, Source.cpio, Prod.mk.injEq, and_iff_right rfl]
  constructor
  · intro h
    have hlist := congrArg String.toList h
    rw [String.toList_append, String.toList_append, List.append_left_inj] at hlist
    exact String.toList_inj.mp hlist
  · intro h
    rw [h]

theorem cpio_eq_final {s : Source} : s.cpio cpioDir = finalPath cpioDir ↔ s.name = "initramfs" :=
  cpio_inj (t := ⟨0, "initramfs"⟩)

theorem cpio_eq_devNodes {s : Source} :
    s.cpio cpioDir = devNodes initramfsDir ↔ cpioDir = initramfsDir ∧ s.name = "devNodes" := by
  constructor
  · intro h
    obtain rfl : cpioDir = initramfsDir := congrArg Prod.fst h
    exact ⟨rfl, (cpio_inj (t := ⟨0, "devNodes"⟩)).mp h⟩
  · rintro ⟨rfl, h⟩
    exact (cpio_inj (t := ⟨0, "devNodes"⟩)).mpr h

theorem final_not_mem (h : "initramfs" ∉ srcs.map Source.name) : finalPath cpioDir ∉ srcs.map (·.cpio cpioDir) := by
  intro hmem
  obtain ⟨src, hsrc, heq⟩ := List.mem_map.mp hmem
  exact h (cpio_eq_final.mp heq ▸ List.mem_map_of_mem hsrc)

theorem devNodes_ne_final : devNodes initramfsDir ≠ finalPath cpioDir := by
  intro h
  have hname : "devNodes.cpio" = "initramfs.cpio" := congrArg Prod.snd h
  exact absurd hname (by decide)

theorem exists_name_again (h : ¬(srcs.map Source.name).Nodup) :
    ∃ before src after, srcs = before ++ src :: after ∧ src.name ∈ after.map Source.name := by
  induction srcs with
  | nil => exact absurd List.nodup_nil h
  | cons src srcs ih =>
    by_cases hsrc : src.name ∈ srcs.map Source.name
    · exact ⟨[], src, srcs, rfl, hsrc⟩
    · have hrest : ¬(srcs.map Source.name).Nodup := fun hnodup => h (List.nodup_cons.mpr ⟨hsrc, hnodup⟩)
      obtain ⟨before, t, after, rfl, ht⟩ := ih hrest
      exact ⟨src :: before, t, after, rfl, ht⟩

/-! ### The archives -/

theorem write_self (bytes : Bytes) : write files file bytes file = some bytes := Function.update_self ..

theorem writeCpios_of_not_mem (h : file ∉ srcs.map (·.cpio cpioDir)) :
    writeCpios env cpioDir srcs files file = files file := by
  induction srcs generalizing files with
  | nil => rfl
  | cons src srcs ih =>
    rw [List.map_cons, List.mem_cons, not_or] at h
    rw [writeCpios, ih h.2, write, remove, Function.update_of_ne h.1, Function.update_of_ne h.1]

theorem writeCpios_of_mem (env : Env) (files : Files) (h : file ∈ srcs.map (·.cpio cpioDir)) :
    ∃ src ∈ srcs, src.cpio cpioDir = file ∧ writeCpios env cpioDir srcs files file = some (env.toCpio src.dir) := by
  induction srcs generalizing files with
  | nil => simp at h
  | cons src srcs ih =>
    by_cases hlater : file ∈ srcs.map (·.cpio cpioDir)
    · obtain ⟨t, ht, hfile, hbytes⟩ := ih _ hlater
      exact ⟨t, List.mem_cons_of_mem _ ht, hfile, hbytes⟩
    · obtain rfl : file = src.cpio cpioDir := by
        rw [List.map_cons, List.mem_cons] at h
        exact h.resolve_right hlater
      refine ⟨src, List.mem_cons_self, rfl, ?_⟩
      rw [writeCpios, writeCpios_of_not_mem hlater, write_self]

theorem writeCpios_append (rest : List Source) :
    writeCpios env cpioDir (srcs ++ rest) files = writeCpios env cpioDir rest (writeCpios env cpioDir srcs files) := by
  induction srcs generalizing files with
  | nil => rfl
  | cons src srcs ih => exact ih

/-! ### The result -/

theorem copyCpios_append {contents : List Bytes} (hfinal : final ∉ cpios)
    (hcontents : cpios.map files = contents.map some) (rest : List File) :
    copyCpios env files final fuel (cpios ++ rest) written =
      copyCpios env files final fuel rest (written ++ contents) := by
  induction cpios generalizing written contents with
  | nil =>
    obtain rfl : contents = [] := by simpa using hcontents.symm
    rw [List.nil_append, List.append_nil]
  | cons cpio cpios ih =>
    cases contents with
    | nil => simp at hcontents
    | cons bytes contents =>
      rw [List.mem_cons, not_or] at hfinal
      rw [List.map_cons, List.map_cons, List.cons.injEq] at hcontents
      rw [List.cons_append, copyCpios, if_neg (Ne.symm hfinal.1), hcontents.1]
      simp only
      rw [ih hfinal.2 hcontents.2, List.append_assoc, List.singleton_append]

theorem copyCpios_of_contents {contents : List Bytes} (hfinal : final ∉ cpios)
    (hcontents : cpios.map files = contents.map some) :
    copyCpios env files final fuel cpios written = some (.ok (written ++ contents)) := by
  rw [← List.append_nil cpios, copyCpios_append hfinal hcontents, copyCpios]

theorem copyCpios_empty (hempty : ∀ cpio ∈ cpios, cpio ≠ final → ∀ bytes, files cpio = some bytes → bytes = [])
    (hwritten : written.flatten = []) (h : copyCpios env files final fuel cpios written = some (.ok out)) :
    out.flatten = [] := by
  induction cpios generalizing written with
  | nil =>
    cases h
    exact hwritten
  | cons cpio cpios ih =>
    obtain ⟨hfirst, hrest⟩ := List.forall_mem_cons.mp hempty
    rw [copyCpios] at h
    split at h
    · -- There is nothing on disk to read back.
      cases fuel with
      | zero => cases h
      | succ fuel =>
        simp only [copySelf, hwritten, List.take_nil, List.drop_nil, if_true] at h
        exact ih hrest hwritten h
    · next hne =>
      split at h
      · cases h
      · next bytes hbytes =>
        refine ih hrest ?_ h
        rw [List.flatten_append, hwritten, hfirst hne bytes hbytes]
        rfl

def staged (env : Env) (srcs : List Source) (cpioDir : Nat) (files : Files) : Files :=
  write (remove (writeCpios env cpioDir srcs files) (finalPath cpioDir)) (finalPath cpioDir) []

theorem staged_of_ne (h : file ≠ finalPath cpioDir) :
    staged env srcs cpioDir files file = writeCpios env cpioDir srcs files file := by
  rw [staged, write, remove, Function.update_of_ne h, Function.update_of_ne h]

def archives (initramfsDir : Nat) (srcs : List Source) (cpioDir : Nat) (includeDevNodes : Bool) : List File :=
  srcs.map (·.cpio cpioDir) ++ if includeDevNodes then [devNodes initramfsDir] else []

theorem makeInitramfs_eq :
    makeInitramfs env initramfsDir srcs cpioDir includeDevNodes files fuel =
      (copyCpios env (staged env srcs cpioDir files) (finalPath cpioDir) fuel
        (archives initramfsDir srcs cpioDir includeDevNodes) []).map
        (·.map fun written => write (staged env srcs cpioDir files) (finalPath cpioDir) written.flatten) := rfl

theorem staged_cpios {part : List Source} (hpart : ∀ src ∈ part, src ∈ srcs) (hnames : (srcs.map Source.name).Nodup)
    (hfinal : "initramfs" ∉ part.map Source.name) :
    (part.map (·.cpio cpioDir)).map (staged env srcs cpioDir files) =
      (part.map fun src => env.toCpio src.dir).map some := by
  rw [List.map_map, List.map_map]
  refine List.map_congr_left fun src hsrc => ?_
  have hne : src.cpio cpioDir ≠ finalPath cpioDir := by
    intro heq
    exact hfinal (cpio_eq_final.mp heq ▸ List.mem_map_of_mem hsrc)
  obtain ⟨t, ht, hfile, hbytes⟩ := writeCpios_of_mem env files (List.mem_map_of_mem (hpart src hsrc))
  obtain rfl : t = src := List.inj_on_of_nodup_map hnames ht (hpart src hsrc) (cpio_inj.mp hfile)
  exact (staged_of_ne hne).trans hbytes

theorem concatenates_of_apart (h : Apart initramfsDir srcs cpioDir includeDevNodes) :
    Concatenates initramfsDir srcs cpioDir includeDevNodes := by
  intro env files dev hdev
  have hfinal : finalPath cpioDir ∉ archives initramfsDir srcs cpioDir includeDevNodes := by
    rw [archives, List.mem_append, not_or]
    constructor
    · exact final_not_mem h.final
    · split
      · rw [List.mem_singleton]
        exact devNodes_ne_final.symm
      · exact List.not_mem_nil
  have hcontents : (archives initramfsDir srcs cpioDir includeDevNodes).map (staged env srcs cpioDir files) =
      ((srcs.map fun src => env.toCpio src.dir) ++ if includeDevNodes then [dev] else []).map some := by
    rw [archives, List.map_append, List.map_append, staged_cpios (fun _ => id) h.names h.final]
    split
    · next hinclude =>
      have hkept : devNodes initramfsDir ∉ srcs.map (·.cpio cpioDir) := by
        intro hmem
        obtain ⟨src, hsrc, heq⟩ := List.mem_map.mp hmem
        obtain ⟨hdir, hname⟩ := cpio_eq_devNodes.mp heq
        exact h.devNodes hinclude hdir (hname ▸ List.mem_map_of_mem hsrc)
      rw [List.map_singleton, staged_of_ne devNodes_ne_final, writeCpios_of_not_mem hkept, hdev hinclude]
      rfl
    · rfl
  refine ⟨0, _, by rw [makeInitramfs_eq, copyCpios_of_contents hfinal hcontents]; rfl, ?_⟩
  refine (write_self _).trans ?_
  rw [List.nil_append, List.flatten_append, ← List.flatMap_def]
  cases includeDevNodes <;> simp

theorem not_concatenates_of_empty (env : Env) (files : Files) (dev : Bytes)
    (hdev : includeDevNodes = true → files (devNodes initramfsDir) = some dev)
    (hempty : ∀ file bytes, file ≠ finalPath cpioDir → file ∈ archives initramfsDir srcs cpioDir includeDevNodes →
      writeCpios env cpioDir srcs files file = some bytes → bytes = [])
    (hlost : (srcs.flatMap fun src => env.toCpio src.dir) ++ (if includeDevNodes then dev else []) ≠ []) :
    ¬Concatenates initramfsDir srcs cpioDir includeDevNodes := by
  intro h
  obtain ⟨fuel, out, hrun, hout⟩ := h env files dev hdev
  rw [makeInitramfs_eq, Option.map_eq_some_iff] at hrun
  obtain ⟨result, hcopy, hresult⟩ := hrun
  cases result with
  | error => cases hresult
  | ok written =>
    have hnil : written.flatten = [] := by
      refine copyCpios_empty (fun cpio hmem hne bytes hbytes => ?_) rfl hcopy
      rw [staged_of_ne hne] at hbytes
      exact hempty cpio bytes hne hmem hbytes
    cases hresult
    have hself := (write_self _).symm.trans hout
    rw [hnil] at hself
    exact hlost (Option.some.inj hself).symm

def onlyOf (src : Source) : Env where
  toCpio dir := if dir = src.dir then [1] else []
  onDisk _ := 0

theorem onlyOf_ne {src t : Source} (hdirs : (srcs.map Source.dir).Nodup) (hsrc : src ∈ srcs) (ht : t ∈ srcs)
    (hne : t ≠ src) : (onlyOf src).toCpio t.dir = [] := by
  refine if_neg fun heq => hne ?_
  exact List.inj_on_of_nodup_map hdirs ht hsrc heq

theorem flatMap_onlyOf {src : Source} (hsrc : src ∈ srcs) (rest : Bytes) :
    (srcs.flatMap fun t => (onlyOf src).toCpio t.dir) ++ rest ≠ [] := by
  have hmem : (1 : UInt8) ∈ srcs.flatMap fun t => (onlyOf src).toCpio t.dir :=
    List.mem_flatMap.mpr ⟨src, hsrc, by simp [onlyOf]⟩
  exact List.append_ne_nil_of_left_ne_nil (List.ne_nil_of_mem hmem) _

theorem not_concatenates_of_lost {src : Source} (hdirs : (srcs.map Source.dir).Nodup) (hsrc : src ∈ srcs)
    (hlost : ∀ file, file ≠ finalPath cpioDir → file ∈ srcs.map (·.cpio cpioDir) → ∃ t ∈ srcs, t ≠ src ∧
      writeCpios (onlyOf src) cpioDir srcs (fun _ => some []) file = some ((onlyOf src).toCpio t.dir)) :
    ¬Concatenates initramfsDir srcs cpioDir includeDevNodes := by
  refine not_concatenates_of_empty (onlyOf src) (fun _ => some []) [] (fun _ => rfl) ?_ (flatMap_onlyOf hsrc _)
  intro file bytes hne _ hbytes
  by_cases hmem : file ∈ srcs.map (·.cpio cpioDir)
  · obtain ⟨t, ht, hother, hwritten⟩ := hlost file hne hmem
    rw [hbytes, onlyOf_ne hdirs hsrc ht hother] at hwritten
    exact Option.some.inj hwritten
  · rw [writeCpios_of_not_mem hmem] at hbytes
    exact (Option.some.inj hbytes).symm

theorem nodup_of_concatenates (hdirs : (srcs.map Source.dir).Nodup)
    (h : Concatenates initramfsDir srcs cpioDir includeDevNodes) : (srcs.map Source.name).Nodup := by
  by_contra hdup
  obtain ⟨before, src, after, rfl, hname⟩ := exists_name_again hdup
  have hsrc : src ∈ before ++ src :: after := List.mem_append_right _ List.mem_cons_self
  refine not_concatenates_of_lost hdirs hsrc (fun file _ hmem => ?_) h
  by_cases hafter : file ∈ after.map (·.cpio cpioDir)
  · -- The last archive of the name is written after that of `src`, and stays.
    obtain ⟨t, ht, -, hwritten⟩ := writeCpios_of_mem (onlyOf src) _ hafter
    refine ⟨t, List.mem_append_right _ (List.mem_cons_of_mem _ ht), ?_, ?_⟩
    · rintro rfl
      exact absurd ht (List.nodup_cons.mp (List.Nodup.of_map _ hdirs).of_append_right).1
    · rw [List.append_cons, writeCpios_append]
      exact hwritten
  · obtain ⟨t, ht, hfile, hwritten⟩ := writeCpios_of_mem (onlyOf src) (fun _ => some []) hmem
    refine ⟨t, ht, ?_, hwritten⟩
    rintro rfl
    obtain ⟨u, hu, hsame⟩ := List.mem_map.mp hname
    exact hafter (hfile ▸ List.mem_map.mpr ⟨u, hu, cpio_inj.mpr hsame⟩)

theorem final_of_concatenates (hdirs : (srcs.map Source.dir).Nodup)
    (h : Concatenates initramfsDir srcs cpioDir includeDevNodes) : "initramfs" ∉ srcs.map Source.name := by
  intro hname
  obtain ⟨src, hsrc, hinitramfs⟩ := List.mem_map.mp hname
  refine not_concatenates_of_lost hdirs hsrc (fun file hne hmem => ?_) h
  obtain ⟨t, ht, hfile, hwritten⟩ := writeCpios_of_mem (onlyOf src) (fun _ => some []) hmem
  refine ⟨t, ht, ?_, hwritten⟩
  rintro rfl
  exact hne (hfile ▸ cpio_eq_final.mpr hinitramfs)

theorem devNodes_of_concatenates (h : Concatenates initramfsDir srcs cpioDir true) (hdir : cpioDir = initramfsDir) :
    "devNodes" ∉ srcs.map Source.name := by
  intro hname
  obtain ⟨src, hsrc, hdevNodes⟩ := List.mem_map.mp hname
  -- All archives are empty, and the device nodes would not be.
  have hover : devNodes initramfsDir ∈ srcs.map (·.cpio cpioDir) :=
    cpio_eq_devNodes.mpr ⟨hdir, hdevNodes⟩ ▸ List.mem_map_of_mem hsrc
  refine not_concatenates_of_empty ⟨fun _ => [], fun _ => 0⟩ (fun _ => some [1]) [1] (fun _ => rfl) ?_ ?_ h
  · intro file bytes _ hmem hbytes
    have hwrite : file ∈ srcs.map (·.cpio cpioDir) := by
      rw [archives, if_pos rfl, List.mem_append, List.mem_singleton] at hmem
      exact hmem.elim id (fun heq => heq ▸ hover)
    obtain ⟨t, -, -, hwritten⟩ := writeCpios_of_mem ⟨fun _ => [], fun _ => 0⟩ (fun _ => some [1]) hwrite
    rw [hbytes] at hwritten
    exact Option.some.inj hwritten
  · exact List.append_ne_nil_of_right_ne_nil _ (List.cons_ne_nil _ _)

theorem concatenates_iff_apart (hdirs : (srcs.map Source.dir).Nodup) :
    Concatenates initramfsDir srcs cpioDir includeDevNodes ↔ Apart initramfsDir srcs cpioDir includeDevNodes := by
  constructor
  · intro h
    refine ⟨nodup_of_concatenates hdirs h, final_of_concatenates hdirs h, ?_⟩
    rintro rfl hdir
    exact devNodes_of_concatenates h hdir
  · exact concatenates_of_apart

def sampleDirs (mountDir : String) : Dirs := ⟨⟨1, mountDir⟩, 2, 3, 4⟩

theorem concatenates_disk_mount : Apart 0 (initramfsIncludes (sampleDirs "disk-mount") true) 5 true ∧
    Concatenates 0 (initramfsIncludes (sampleDirs "disk-mount") true) 5 true := by
  have h : Apart 0 (initramfsIncludes (sampleDirs "disk-mount") true) 5 true := by
    constructor <;> decide
  exact ⟨h, (concatenates_iff_apart (by decide)).mpr h⟩

/-- With a 'mount-dir' named as the drivers, the initramfs has the drivers twice and no files of the workload. -/
theorem mount_dir_lost : ((initramfsIncludes (sampleDirs "drivers") true).map Source.dir).Nodup ∧
    (makeInitramfs ⟨fun dir => [UInt8.ofNat dir], fun _ => 0⟩ 0 (initramfsIncludes (sampleDirs "drivers") true) 5 true
      (fun _ => some [0]) 1).map (·.toOption.bind (· (finalPath 5))) = some (some [2, 2, 3, 0]) ∧
    ¬Concatenates 0 (initramfsIncludes (sampleDirs "drivers") true) 5 true := by
  refine ⟨by decide, by decide, fun h => ?_⟩
  exact absurd (nodup_of_concatenates (by decide) h) (by decide)

end FireMarshal.Initramfs
