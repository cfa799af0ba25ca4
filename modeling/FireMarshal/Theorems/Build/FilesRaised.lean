import FireMarshal.Theorems.Build.Files

/-! Permissions of directories when `copyImgFiles` raises an exception. A failed copy leaves them as they were, but only
    the copy is inside the `try`: a directory that cannot be opened leaves those before it open, and one that cannot be
    put back leaves those after it open. -/

namespace FireMarshal

open Raising SaveRestore

variable {chmod : Nat → ChmodResult} {env : FilesEnv} {direction : Direction} {f : FileSpec} {files : List FileSpec}
  {dirs pre : List PurePath} {p : PurePath} {fs after : FileSystem} {i n : Nat}

/-! ### How far the loops come -/

section
variable (chmod : Nat → ChmodResult) (fs : FileSystem) (n : Nat) (before : List PurePath) (p : PurePath)

/-- A directory can be opened after those before it: it exists, and `os.chmod` does not raise. A call without effect
    shows only if the directory was not open to everyone, and is none of those before it by another path. -/
def Opens : Prop :=
  ∃ dir, fs.lookup p = some dir ∧ chmod (n + before.length) ≠ .raised ∧
    (chmod (n + before.length) = .ignored → fs.perms dir = 0o777 ∨ dir ∈ fs.inodes before)

/-- It can be put back after those before it, once `cp` has left `after`: it is still there, and `os.chmod` does not
    raise. A call without effect shows only if the permissions are not those that were saved. By a second path a
    directory was saved as open to everyone, and by then it has its own permissions back. -/
def Closes (after : FileSystem) : Prop :=
  ∃ dir, after.lookup p = some dir ∧ chmod (n + before.length) ≠ .raised ∧
    (chmod (n + before.length) = .ignored →
      match (fs.inodes before).count dir with
      | 0 => after.perms dir = fs.perms dir
      | 1 => fs.perms dir = 0o777
      | _ => True)

end

theorem perms_afterChmod (fs : FileSystem) {result : ChmodResult} (dir : Nat) {perms : Nat} (hlt : perms < 0o1000)
    (hraised : result ≠ .raised) :
    (fs.afterChmod result dir perms).perms dir = perms ↔ (result = .ignored → fs.perms dir = perms) := by
  cases result with
  | done => simp [FileSystem.afterChmod, perms_chmod fs dir hlt]
  | ignored => simp [FileSystem.afterChmod]
  | raised => exact absurd rfl hraised

theorem relax_none_iff {s : Relaxing} :
    (∃ t, relax chmod p s = (t, none)) ↔ ∃ dir, s.fs.lookup p = some dir ∧ s.oldPerms.hasKey p = false ∧
      chmod s.chmods ≠ .raised ∧ (chmod s.chmods = .ignored → s.fs.perms dir = relaxedPerms) := by
  unfold relax
  cases hdir : s.fs.lookup p with
  | none => simp
  | some dir =>
    by_cases hkey : s.oldPerms.hasKey p = true
    · simp [hkey]
    by_cases hraised : chmod s.chmods = .raised
    · simp [hkey, hraised]
    have hperms := perms_afterChmod s.fs dir (by decide : relaxedPerms < 0o1000) hraised
    by_cases hset : (s.fs.afterChmod (chmod s.chmods) dir relaxedPerms).perms dir = relaxedPerms
    · simpa [hkey, hraised, hset] using hperms.mp hset
    · simpa [hkey, hraised, hset] using mt hperms.mpr hset

theorem restore_none_iff {oldPerms : Dict PurePath Nat} {s : Restoring} {perms : Nat}
    (hsaved : oldPerms.lookup p = some perms) (hlt : perms < 0o1000) :
    (∃ t, restore chmod oldPerms p s = (t, none)) ↔ ∃ dir, s.fs.lookup p = some dir ∧ chmod s.chmods ≠ .raised ∧
      (chmod s.chmods = .ignored → s.fs.perms dir = perms) := by
  unfold restore
  rw [hsaved]
  cases hdir : s.fs.lookup p with
  | none => simp
  | some dir =>
    by_cases hraised : chmod s.chmods = .raised
    · simp [hraised]
    have hperms := perms_afterChmod s.fs dir hlt hraised
    by_cases hset : (s.fs.afterChmod (chmod s.chmods) dir perms).perms dir = perms
    · simpa [hraised, hset] using hperms.mp hset
    · simpa [hraised, hset] using mt hperms.mpr hset

theorem relax_opens (hdirs : dirs.Nodup) {u : Relaxing} (hpre : pre ++ [p] <+: dirs)
    (hu : each (relax chmod) pre { fs, chmods := n } = (u, none)) :
    (∃ v, relax chmod p u = (v, none)) ↔ Opens chmod fs n pre p := by
  have hopened := each_relax (tracks_perms chmod) hu
  have hkeys : u.oldPerms.keys = pre := by
    have hlength : pre.length = (fs.inodes pre).length := by simpa using congrArg List.length hopened.found
    rw [hopened.saved, List.nil_append, Dict.keys, List.map_fst_zip (by rw [length_saves, hlength])]
  have hnew : u.oldPerms.hasKey p = false := by
    have hp : p ∉ pre := by
      have hnodup := hdirs.sublist hpre.sublist
      rw [List.nodup_append] at hnodup
      exact fun hmem => hnodup.2.2 p hmem p (List.mem_singleton_self p) rfl
    rw [← hkeys, Dict.mem_keys_iff] at hp
    simpa using hp
  have hperms : ∀ dir, u.fs.perms dir = relaxedPerms ↔ fs.perms dir = 0o777 ∨ dir ∈ fs.inodes pre := by
    intro dir
    rw [hopened.opened]
    by_cases hmem : dir ∈ fs.inodes pre
    · simp [overwrite_of_mem hmem, hmem]
    · simp [overwrite_of_not_mem hmem, hmem, relaxedPerms]
  rw [relax_none_iff, hopened.lookup, hopened.chmods]
  simp only [hnew, hperms, true_and]
  rfl

theorem Relaxed.saved_last (hdirs : dirs.Nodup) {r : Relaxing} {m : Nat}
    (h : Relaxed FileSystem.perms dirs { fs, chmods := m } r) (hpre : pre ++ [p] <+: dirs) :
    ∃ dir, fs.lookup p = some dir ∧
      r.oldPerms.lookup p = some (if dir ∈ fs.inodes pre then relaxedPerms else fs.perms dir) := by
  obtain ⟨dir, hdir⟩ : ∃ dir, fs.lookup p = some dir := by
    have hmem : fs.lookup p ∈ dirs.map fs.lookup := List.mem_map_of_mem (hpre.subset (by simp))
    rw [h.found] at hmem
    obtain ⟨dir, -, hdir⟩ := List.mem_map.mp hmem
    exact ⟨dir, hdir.symm⟩
  have hentries := h.entries hdirs (fun _ _ => .inl rfl) hpre
  have hinodes : fs.inodes (pre ++ [p]) = fs.inodes pre ++ [dir] := by
    rw [FileSystem.inodes, List.filterMap_append, List.filterMap_cons_some hdir]
    rfl
  rw [FileSystem.entries, hinodes, saves_append_singleton, List.zip_append (length_saves ..).symm,
    ← List.forall₂_reverse_iff] at hentries
  simp only [List.reverse_append, List.zip_cons_cons, List.zip_nil_right, List.reverse_cons, List.reverse_nil,
    List.nil_append, List.singleton_append, List.forall₂_cons] at hentries
  obtain ⟨⟨hsaved, -⟩, -⟩ := hentries
  refine ⟨dir, hdir, hsaved.trans (congrArg some ?_)⟩
  by_cases hmem : dir ∈ fs.inodes pre
  · simp only [overwrite_of_mem hmem, hmem, if_true]
    rfl
  · simp only [overwrite_of_not_mem hmem, hmem, if_false]
    exact Nat.mod_mod _ _

theorem restore_closes (hdirs : dirs.Nodup) {r : Relaxing} {u : Restoring} {m : Nat}
    (hrelaxed : Relaxed FileSystem.perms dirs { fs, chmods := m } r)
    (hlookup : ∀ p ∈ dirs, after.lookup p = fs.lookup p ∨ after.lookup p = none) (hpre : pre ++ [p] <+: dirs)
    (hu : each (restore chmod r.oldPerms) pre { fs := after, chmods := n } = (u, none)) :
    (∃ v, restore chmod r.oldPerms p u = (v, none)) ↔ Closes chmod fs n pre p after := by
  obtain ⟨hsame, hchmods, hperms⟩ := val_of_restored (tracks_perms chmod) hdirs hrelaxed hlookup
    ((List.prefix_append pre [p]).trans hpre) hu
  obtain ⟨dir, hdir, hsaved⟩ := hrelaxed.saved_last hdirs hpre
  have hlt : (if dir ∈ fs.inodes pre then relaxedPerms else fs.perms dir) < 0o1000 := by
    split
    · decide
    · exact perms_lt fs dir
  rw [restore_none_iff hsaved hlt, hsame, hchmods]
  refine exists_congr fun dir' => and_congr_right fun hdir' => and_congr_right fun _ => imp_congr_right fun _ => ?_
  -- The path leads where it led before the copy.
  obtain rfl : dir' = dir := by
    rcases hlookup p (hpre.subset (by simp)) with hled | hled
    · exact Option.some.inj (hdir'.symm.trans (hled.trans hdir))
    · rw [hdir'] at hled
      cases hled
  rw [hperms]
  match hcount : (fs.inodes pre).count dir' with
  | 0 => simp [List.count_eq_zero.mp hcount]
  | 1 =>
    have hmem : dir' ∈ fs.inodes pre := List.count_pos_iff.mp (by omega)
    simp [hmem, settled, relaxedPerms, Nat.mod_eq_of_lt (perms_lt fs dir')]
  | k + 2 =>
    have hmem : dir' ∈ fs.inodes pre := List.count_pos_iff.mp (by omega)
    simp [hmem, settled, relaxedPerms]

theorem restore_stops (hdirs : dirs.Nodup) {r : Relaxing} {b : Restoring} {e : Option CopyError} {m : Nat}
    (hrelaxed : Relaxed FileSystem.perms dirs { fs, chmods := m } r)
    (hlookup : ∀ p ∈ dirs, after.lookup p = fs.lookup p ∨ after.lookup p = none)
    (h : each (restore chmod r.oldPerms) dirs { fs := after, chmods := n } = (b, e)) :
    ∃ pre u, pre <+: dirs ∧ each (restore chmod r.oldPerms) pre { fs := after, chmods := n } = (u, none) ∧ b.fs = u.fs ∧
      ∀ ys, ys <+: dirs → (InTurn (fun before p => Closes chmod fs n before p after) ys ↔ ys <+: pre) := by
  cases e with
  | none =>
    refine ⟨_, b, List.prefix_rfl, h, rfl, fun ys hys => ⟨fun _ => hys, fun _ => ?_⟩⟩
    exact ((each_inTurn fun _ _ _ => restore_closes hdirs hrelaxed hlookup).mp ⟨b, h⟩).pre hys
  | some e =>
    obtain ⟨pre, p, rest, u, rfl, hu, hp, hmax⟩ := each_stops h fun _ _ _ => restore_closes hdirs hrelaxed hlookup
    refine ⟨pre, u, List.prefix_append .., hu, restore_some (fun perms hperms => ?_) hp, hmax⟩
    obtain ⟨dir, -, hsaved⟩ := hrelaxed.saved_last hdirs (⟨rest, by simp⟩ : pre ++ [p] <+: pre ++ p :: rest)
    obtain rfl := Option.some.inj (hperms.symm.trans hsaved)
    split
    · decide
    · exact perms_lt _ _

/-! ### One file -/

section
variable (chmod : Nat → ChmodResult) (env : FilesEnv) (direction : Direction) (f : FileSpec) (s : CopyState) (i : Nat)

/-- `dirsToModify`; none if the path of the file is not below the root of the image. -/
def dirsFor : List PurePath :=
  match copyPaths env direction f with
  | .error _ => []
  | .ok paths => dirsToModify env direction paths s.fs

def leftByCp : FileSystem :=
  match copyPaths env direction f with
  | .error _ => s.fs
  | .ok paths =>
    let opened := (each (relax chmod) (dirsFor env direction f s) { fs := s.fs, chmods := s.chmods }).1.fs
    (env.cp paths.cpSrcResPath paths.cpDstResPath opened).1

/-- Directories that can be opened, or put back, one after the other from the first on. -/
def AllOpen (dirs : List PurePath) : Prop := InTurn (Opens chmod s.fs s.chmods) dirs

def AllClose (dirs : List PurePath) : Prop :=
  InTurn (fun before p => Closes chmod s.fs (s.chmods + (dirsFor env direction f s).length) before p
    (leftByCp chmod env direction f s)) dirs

/-- All directories can be opened, and up to some place they can be put back, with `i` among them just once. -/
structure PutBack : Prop where
  opened : AllOpen chmod s (dirsFor env direction f s)
  back : ∃ pre, pre <+: dirsFor env direction f s ∧ AllClose chmod env direction f s pre ∧ i ∈ s.fs.inodes pre
  once : ∀ pre, pre <+: dirsFor env direction f s → AllClose chmod env direction f s pre →
    (s.fs.inodes pre).count i ≤ 1

/-- If `i` is opened, it is put back. -/
def Restored : Prop :=
  ∀ pre, pre <+: dirsFor env direction f s → AllOpen chmod s pre → i ∈ s.fs.inodes pre →
    PutBack chmod env direction f s i

/-- The copy, if it is made, leaves the paths that were used leading where they led, or removes them; and it leaves the
    permissions of `i` alone, unless they are put back. -/
structure Frames : Prop where
  lookup : ∀ p ∈ dirsFor env direction f s, (leftByCp chmod env direction f s).lookup p = s.fs.lookup p ∨
    (leftByCp chmod env direction f s).lookup p = none
  perms : (∀ pre, pre <+: dirsFor env direction f s → AllClose chmod env direction f s pre → i ∉ s.fs.inodes pre) →
    (leftByCp chmod env direction f s).perms i =
      if i ∈ s.fs.inodes (dirsFor env direction f s) then 0o777 else s.fs.perms i

end

theorem nodup_dirsFor (env : FilesEnv) (direction : Direction) (f : FileSpec) (s : CopyState) :
    (dirsFor env direction f s).Nodup := by
  unfold dirsFor
  split
  · exact List.nodup_nil
  · exact nodup_dirsToModify ..

theorem count_inodes_le {xs ys : List PurePath} (h : xs <+: ys) (fs : FileSystem) (i : Nat) :
    (fs.inodes xs).count i ≤ (fs.inodes ys).count i := (h.filterMap fs.lookup).sublist.count_le i

/-- What becomes of the permissions of `i`, in terms of how often it is opened and put back. -/
structure CopyRound (chmod : Nat → ChmodResult) (env : FilesEnv) (direction : Direction) (f : FileSpec) (s t : CopyState)
    (i : Nat) (r : Nat × Nat) : Prop where
  back : r.2 ≤ r.1
  perms : t.fs.perms i = halfSettled lowBits relaxedPerms r.1 r.2 (s.fs.perms i)
  restored : (r.1 ≠ 0 → r.2 = 1) ↔ Restored chmod env direction f s i

theorem perms_of_relaxed {r : Relaxing} (h : each (relax chmod) pre { fs, chmods := n } = (r, none)) :
    r.fs.perms i = halfSettled lowBits relaxedPerms ((fs.inodes pre).count i) 0 (fs.perms i) := by
  rw [(each_relax (tracks_perms chmod) h).opened, halfSettled, if_pos rfl]
  split
  · next hzero => exact overwrite_of_not_mem (List.count_eq_zero.mp hzero) _
  · next hpos => exact overwrite_of_mem (List.count_pos_iff.mp (Nat.pos_of_ne_zero hpos)) _

theorem round_of_relax_some {s t : CopyState} {r : Relaxing} {e : CopyError}
    (h : each (relax chmod) (dirsFor env direction f s) { fs := s.fs, chmods := s.chmods } = (r, some e))
    (ht : t.fs = r.fs) : ∃ x, CopyRound chmod env direction f s t i x := by
  obtain ⟨pre, p, rest, u, hdirs, hu, hp, hmax⟩ :=
    each_stops h fun _ _ _ => relax_opens (nodup_dirsFor env direction f s)
  refine ⟨((s.fs.inodes pre).count i, 0), Nat.zero_le _, ?_, ?_⟩
  · rw [ht, relax_some hp, perms_of_relaxed hu]
  · constructor
    · intro hzero pre' hpre' hopen hmem
      have hle := count_inodes_le ((hmax pre' hpre').mp hopen) s.fs i
      have hpos := List.count_pos_iff.mpr hmem
      exact absurd (hzero (by omega)) Nat.zero_ne_one
    · intro hkept hpos
      have hpre : pre <+: dirsFor env direction f s := hdirs ▸ List.prefix_append ..
      have hback := hkept pre hpre ((hmax pre hpre).mpr List.prefix_rfl) (List.count_pos_iff.mp (Nat.pos_of_ne_zero hpos))
      have hlong := ((hmax _ List.prefix_rfl).mp hback.opened).length_le
      rw [hdirs, List.length_append, List.length_cons] at hlong
      omega

theorem round_of_relax_none {s t : CopyState} {r : Relaxing} {b : Restoring} {e : Option CopyError}
    (hr : each (relax chmod) (dirsFor env direction f s) { fs := s.fs, chmods := s.chmods } = (r, none))
    (hframes : Frames chmod env direction f s i)
    (hb : each (restore chmod r.oldPerms) (dirsFor env direction f s)
      { fs := leftByCp chmod env direction f s, chmods := r.chmods } = (b, e))
    (ht : t.fs = b.fs) : ∃ x, CopyRound chmod env direction f s t i x := by
  have hnodup := nodup_dirsFor env direction f s
  have hrelaxed := each_relax (tracks_perms chmod) hr
  have hopened : AllOpen chmod s (dirsFor env direction f s) :=
    (each_inTurn fun _ _ _ => relax_opens hnodup).mp ⟨r, hr⟩
  rw [hrelaxed.chmods] at hb
  obtain ⟨pre, u, hpre, hu, hfs, hmax⟩ := restore_stops hnodup hrelaxed hframes.lookup hb
  obtain ⟨-, -, hperms⟩ := val_of_restored (tracks_perms chmod) hnodup hrelaxed hframes.lookup hpre hu
  have hle := count_inodes_le hpre s.fs i
  refine ⟨((s.fs.inodes (dirsFor env direction f s)).count i, (s.fs.inodes pre).count i), hle, ?_, ?_⟩
  · rw [ht, hfs, hperms]
    refine halfSettled_of_back fun hzero => ?_
    have hnot : ∀ ys, ys <+: dirsFor env direction f s → AllClose chmod env direction f s ys → i ∉ s.fs.inodes ys := by
      intro ys hys hclose hmem
      have hle' := count_inodes_le ((hmax ys hys).mp hclose) s.fs i
      have hpos := List.count_pos_iff.mpr hmem
      omega
    rw [hframes.perms hnot, halfSettled, if_pos rfl]
    by_cases hmem : i ∈ s.fs.inodes (dirsFor env direction f s)
    · rw [if_pos hmem, if_neg (Nat.ne_of_gt (List.count_pos_iff.mpr hmem))]
      rfl
    · rw [if_neg hmem, if_pos (List.count_eq_zero.mpr hmem)]
  · constructor
    · intro honce pre' hpre' _ hmem
      have hle' := count_inodes_le hpre' s.fs i
      have hpos := List.count_pos_iff.mpr hmem
      have hone : (s.fs.inodes pre).count i = 1 := honce (by simp only; omega)
      refine ⟨hopened, ⟨pre, hpre, (hmax pre hpre).mpr List.prefix_rfl, List.count_pos_iff.mp (by omega)⟩, ?_⟩
      intro ys hys hclose
      exact (count_inodes_le ((hmax ys hys).mp hclose) s.fs i).trans (Nat.le_of_eq hone)
    · intro hkept hpos
      have hback := hkept _ List.prefix_rfl hopened (List.count_pos_iff.mp (Nat.pos_of_ne_zero hpos))
      obtain ⟨ys, hys, hclose, hmem⟩ := hback.back
      have hle' := count_inodes_le ((hmax ys hys).mp hclose) s.fs i
      have hpos' := List.count_pos_iff.mpr hmem
      exact Nat.le_antisymm (hback.once pre hpre ((hmax pre hpre).mpr List.prefix_rfl)) (by omega)

theorem copyFile_round {s : CopyState}
    (hframes : AllOpen chmod s (dirsFor env direction f s) → Frames chmod env direction f s i) :
    ∃ x, CopyRound chmod env direction f s (copyFile chmod env direction f s).1 i x := by
  unfold copyFile
  split
  · next e hpaths =>
    have hnone : dirsFor env direction f s = [] := by rw [dirsFor, hpaths]
    refine ⟨(0, 0), Nat.le_refl 0, rfl, iff_of_true (absurd rfl) fun pre hpre _ hmem => ?_⟩
    rw [hnone, List.prefix_nil] at hpre
    subst hpre
    cases hmem
  · next paths hpaths =>
    have hdirs : dirsFor env direction f s = dirsToModify env direction paths s.fs := by rw [dirsFor, hpaths]
    simp only
    split
    · next r e hr => exact round_of_relax_some (hdirs ▸ hr) rfl
    · next r hr =>
      rw [← hdirs] at hr ⊢
      have hopened : AllOpen chmod s (dirsFor env direction f s) :=
        (each_inTurn fun _ _ _ => relax_opens (nodup_dirsFor env direction f s)).mp ⟨r, hr⟩
      have hleft : leftByCp chmod env direction f s = (env.cp paths.cpSrcResPath paths.cpDstResPath r.fs).1 := by
        simp only [leftByCp, hpaths, hr]
      refine round_of_relax_none hr (hframes hopened) (Prod.ext rfl rfl) ?_
      rw [hleft]

/-- Where every `os.chmod` takes effect, a directory that has one path is put back if the directories exist and the copy
    does not remove them, whether or not it fails. -/
theorem restored_of_done {s : CopyState} (hdone : ∀ n, chmod n = .done)
    (hfound : ∀ p ∈ dirsFor env direction f s, (s.fs.lookup p).isSome)
    (hleft : ∀ p ∈ dirsFor env direction f s, ((leftByCp chmod env direction f s).lookup p).isSome)
    (honce : (s.fs.inodes (dirsFor env direction f s)).count i ≤ 1) : Restored chmod env direction f s i := by
  intro pre hpre _ hmem
  refine ⟨inTurn_of_forall_mem fun p hp before => ?_, ⟨_, List.prefix_rfl, inTurn_of_forall_mem fun p hp before => ?_, ?_⟩,
    fun ys hys _ => (count_inodes_le hys s.fs i).trans honce⟩
  · obtain ⟨dir, hdir⟩ := Option.isSome_iff_exists.mp (hfound p hp)
    exact ⟨dir, hdir, by simp [hdone], by simp [hdone]⟩
  · obtain ⟨dir, hdir⟩ := Option.isSome_iff_exists.mp (hleft p hp)
    exact ⟨dir, hdir, by simp [hdone], by simp [hdone]⟩
  · exact (hpre.filterMap s.fs.lookup).subset hmem

/-! ### All files -/

def Reaches (chmod : Nat → ChmodResult) (env : FilesEnv) (direction : Direction) (files : List FileSpec) (s₀ : CopyState)
    (f : FileSpec) (s : CopyState) : Prop :=
  ∃ pre rest, files = pre ++ f :: rest ∧ copyImgFilesOn chmod env pre direction s₀ = (s, none)

theorem reaches_cons {g : FileSpec} {s t : CopyState} :
    Reaches chmod env direction (f :: files) s g t ↔
      (g = f ∧ t = s) ∨ ∃ u, copyFile chmod env direction f s = (u, none) ∧ Reaches chmod env direction files u g t := by
  constructor
  · rintro ⟨pre, rest, hsplit, hpre⟩
    cases pre with
    | nil =>
      cases hsplit
      cases hpre
      exact .inl ⟨rfl, rfl⟩
    | cons f' pre =>
      cases hsplit
      obtain ⟨u, hu, hpre⟩ := each_cons_none hpre
      exact .inr ⟨u, hu, pre, rest, rfl, hpre⟩
  · rintro (⟨rfl, rfl⟩ | ⟨u, hu, pre, rest, rfl, hpre⟩)
    · exact ⟨[], files, rfl, rfl⟩
    · exact ⟨f :: pre, rest, rfl, andThen_none.mpr ⟨u, hu, hpre⟩⟩

theorem copyImgFilesOn_rounds {s : CopyState}
    (hframes : ∀ f t, Reaches chmod env direction files s f t → AllOpen chmod t (dirsFor env direction f t) →
      Frames chmod env direction f t i) :
    ∃ rounds : List (Nat × Nat), (∀ r ∈ rounds, r.2 ≤ r.1) ∧
      (copyImgFilesOn chmod env files direction s).1.fs.perms i =
        halfSettle lowBits relaxedPerms rounds (s.fs.perms i) ∧
      ((∀ r ∈ rounds, r.1 ≠ 0 → r.2 = 1) ↔
        ∀ f t, Reaches chmod env direction files s f t → Restored chmod env direction f t i) := by
  induction files generalizing s with
  | nil =>
    refine ⟨[], by simp, rfl, iff_of_true (by simp) ?_⟩
    rintro f t ⟨pre, rest, hsplit, -⟩
    simp at hsplit
  | cons f files ih =>
    obtain ⟨x, hback, hperms, hkept⟩ := copyFile_round (hframes f s (reaches_cons.mpr (.inl ⟨rfl, rfl⟩)))
    cases hu : copyFile chmod env direction f s with
    | mk u e =>
      rw [hu] at hperms
      have hrun : copyImgFilesOn chmod env (f :: files) direction s =
          andThen (u, e) (copyImgFilesOn chmod env files direction) := congrArg (andThen · _) hu
      cases e with
      | some e =>
        -- The other files are not reached.
        refine ⟨[x], by simpa using hback, by rw [hrun, halfSettle_singleton]; exact hperms, ?_⟩
        simp only [List.forall_mem_singleton, hkept, reaches_cons, hu]
        simp
      | none =>
        obtain ⟨rounds, hbacks, hrest, hkepts⟩ := ih fun g t hg => hframes g t (reaches_cons.mpr (.inr ⟨u, hu, hg⟩))
        refine ⟨x :: rounds, List.forall_mem_cons.mpr ⟨hback, hbacks⟩, ?_, ?_⟩
        · rw [hrun, andThen_done, hrest, hperms]
          rfl
        · rw [List.forall_mem_cons, hkept, hkepts]
          simp only [reaches_cons, hu]
          constructor
          · rintro ⟨hfirst, hothers⟩ g t (⟨rfl, rfl⟩ | ⟨v, hv, hg⟩)
            · exact hfirst
            · cases hv
              exact hothers g t hg
          · intro h
            exact ⟨h f s (.inl ⟨rfl, rfl⟩), fun g t hg => h g t (.inr ⟨u, rfl, hg⟩)⟩

/-- When `copyImgFiles` raises, a directory has its nine bits back exactly if for each file that the loop came to it was
    not opened, or could be put back; or if it was open to everyone before. -/
theorem copyImgFiles_raised_iff {t : CopyState} {e : CopyError}
    (h : copyImgFilesOn chmod env files direction { fs } = (t, some e))
    (hframes : ∀ f s, Reaches chmod env direction files { fs } f s → AllOpen chmod s (dirsFor env direction f s) →
      Frames chmod env direction f s i) :
    t.fs.perms i = fs.perms i ↔
      fs.perms i = 0o777 ∨ ∀ f s, Reaches chmod env direction files { fs } f s → Restored chmod env direction f s i := by
  obtain ⟨rounds, hback, hperms, hkept⟩ := copyImgFilesOn_rounds hframes
  rw [h] at hperms
  rw [hperms, halfSettle_eq_self_iff rfl hback (Nat.mod_mod _ _), hkept]
  rfl

/-! ### A copy that fails -/

def hostsFile : FileSpec := ⟨"/ov/hosts", "/etc/hosts"⟩

def passwdFile : FileSpec := ⟨"/ov/passwd", "/etc"⟩

def copiedHosts : CopyState := (copyFile (fun _ => .done) mountedEnv .into hostsFile { fs := mountedFs }).1

theorem reaches_passwd {s : CopyState}
    (h : Reaches (fun _ => .done) mountedEnv .into [hostsFile, passwdFile] { fs := mountedFs } f s) :
    (f = hostsFile ∧ s = { fs := mountedFs }) ∨ (f = passwdFile ∧ s = copiedHosts) := by
  rcases reaches_cons.mp h with ⟨rfl, rfl⟩ | ⟨u, hu, h⟩
  · exact .inl ⟨rfl, rfl⟩
  obtain rfl : copiedHosts = u := congrArg Prod.fst hu
  rcases reaches_cons.mp h with ⟨rfl, rfl⟩ | ⟨v, hv, -⟩
  · exact .inr ⟨rfl, rfl⟩
  · have hraised : (copyFile (fun _ => .done) mountedEnv .into passwdFile copiedHosts).2 ≠ none := by decide +kernel
    exact absurd (congrArg Prod.snd hv) hraised

/-- One file is copied, and the copy of the next one fails: `/etc`, which was opened for both, is as it was. -/
theorem copyImgFiles_raised_cp :
    (copyImgFilesOn (fun _ => .done) mountedEnv [hostsFile, passwdFile] .into { fs := mountedFs }).2 =
      some (.calledProcessError 1) ∧
    (copyImgFilesOn (fun _ => .done) mountedEnv [hostsFile, passwdFile] .into { fs := mountedFs }).1.fs.perms 2 =
      0o755 := by
  have hraised : (copyImgFilesOn (fun _ => .done) mountedEnv [hostsFile, passwdFile] .into { fs := mountedFs }).2 =
      some (.calledProcessError 1) := by
    decide +kernel
  refine ⟨hraised, (copyImgFiles_raised_iff (i := 2) (Prod.ext rfl hraised) fun f s hs _ => ?_).mpr
    (.inr fun f s hs => ?_)⟩
  · rcases reaches_passwd hs with ⟨rfl, rfl⟩ | ⟨rfl, rfl⟩
    · exact ⟨by decide +kernel, fun _ => by decide +kernel⟩
    · exact ⟨by decide +kernel, fun _ => by decide +kernel⟩
  · rcases reaches_passwd hs with ⟨rfl, rfl⟩ | ⟨rfl, rfl⟩
    · exact restored_of_done (fun _ => rfl) (by decide +kernel) (by decide +kernel) (by decide +kernel)
    · exact restored_of_done (fun _ => rfl) (by decide +kernel) (by decide +kernel) (by decide +kernel)

/-- A file for a directory that does not exist leaves the root and `/etc` open to everyone, and so does a `chmod` that
    does not take effect on the second of them for the first. -/
theorem copyImgFiles_raised_open :
    ((copyImgFilesOn (fun _ => .done) mountedEnv [⟨"/ov/hosts", "/etc/nodir/hosts"⟩] .into { fs := mountedFs }).2 =
        some (.fileNotFoundError ["mnt", "etc", "nodir"]) ∧
      mountedFs.perms 1 = 0o755 ∧ mountedFs.perms 2 = 0o755 ∧
      (copyImgFilesOn (fun _ => .done) mountedEnv [⟨"/ov/hosts", "/etc/nodir/hosts"⟩] .into
        { fs := mountedFs }).1.fs.perms 1 = 0o777 ∧
      (copyImgFilesOn (fun _ => .done) mountedEnv [⟨"/ov/hosts", "/etc/nodir/hosts"⟩] .into
        { fs := mountedFs }).1.fs.perms 2 = 0o777) ∧
    ((copyImgFilesOn (fun n => if n = 1 then .ignored else .done) mountedEnv [hostsFile] .into
        { fs := mountedFs }).2.isSome ∧
      (copyImgFilesOn (fun n => if n = 1 then .ignored else .done) mountedEnv [hostsFile] .into
        { fs := mountedFs }).1.fs.perms 1 = 0o777) := by
  decide +kernel

end FireMarshal
