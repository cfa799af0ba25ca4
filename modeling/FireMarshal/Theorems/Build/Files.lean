import Mathlib.Data.List.Forall2
import FireMarshal.Build.Files
import FireMarshal.Lib.SaveRestore

/-! Permissions of directories after files are copied into or out of an image. Nine of twelve bits are saved, under the
    path of the directory, so that a directory with two paths is saved a second time when it is open to everyone. -/

namespace FireMarshal

open Raising SaveRestore

variable {env : FilesEnv} {direction : Direction} {f : FileSpec} {files : List FileSpec} {dirs : List PurePath}
  {p : PurePath} {i : Nat}

abbrev lowBits (mode : Nat) : Nat := mode % 0o1000

/-! ### `os.chmod` -/

/-- A view of the permissions of files that both loops can be described with: what they save of it are the nine bits,
    and a `chmod` that passes their test sets it. -/
structure Tracks (chmod : Nat → ChmodResult) (val : FileSystem → Nat → Nat) : Prop where
  saved : ∀ fs dir, lowBits (val fs dir) = fs.perms dir
  done : ∀ fs dir perms, perms < 0o1000 → val (fs.chmod dir perms) = Function.update (val fs) dir perms
  ignored : ∀ n, chmod n = .ignored → ∀ fs dir, val fs dir = fs.perms dir

theorem tracks_perms (chmod : Nat → ChmodResult) : Tracks chmod FileSystem.perms where
  saved _ _ := Nat.mod_mod _ _
  done fs dir perms h := by
    funext i
    by_cases hi : i = dir
    · subst hi
      simp [FileSystem.perms, FileSystem.chmod, Nat.mod_eq_of_lt h]
    · simp [FileSystem.perms, FileSystem.chmod, hi]
  ignored _ _ _ _ := rfl

theorem tracks_mode : Tracks (fun _ => .done) FileSystem.mode where
  saved _ _ := rfl
  done _ _ _ _ := rfl
  ignored _ h := ChmodResult.noConfusion h

theorem perms_lt (fs : FileSystem) (dir : Nat) : fs.perms dir < 0o1000 := Nat.mod_lt _ (by decide)

theorem perms_chmod (fs : FileSystem) (dir : Nat) {perms : Nat} (h : perms < 0o1000) :
    (fs.chmod dir perms).perms dir = perms := by
  simp [FileSystem.perms, FileSystem.chmod, Nat.mod_eq_of_lt h]

theorem afterChmod_of_ne {result : ChmodResult} (h : result ≠ .done) (fs : FileSystem) (dir perms : Nat) :
    fs.afterChmod result dir perms = fs := if_neg h

theorem lookup_afterChmod (fs : FileSystem) (result : ChmodResult) (dir perms : Nat) :
    (fs.afterChmod result dir perms).lookup = fs.lookup := by
  unfold FileSystem.afterChmod
  split <;> rfl

def FileSystem.inodes (fs : FileSystem) (dirs : List PurePath) : List Nat := dirs.filterMap fs.lookup

theorem FileSystem.inodes_congr {fs fs' : FileSystem} (h : fs'.lookup = fs.lookup) (dirs : List PurePath) :
    fs'.inodes dirs = fs.inodes dirs := by rw [inodes, inodes, h]

section Loops

variable {chmod : Nat → ChmodResult} {val : FileSystem → Nat → Nat}

theorem Tracks.afterChmod (T : Tracks chmod val) {fs : FileSystem} {n dir perms : Nat} (hlt : perms < 0o1000)
    (hraised : chmod n ≠ .raised) (hperms : (fs.afterChmod (chmod n) dir perms).perms dir = perms) :
    val (fs.afterChmod (chmod n) dir perms) = Function.update (val fs) dir perms := by
  cases hresult : chmod n with
  | done => exact T.done fs dir perms hlt
  | ignored =>
    rw [hresult, afterChmod_of_ne (by decide)] at hperms
    rw [afterChmod_of_ne (by decide), ← hperms, ← T.ignored n hresult, Function.update_eq_self]
  | raised => exact absurd hresult hraised

/-! ### Changing permissions -/

theorem relax_none (T : Tracks chmod val) {s t : Relaxing} (h : relax chmod p s = (t, none)) :
    ∃ dir, s.fs.lookup p = some dir ∧ t.oldPerms = s.oldPerms ++ [(p, s.fs.perms dir)] ∧
      t.chmods = s.chmods + 1 ∧ t.fs.lookup = s.fs.lookup ∧
      val t.fs = Function.update (val s.fs) dir relaxedPerms := by
  unfold relax at h
  split at h
  · cases h
  · rename_i dir hdir
    split at h
    · cases h
    · rename_i hnew
      simp only at h
      split at h
      · cases h
      · rename_i hraised
        split at h
        · rename_i hperms
          cases h
          have hkey : p ∉ s.oldPerms.keys := fun hmem => hnew (Dict.mem_keys_iff.mp hmem)
          exact ⟨dir, hdir, Dict.merge_new hkey, rfl, lookup_afterChmod .., T.afterChmod (by decide) hraised hperms⟩
        · cases h

theorem relax_some {s t : Relaxing} {e : CopyError} (h : relax chmod p s = (t, some e)) : t.fs = s.fs := by
  unfold relax at h
  split at h
  · cases h
    rfl
  · rename_i dir hdir
    split at h
    · cases h
      rfl
    · simp only at h
      split at h
      · rename_i hraised
        cases h
        exact afterChmod_of_ne (by rw [hraised]; decide) ..
      · split at h
        · cases h
        · rename_i hperms
          cases h
          refine afterChmod_of_ne (fun hdone => hperms ?_) ..
          rw [hdone]
          exact perms_chmod s.fs dir (by decide)

/-- What the loop leaves if it raises nothing: the directories are open, and it has saved what it overwrote. -/
structure Relaxed (val : FileSystem → Nat → Nat) (dirs : List PurePath) (s t : Relaxing) : Prop where
  lookup : t.fs.lookup = s.fs.lookup
  chmods : t.chmods = s.chmods + dirs.length
  opened : val t.fs = overwrite relaxedPerms (s.fs.inodes dirs) (val s.fs)
  found : dirs.map s.fs.lookup = (s.fs.inodes dirs).map some
  saved : t.oldPerms = s.oldPerms ++ dirs.zip (saves lowBits relaxedPerms (s.fs.inodes dirs) (val s.fs))

theorem each_relax (T : Tracks chmod val) {s t : Relaxing} (h : each (relax chmod) dirs s = (t, none)) :
    Relaxed val dirs s t := by
  induction dirs generalizing s with
  | nil =>
    cases h
    exact ⟨rfl, rfl, rfl, rfl, (List.append_nil _).symm⟩
  | cons p dirs ih =>
    obtain ⟨u, hu, h⟩ := each_cons_none h
    obtain ⟨dir, hdir, hperms, hchmods, hlookup, hval⟩ := relax_none T hu
    have ht := ih h
    have hcons : s.fs.inodes (p :: dirs) = dir :: s.fs.inodes dirs := List.filterMap_cons_some hdir
    have hinodes := FileSystem.inodes_congr hlookup dirs
    refine ⟨ht.lookup.trans hlookup, ?_, ?_, ?_, ?_⟩
    · rw [ht.chmods, hchmods, List.length_cons, Nat.add_assoc, Nat.add_comm 1]
    · rw [ht.opened, hval, hinodes, hcons]
      rfl
    · have hfound := ht.found
      rw [hlookup, hinodes] at hfound
      rw [hcons, List.map_cons, List.map_cons, hdir, hfound]
    · rw [ht.saved, hperms, hinodes, hval, hcons, List.append_assoc, ← T.saved]
      rfl

/-! ### Changing them back -/

theorem restore_none (T : Tracks chmod val) {oldPerms : Dict PurePath Nat} {s t : Restoring}
    (h : restore chmod oldPerms p s = (t, none)) :
    ∃ perms dir, oldPerms.lookup p = some perms ∧ s.fs.lookup p = some dir ∧ t.chmods = s.chmods + 1 ∧
      t.fs.lookup = s.fs.lookup ∧ val t.fs = Function.update (val s.fs) dir perms := by
  unfold restore at h
  split at h
  · cases h
  · cases h
  · rename_i perms dir hperms hdir
    simp only at h
    split at h
    · cases h
    · rename_i hraised
      split at h
      · rename_i hset
        cases h
        have hlt : perms < 0o1000 := by
          rw [← hset]
          exact perms_lt _ _
        exact ⟨perms, dir, hperms, hdir, rfl, lookup_afterChmod .., T.afterChmod hlt hraised hset⟩
      · cases h

theorem restore_some {oldPerms : Dict PurePath Nat} {s t : Restoring} {e : CopyError}
    (hsaved : ∀ perms, oldPerms.lookup p = some perms → perms < 0o1000)
    (h : restore chmod oldPerms p s = (t, some e)) : t.fs = s.fs := by
  unfold restore at h
  split at h
  · cases h
    rfl
  · cases h
    rfl
  · rename_i perms dir hperms hdir
    simp only at h
    split at h
    · rename_i hraised
      cases h
      exact afterChmod_of_ne (by rw [hraised]; decide) ..
    · split at h
      · cases h
      · rename_i hset
        cases h
        refine afterChmod_of_ne (fun hdone => hset ?_) ..
        rw [hdone]
        exact perms_chmod s.fs dir (hsaved perms hperms)

def SavedEntry (oldPerms : Dict PurePath Nat) (after : FileSystem) (p : PurePath) (x : Nat × Nat) : Prop :=
  oldPerms.lookup p = some x.2 ∧ x.2 < 0o1000 ∧ (after.lookup p = some x.1 ∨ after.lookup p = none)

theorem each_restore (T : Tracks chmod val) {oldPerms : Dict PurePath Nat} {s t : Restoring} {entries : List (Nat × Nat)}
    (hentries : List.Forall₂ (SavedEntry oldPerms s.fs) dirs entries)
    (h : each (restore chmod oldPerms) dirs s = (t, none)) :
    t.fs.lookup = s.fs.lookup ∧ t.chmods = s.chmods + dirs.length ∧ val t.fs = putBack entries (val s.fs) := by
  induction dirs generalizing s entries with
  | nil =>
    cases hentries
    cases h
    exact ⟨rfl, rfl, rfl⟩
  | cons p dirs ih =>
    obtain ⟨x, entries, hx, hrest, rfl⟩ := List.forall₂_cons_left_iff.mp hentries
    obtain ⟨u, hu, h⟩ := each_cons_none h
    obtain ⟨perms, dir, hperms, hdir, hchmods, hlookup, hval⟩ := restore_none T hu
    obtain ⟨hsaved, -, hled⟩ := hx
    obtain rfl : perms = x.2 := Option.some.inj (hperms.symm.trans hsaved)
    obtain rfl : dir = x.1 := by
      rcases hled with hled | hled
      · exact Option.some.inj (hdir.symm.trans hled)
      · rw [hdir] at hled
        cases hled
    obtain ⟨hlookup', hchmods', hval'⟩ := ih (hrest.imp fun p x hx => by rwa [SavedEntry, hlookup]) h
    refine ⟨hlookup'.trans hlookup, ?_, ?_⟩
    · rw [hchmods', hchmods, List.length_cons, Nat.add_assoc, Nat.add_comm 1]
    · rw [hval', hval]
      rfl

/-! ### Both loops -/

def FileSystem.entries (val : FileSystem → Nat → Nat) (fs : FileSystem) (dirs : List PurePath) : List (Nat × Nat) :=
  (fs.inodes dirs).zip (saves lowBits relaxedPerms (fs.inodes dirs) (val fs))

theorem inodes_take {fs : FileSystem} (hfound : dirs.map fs.lookup = (fs.inodes dirs).map some) (n : Nat) :
    fs.inodes (dirs.take n) = (fs.inodes dirs).take n := by
  have htake : (dirs.take n).map fs.lookup = ((fs.inodes dirs).take n).map some := by
    rw [List.map_take, hfound, List.map_take]
  have hall := congrArg (List.filterMap id) htake
  simpa [FileSystem.inodes, List.filterMap_map, Function.comp_def] using hall

theorem Relaxed.entries {fs after : FileSystem} {r : Relaxing} {n : Nat} {pre : List PurePath} (hdirs : dirs.Nodup)
    (h : Relaxed val dirs { fs, chmods := n } r)
    (hlookup : ∀ p ∈ dirs, after.lookup p = fs.lookup p ∨ after.lookup p = none) (hpre : pre <+: dirs) :
    List.Forall₂ (SavedEntry r.oldPerms after) pre (fs.entries val pre) := by
  have hsaved : r.oldPerms = dirs.zip (saves lowBits relaxedPerms (fs.inodes dirs) (val fs)) := h.saved
  have hlength : dirs.length = (fs.inodes dirs).length := by simpa using congrArg List.length h.found
  have hkeys : r.oldPerms.keys.Nodup := by
    rw [hsaved, Dict.keys, List.map_fst_zip (by rw [length_saves, hlength])]
    exact hdirs
  have hall : List.Forall₂ (SavedEntry r.oldPerms after) dirs (fs.entries val dirs) := by
    refine List.forall₂_iff_get.mpr ⟨by simp [FileSystem.entries, length_saves, hlength], fun j hj hj' => ?_⟩
    have hji : j < (fs.inodes dirs).length := hlength ▸ hj
    have hjs : j < (saves lowBits relaxedPerms (fs.inodes dirs) (val fs)).length := by rwa [length_saves]
    have hled : fs.lookup dirs[j] = some (fs.inodes dirs)[j] := by
      have hget := congrArg (·[j]?) h.found
      simpa [hj, hji] using hget
    have hmem : (dirs[j], (saves lowBits relaxedPerms (fs.inodes dirs) (val fs))[j]) ∈ r.oldPerms := by
      rw [hsaved]
      exact List.mem_iff_getElem.mpr ⟨j, by rw [List.length_zip]; exact Nat.lt_min.mpr ⟨hj, hjs⟩, by simp⟩
    obtain ⟨w, hw⟩ := exists_of_mem_saves (List.getElem_mem hjs)
    have hlt : (saves lowBits relaxedPerms (fs.inodes dirs) (val fs))[j] < 0o1000 := by
      rw [← hw]
      exact Nat.mod_lt w (by decide)
    simp only [FileSystem.entries, List.get_eq_getElem, List.getElem_zip]
    refine ⟨(Dict.lookup_eq_some hkeys).mpr hmem, hlt, ?_⟩
    rw [← hled]
    exact hlookup _ (List.getElem_mem hj)
  obtain ⟨n, rfl⟩ : ∃ n, pre = dirs.take n := ⟨_, List.prefix_iff_eq_take.mp hpre⟩
  have htake : fs.entries val (dirs.take n) = (fs.entries val dirs).take n := by
    rw [FileSystem.entries, inodes_take h.found, saves_take]
    exact List.take_zipWith.symm
  rw [htake]
  exact List.forall₂_take n hall

/-- After the loops, a directory that was put back once has what was saved of its mode, and one that was put back more
    often is open to everyone. -/
theorem val_of_restored (T : Tracks chmod val) {fs after : FileSystem} {r : Relaxing} {b : Restoring} {m n : Nat}
    {pre : List PurePath} (hdirs : dirs.Nodup) (hrelaxed : Relaxed val dirs { fs, chmods := m } r)
    (hlookup : ∀ p ∈ dirs, after.lookup p = fs.lookup p ∨ after.lookup p = none) (hpre : pre <+: dirs)
    (hrestore : each (restore chmod r.oldPerms) pre { fs := after, chmods := n } = (b, none)) :
    b.fs.lookup = after.lookup ∧ b.chmods = n + pre.length ∧
      ∀ i, val b.fs i = if (fs.inodes pre).count i = 0 then val after i
        else settled lowBits relaxedPerms ((fs.inodes pre).count i) (val fs i) := by
  obtain ⟨hsame, hchmods, hval⟩ := each_restore T (hrelaxed.entries hdirs hlookup hpre) hrestore
  refine ⟨hsame, hchmods, fun i => ?_⟩
  rw [hval, FileSystem.entries, putBack_saves]

end Loops

/-! ### Copies -/

namespace Copied

/-- The directories whose permissions were changed, with repetitions. -/
def inodes (c : Copied) : List Nat := c.before.inodes c.dirsToModify

/-- The copy left the paths that were used alone, and the mode of a directory that it had no need to change. -/
def Frames (c : Copied) (dir : Nat) : Prop :=
  (∀ p ∈ c.dirsToModify, c.after.lookup p = c.before.lookup p) ∧ (dir ∉ c.inodes → c.after.mode dir = c.before.mode dir)

instance (c : Copied) (dir : Nat) : Decidable (c.Frames dir) := inferInstanceAs (Decidable (_ ∧ _))

end Copied

theorem nodup_dirsToModify (env : FilesEnv) (direction : Direction) (paths : CopyPaths) (fs : FileSystem) :
    (dirsToModify env direction paths fs).Nodup := Dict.nodup_fromKeys _

theorem copyFile_none {s t : CopyState} (h : copyFile (fun _ => .done) env direction f s = (t, none)) :
    ∃ c : Copied, t.copied = s.copied ++ [c] ∧
      (c.Frames i → t.fs.mode i = settled lowBits relaxedPerms (c.inodes.count i) (s.fs.mode i)) := by
  unfold copyFile at h
  split at h
  · cases h
  · rename_i paths hpaths
    simp only at h
    split at h
    · cases h
    · rename_i r hrelax
      obtain ⟨rfl, hor⟩ := Prod.mk.inj h
      obtain ⟨hrestore, -⟩ := Option.or_eq_none_iff.mp hor
      refine ⟨_, rfl, fun hframes => ?_⟩
      have hrelaxed := each_relax tracks_mode hrelax
      have hback : each (restore (fun _ => .done) r.oldPerms) (dirsToModify env direction paths s.fs)
          { fs := (env.cp paths.cpSrcResPath paths.cpDstResPath r.fs).1, chmods := r.chmods } = (_, none) :=
        Prod.ext rfl hrestore
      obtain ⟨-, -, hmode⟩ := val_of_restored tracks_mode (nodup_dirsToModify env direction paths s.fs) hrelaxed
        (fun p hp => .inl ((hframes.1 p hp).trans (congrFun hrelaxed.lookup p))) List.prefix_rfl hback
      have hinodes : r.fs.inodes (dirsToModify env direction paths s.fs) =
          s.fs.inodes (dirsToModify env direction paths s.fs) := FileSystem.inodes_congr hrelaxed.lookup _
      rw [hmode, Copied.inodes, hinodes]
      split
      next hzero =>
        have hnot := List.count_eq_zero.mp hzero
        have hkeep := hframes.2 (by rw [Copied.inodes, hinodes]; exact hnot)
        rw [hkeep, hrelaxed.opened, overwrite_of_not_mem hnot]
        exact (if_pos hzero).symm
      next => rfl

theorem each_copyFile_none {s t : CopyState} (h : each (copyFile (fun _ => .done) env direction) files s = (t, none)) :
    ∃ cs : List Copied, t.copied = s.copied ++ cs ∧ ((∀ c ∈ cs, c.Frames i) →
      t.fs.mode i = settle lowBits relaxedPerms (cs.map fun c => c.inodes.count i) (s.fs.mode i)) := by
  induction files generalizing s with
  | nil =>
    cases h
    exact ⟨[], (List.append_nil _).symm, fun _ => rfl⟩
  | cons f files ih =>
    obtain ⟨u, hu, h⟩ := each_cons_none h
    obtain ⟨c, hc, hmode⟩ := copyFile_none (i := i) hu
    obtain ⟨cs, hcs, hrest⟩ := ih h
    refine ⟨c :: cs, ?_, fun hframes => ?_⟩
    · rw [hcs, hc, List.append_assoc]
      rfl
    · obtain ⟨hfirst, hothers⟩ := List.forall_mem_cons.mp hframes
      rw [hrest hothers, hmode hfirst]
      rfl

theorem lowBits_eq_self {mode : Nat} : lowBits mode = mode ↔ mode < 0o1000 := Nat.mod_eq_iff_lt (by decide)

/-- A directory whose permissions `copyImgFiles` changed has its mode back only if its three upper bits are clear and no
    copy came to it by two paths, or if it was open to everyone before. -/
theorem copyImgFiles_mode_iff {fs : FileSystem} {t : CopyState}
    (h : copyImgFiles env files direction { fs } = (t, none)) (hframes : ∀ c ∈ t.copied, c.Frames i)
    (hchanged : ∃ c ∈ t.copied, i ∈ c.inodes) :
    t.fs.mode i = fs.mode i ↔ fs.mode i = 0o777 ∨ fs.mode i < 0o1000 ∧ ∀ c ∈ t.copied, c.inodes.count i ≤ 1 := by
  obtain ⟨cs, hcs, hmode⟩ := each_copyFile_none (i := i) h
  rw [List.nil_append] at hcs
  rw [hcs] at hframes hchanged ⊢
  have hlisted : ∃ n ∈ cs.map fun c => c.inodes.count i, n ≠ 0 := by
    obtain ⟨c, hc, hi⟩ := hchanged
    exact ⟨_, List.mem_map_of_mem hc, Nat.ne_of_gt (List.count_pos_iff.mpr hi)⟩
  rw [hmode hframes, settle_eq_self_iff (fun mode => Nat.mod_mod mode _) rfl hlisted, lowBits_eq_self]
  simp [relaxedPerms]

/-! ### An image with a directory for temporary files -/

def mountedFs : FileSystem where
  lookup
    | ["mnt"] | ["mnt", "etc", ".."] => some 1
    | ["mnt", "etc"] | ["mnt", "etc", "..", "etc"] => some 2
    | ["mnt", "tmp"] => some 3
    | ["ov", "tmp"] => some 4
    | ["ov", "hosts"] => some 5
    | _ => none
  isDir file := file ≠ 5
  mode file := if file = 3 then 0o1777 else if file = 5 then 0o644 else 0o755
  owner _ := 0
  content file := if file = 5 then [49, 50, 55] else []
  readlink _ := none

def copyOne (src dst : PurePath) (fs : FileSystem) : FileSystem × Int :=
  match fs.lookup src with
  | none => (fs, 1)
  | some file =>
    let target := if fs.isDirPath dst then dst ++ src.getLast?.toList else dst
    let copy := (fs.lookup target).getD (file + 100)
    ({ fs with
       lookup := Function.update fs.lookup target (some copy)
       isDir := Function.update fs.isDir copy (fs.isDir file)
       mode := Function.update fs.mode copy (fs.mode file)
       content := Function.update fs.content copy (fs.content file) }, 0)

def mountedEnv : FilesEnv where
  mountDir := ["mnt"]
  srcIsDir := FileSystem.isDirPath
  cp := copyOne

theorem copyImgFiles_mode_kept :
    (copyImgFiles mountedEnv [⟨"/ov/hosts", "/etc/hosts"⟩, ⟨"/ov/hosts", "/etc"⟩] .into { fs := mountedFs }).1.fs.mode 2 =
      0o755 := by
  have hnone : (copyImgFiles mountedEnv [⟨"/ov/hosts", "/etc/hosts"⟩, ⟨"/ov/hosts", "/etc"⟩] .into
      { fs := mountedFs }).2 = none := by
    decide +kernel
  refine (copyImgFiles_mode_iff (i := 2) (Prod.ext rfl hnone) ?_ ?_).mpr (.inr ⟨by decide, ?_⟩)
  · decide +kernel
  · decide +kernel
  · decide +kernel

/-- An overlay with a directory `tmp` clears the sticky bit, and a path through '..' leaves the root open. -/
theorem copyImgFiles_mode_lost :
    ((applyOverlay mountedEnv "/ov" ["tmp"] { fs := mountedFs }).2 = none ∧ mountedFs.mode 3 = 0o1777 ∧
      (applyOverlay mountedEnv "/ov" ["tmp"] { fs := mountedFs }).1.fs.mode 3 = 0o777) ∧
    (copyImgFiles mountedEnv [⟨"/ov/hosts", "/etc/../etc/hosts"⟩] .into { fs := mountedFs }).2 = none ∧
      mountedFs.mode 1 = 0o755 ∧
      (copyImgFiles mountedEnv [⟨"/ov/hosts", "/etc/../etc/hosts"⟩] .into { fs := mountedFs }).1.fs.mode 1 = 0o777 := by
  decide +kernel

end FireMarshal
