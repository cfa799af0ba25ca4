import FireMarshal.Build.FileDeps

/-! What an image depends on. The paths that `fileDeps` lists are those of files; an image also has the links and the
    directories of its sources. It is determined by the listed files and these. -/

namespace FireMarshal.Sources

variable {listing : Forest.Listing String} {host s t : Host listing} {item : Item} {overlay : Option PurePath}
  {srcs : List PurePath} {files : List FileSpec} {f : FileSpec} {root p q r : PurePath} {name : String} {entry : Entry}
  {attrs attrs' : Attrs} {entries entries' : Forest String Leaf Attrs}

def SameButFiles (a b : Option Entry) : Prop := ∀ entry, isFile entry = false → (a = some entry ↔ b = some entry)

/-- The states have the same links and directories in the places that are copied. -/
structure SameEntries (s t : Host listing) (overlay : Option PurePath) (srcs : List PurePath) : Prop where
  overlay : ∀ dir ∈ overlay, ∀ name path,
    SameButFiles ((s.stat dir).bind (·.find (name :: path))) ((t.stat dir).bind (·.find (name :: path)))
  srcs : ∀ src ∈ srcs, ∀ path, SameButFiles ((s.lstat src).bind (·.find path)) ((t.lstat src).bind (·.find path))

/-- The links among the sources lead to directories in both states, or in neither. -/
structure SameDirs (s t : Host listing) (overlay : Option PurePath) (srcs : List PurePath) : Prop where
  overlay : ∀ dir ∈ overlay, ∀ name ∈ s.listdir dir, s.isDir (dir ++ [name]) = t.isDir (dir ++ [name])
  srcs : ∀ src ∈ srcs, s.isDir src = t.isDir src

structure SameDeps (s t : Host listing) (overlay : Option PurePath) (srcs : List PurePath) : Prop where
  paths : s.fileDeps overlay srcs = t.fileDeps overlay srcs
  files : ∀ path ∈ s.fileDeps overlay srcs, s.stat path = t.stat path

theorem SameDeps.symm (h : SameDeps s t overlay srcs) : SameDeps t s overlay srcs :=
  ⟨h.paths.symm, fun path hpath => (h.files path (h.paths ▸ hpath)).symm⟩

theorem SameButFiles.symm {a b : Option Entry} (h : SameButFiles a b) : SameButFiles b a :=
  fun entry hentry => (h entry hentry).symm

theorem SameEntries.symm (h : SameEntries s t overlay srcs) : SameEntries t s overlay srcs :=
  ⟨fun dir hdir name path => (h.overlay dir hdir name path).symm, fun src hsrc path => (h.srcs src hsrc path).symm⟩

/-! ### Listed files -/

theorem isLink_of_isFile (h : isFile entry) : isLink entry = false := by
  rcases entry with (_ | _) | _ <;> simp_all [isFile, isLink]

theorem isFile_of_isLink (h : isLink entry) : isFile entry = false := by
  rcases entry with (_ | _) | _ <;> simp_all [isFile, isLink]

theorem isDir_of_isFile (h : isFile entry) : entry.isDir = false := by
  rcases entry with (_ | _) | _ <;> simp_all [isFile, Forest.Entry.isDir]

namespace Host

theorem ne_up_of_get {child : Item} (h : host.stat p = some (.dir attrs entries)) (hget : entries.get name = some child) :
    name ≠ ".." :=
  (host.names p attrs entries h name (Forest.get_isSome.mp (Option.isSome_of_eq_some hget))).2.2

theorem stat_walk (h : host.stat p = some item) (hwalk : item.walk r = some (.dir attrs entries)) :
    host.stat (p ++ r) = some (.dir attrs entries) := by
  induction r generalizing p item with
  | nil =>
    rw [Forest.Item.walk_nil] at hwalk
    rw [List.append_nil, h, hwalk]
  | cons n r ih =>
    cases item with
    | leaf leaf => cases hwalk
    | dir attrs₀ entries₀ =>
      obtain ⟨child, hchild, hrest⟩ := Option.bind_eq_some_iff.mp hwalk
      have hlstat := (host.lstat_child p attrs₀ entries₀ n (ne_up_of_get h hchild) h).trans hchild
      -- A link has nothing below it, so the child is not one.
      have hlink : ¬(host.lstat (p ++ [n])).any (isLink ·.entry) := by
        rw [hlstat]
        cases child with
        | dir => simp [isLink, Forest.Item.entry]
        | leaf leaf => cases r <;> cases hrest
      rw [← host.stat_eq _ hlink] at hlstat
      rw [List.append_cons]
      exact ih hlstat hrest

theorem lstat_walk (h : host.stat p = some item) (hwalk : item.walk r = some (.dir attrs entries)) (hname : name ≠ "..") :
    host.lstat (p ++ (r ++ [name])) = entries.get name := by
  rw [← List.append_assoc]
  exact host.lstat_child _ attrs entries name hname (stat_walk h hwalk)

theorem stat_of_not_link (h : host.lstat p = some item) (hlink : isLink item.entry = false) :
    host.stat p = some item := by
  rw [host.stat_eq p, h]
  simp [h, hlink]

def deps (host : Host listing) (overlay : Option PurePath) (srcs : List PurePath) : List PurePath :=
  overlay.toList ++ srcs.filter (!host.isSymlink ·)

theorem mem_fileDeps : q ∈ host.fileDeps overlay srcs ↔
    (q ∈ host.deps overlay srcs ∨
      ∃ dep ∈ host.deps overlay srcs, host.isDir dep ∧ q ∈ host.glob dep ∧ host.isSymlink q = false) ∧
    host.isDir q = false := by
  rw [fileDeps, ← deps]
  simp only [List.mem_filter, List.mem_append, List.mem_flatMap, List.mem_ite_nil_right, Bool.not_eq_true']

theorem mem_fileDeps_of_walk (hroot : root ∈ host.deps overlay srcs) (h : host.stat root = some (.dir attrs entries))
    (hr : r ≠ []) (hwalk : (Forest.Item.dir attrs entries).walk r = some item)
    (hlstat : host.lstat (root ++ r) = some item) (hfile : isFile item.entry) :
    root ++ r ∈ host.fileDeps overlay srcs := by
  have hlink := isLink_of_isFile hfile
  refine mem_fileDeps.mpr ⟨.inr ⟨root, hroot, ?_, ?_, ?_⟩, ?_⟩
  · simp [isDir, h, Forest.Item.entry, Forest.Entry.isDir]
  · obtain ⟨n, r, rfl⟩ := List.exists_cons_of_ne_nil hr
    rw [glob, h]
    exact List.mem_map_of_mem (Forest.mem_paths hwalk)
  · simp [isSymlink, hlstat, hlink]
  · simp [isDir, stat_of_not_link hlstat hlink, isDir_of_isFile hfile]

end Host

/-! ### Sources with the same entries -/

theorem find_of_sameDeps (hdeps : SameDeps s t overlay srcs) (hroot : root ∈ s.deps overlay srcs)
    (hs : s.stat root = some (.dir attrs entries)) (ht : t.stat root = some (.dir attrs' entries'))
    (hsame : ∀ r, r ≠ [] →
      SameButFiles ((Forest.Item.dir attrs entries).find r) ((Forest.Item.dir attrs' entries').find r))
    (hr : r ≠ []) (hfind : (Forest.Item.dir attrs entries).find r = some entry) :
    (Forest.Item.dir attrs' entries').find r = some entry := by
  by_cases hfile : isFile entry
  swap
  · exact (hsame r hr entry (Bool.eq_false_iff.mpr hfile)).mp hfind
  obtain ⟨item, hwalk, rfl⟩ := Option.map_eq_some_iff.mp hfind
  obtain ⟨parent, n, rfl⟩ : ∃ parent n, r = parent ++ [n] := ⟨_, _, (List.dropLast_concat_getLast hr).symm⟩
  obtain ⟨a, children, hparent, hget⟩ := Forest.Item.exists_dir_of_walk hwalk
  -- The directory of the file is there in both states.
  obtain ⟨a', children', hparent'⟩ :
      ∃ a' children', (Forest.Item.dir attrs' entries').walk parent = some (.dir a' children') := by
    by_cases hnil : parent = []
    · subst hnil
      exact ⟨attrs', entries', rfl⟩
    · have hdir := (hsame parent hnil (.dir a) rfl).mp (by rw [Forest.Item.find, hparent]; rfl)
      obtain ⟨item', hwalk', hentry'⟩ := Option.map_eq_some_iff.mp hdir
      cases item' with
      | leaf => cases hentry'
      | dir a' children' => exact ⟨a', children', hwalk'⟩
  have hname := Host.ne_up_of_get (Host.stat_walk hs hparent) hget
  have hlstat := (Host.lstat_walk hs hparent hname).trans hget
  have hlisted := Host.mem_fileDeps_of_walk hroot hs hr hwalk hlstat hfile
  have hstat : t.stat (root ++ (parent ++ [n])) = some item := by
    rw [← hdeps.files _ hlisted]
    exact Host.stat_of_not_link hlstat (isLink_of_isFile hfile)
  have hwalk' : (Forest.Item.dir attrs' entries').walk (parent ++ [n]) = t.lstat (root ++ (parent ++ [n])) := by
    rw [Host.lstat_walk ht hparent' hname, Forest.Item.walk_append, hparent']
    simp [Forest.Item.walk]
  by_cases hlink : (t.lstat (root ++ (parent ++ [n]))).any (isLink ·.entry)
  · -- A link there would be in the first state, too.
    obtain ⟨other, hother, hisLink⟩ := (Option.any_eq_true _ _).mp hlink
    rw [hother] at hwalk'
    have hfind' : (Forest.Item.dir attrs' entries').find (parent ++ [n]) = some other.entry := by
      rw [Forest.Item.find, hwalk', Option.map_some]
    rw [← hsame _ hr other.entry (isFile_of_isLink hisLink), hfind, Option.some.injEq] at hfind'
    rw [← hfind', isLink_of_isFile hfile] at hisLink
    cases hisLink
  · rw [Forest.Item.find, hwalk', ← t.stat_eq _ hlink, hstat, Option.map_some]

theorem find_eq_of_sameDeps (hdeps : SameDeps s t overlay srcs) (hroot : root ∈ s.deps overlay srcs)
    (hroot' : root ∈ t.deps overlay srcs) (hs : s.stat root = some (.dir attrs entries))
    (ht : t.stat root = some (.dir attrs' entries'))
    (hsame : ∀ r, r ≠ [] →
      SameButFiles ((Forest.Item.dir attrs entries).find r) ((Forest.Item.dir attrs' entries').find r))
    (hr : r ≠ []) : (Forest.Item.dir attrs entries).find r = (Forest.Item.dir attrs' entries').find r := by
  refine Option.ext fun entry => ⟨fun h => ?_, fun h => ?_⟩
  · exact find_of_sameDeps hdeps hroot hs ht hsame hr h
  · exact find_of_sameDeps hdeps.symm hroot' ht hs (fun r hr => (hsame r hr).symm) hr h

theorem isDir_of_sameDeps (hdeps : SameDeps s t overlay srcs) (hroot : root ∈ t.deps overlay srcs) (h : s.isDir root) :
    t.isDir root := by
  by_contra hnot
  have hlisted := Host.mem_fileDeps.mpr ⟨.inl hroot, Bool.eq_false_iff.mpr hnot⟩
  rw [← hdeps.paths] at hlisted
  exact absurd h (Bool.eq_false_iff.mp (Host.mem_fileDeps.mp hlisted).2)

theorem exists_of_isDir (h : host.isDir p) : ∃ attrs entries, host.stat p = some (.dir attrs entries) := by
  obtain ⟨item, hitem, hisDir⟩ := (Option.any_eq_true _ _).mp h
  cases item with
  | leaf leaf => cases hisDir
  | dir attrs entries => exact ⟨attrs, entries, hitem⟩

theorem overlay_eq (hdeps : SameDeps s t overlay srcs) (hsame : SameEntries s t overlay srcs) (hp : p ∈ overlay) :
    (s.isDir p = false ∧ t.isDir p = false) ∨ ∃ attrs attrs' entries,
      s.stat p = some (.dir attrs entries) ∧ t.stat p = some (.dir attrs' entries) := by
  have hs : p ∈ s.deps overlay srcs := List.mem_append_left _ (Option.mem_toList.mpr hp)
  have ht : p ∈ t.deps overlay srcs := List.mem_append_left _ (Option.mem_toList.mpr hp)
  by_cases hisDir : s.isDir p
  swap
  · exact .inl ⟨Bool.eq_false_iff.mpr hisDir, Bool.eq_false_iff.mpr (mt (isDir_of_sameDeps hdeps.symm hs) hisDir)⟩
  have hisDir' := isDir_of_sameDeps hdeps ht hisDir
  obtain ⟨attrs, entries, hstat⟩ := exists_of_isDir hisDir
  obtain ⟨attrs', entries', hstat'⟩ := exists_of_isDir hisDir'
  have hfind : ∀ n r, (entries.get n).bind (·.find r) = (entries'.get n).bind (·.find r) := by
    intro n r
    rw [← Forest.Item.find_dir, ← Forest.Item.find_dir]
    refine find_eq_of_sameDeps hdeps hs ht hstat hstat' (fun r hr => ?_) (List.cons_ne_nil n r)
    obtain ⟨n, r, rfl⟩ := List.exists_cons_of_ne_nil hr
    simpa [hstat, hstat'] using hsame.overlay p hp n r
  obtain ⟨hlists, hordered⟩ := s.ordered p _ hstat
  obtain ⟨hlists', hordered'⟩ := t.ordered p _ hstat'
  have heq := Forest.eq_of_find (Forest.names_eq_of_find hlists hlists' hfind) (listing.nodup _ hlists) hordered
    hordered' hfind
  exact .inr ⟨attrs, attrs', entries, hstat, heq ▸ hstat'⟩

theorem lstat_of_link (hsame : SameEntries s t overlay srcs) (hp : p ∈ srcs) (hlink : s.isSymlink p) :
    t.lstat p = s.lstat p := by
  obtain ⟨item, hitem, hisLink⟩ := (Option.any_eq_true _ _).mp hlink
  have hfind : (t.lstat p).bind (·.find []) = some item.entry := by
    rw [← hsame.srcs p hp [] item.entry (isFile_of_isLink hisLink), hitem, Option.bind_some, Forest.Item.find_nil]
  obtain ⟨other, hother, hentry⟩ := Option.bind_eq_some_iff.mp hfind
  rw [Forest.Item.find_nil, Option.some.injEq] at hentry
  rw [hother, hitem]
  cases item with
  | dir => cases hisLink
  | leaf leaf =>
    cases other with
    | dir => cases hentry
    | leaf other =>
      rw [Forest.Item.entry, Forest.Item.entry, Forest.Entry.leaf.injEq] at hentry
      rw [hentry]

theorem stat_of_not_symlink (h : host.isSymlink p = false) : host.stat p = host.lstat p :=
  host.stat_eq p (Bool.eq_false_iff.mp h)

theorem lstat_eq (hdeps : SameDeps s t overlay srcs) (hsame : SameEntries s t overlay srcs) (hp : p ∈ srcs) :
    s.lstat p = t.lstat p := by
  by_cases hs : s.isSymlink p
  · exact (lstat_of_link hsame hp hs).symm
  by_cases ht : t.isSymlink p
  · exact lstat_of_link hsame.symm hp ht
  rw [Bool.not_eq_true] at hs ht
  have hroot : p ∈ s.deps overlay srcs := List.mem_append_right _ (List.mem_filter.mpr ⟨hp, by simp [hs]⟩)
  have hroot' : p ∈ t.deps overlay srcs := List.mem_append_right _ (List.mem_filter.mpr ⟨hp, by simp [ht]⟩)
  by_cases hisDir : s.isDir p
  swap
  · -- The source is a file, or is not there.
    have hlisted := Host.mem_fileDeps.mpr ⟨.inl hroot, Bool.eq_false_iff.mpr hisDir⟩
    rw [← stat_of_not_symlink hs, ← stat_of_not_symlink ht, hdeps.files p hlisted]
  obtain ⟨attrs, entries, hstat⟩ := exists_of_isDir hisDir
  have hisDir' := isDir_of_sameDeps hdeps hroot' hisDir
  obtain ⟨attrs', entries', hstat'⟩ := exists_of_isDir hisDir'
  have hsrcs := hsame.srcs p hp
  rw [← stat_of_not_symlink hs, ← stat_of_not_symlink ht, hstat, hstat'] at hsrcs ⊢
  simp only [Option.bind_some] at hsrcs
  refine congrArg some (Forest.Item.eq_of_find (s.ordered p _ hstat) (t.ordered p _ hstat') fun r => ?_)
  by_cases hr : r = []
  · subst hr
    rw [(hsrcs [] (.dir attrs) rfl).mp (Forest.Item.find_nil ..), Forest.Item.find_nil, Forest.Item.entry]
  · exact find_eq_of_sameDeps hdeps hroot hroot' hstat hstat' (fun r _ => hsrcs r) hr

/-! ### Images of states with the same entries -/

theorem listdir_of_stat (h : host.stat p = some (.dir attrs entries)) : host.listdir p = entries.names := by
  rw [Host.listdir, h]

theorem listdir_of_not_isDir (h : host.isDir p = false) : host.listdir p = [] := by
  rw [Host.listdir]
  split
  · next hstat => simp [Host.isDir, hstat, Forest.Item.entry, Forest.Entry.isDir] at h
  · rfl

theorem listdir_eq (hdeps : SameDeps s t overlay srcs) (hsame : SameEntries s t overlay srcs) (hp : p ∈ overlay) :
    s.listdir p = t.listdir p := by
  obtain ⟨hs, ht⟩ | ⟨attrs, attrs', entries, hs, ht⟩ := overlay_eq hdeps hsame hp
  · rw [listdir_of_not_isDir hs, listdir_of_not_isDir ht]
  · rw [listdir_of_stat hs, listdir_of_stat ht]

/-- What is copied is the same in both states: the names in the overlay, the sources, and whether these lead to
    directories. -/
structure SameSources (s t : Host listing) (overlay : Option PurePath) (srcs : List PurePath) : Prop where
  names : ∀ dir ∈ overlay, s.listdir dir = t.listdir dir
  overlay : ∀ dir ∈ overlay, ∀ name ∈ s.listdir dir,
    s.lstat (dir ++ [name]) = t.lstat (dir ++ [name]) ∧ s.isDir (dir ++ [name]) = t.isDir (dir ++ [name])
  srcs : ∀ src ∈ srcs, s.lstat src = t.lstat src ∧ s.isDir src = t.isDir src

theorem properName_of_listdir (h : name ∈ host.listdir p) : ProperName name := by
  rw [Host.listdir] at h
  split at h
  · next attrs entries hstat => exact host.names p attrs entries hstat name h
  · cases h

theorem lstat_overlay (hdeps : SameDeps s t overlay srcs) (hsame : SameEntries s t overlay srcs) (hp : p ∈ overlay)
    (hname : name ∈ s.listdir p) : s.lstat (p ++ [name]) = t.lstat (p ++ [name]) := by
  have hup := (properName_of_listdir hname).2.2
  obtain ⟨hs, -⟩ | ⟨attrs, attrs', entries, hs, ht⟩ := overlay_eq hdeps hsame hp
  · rw [listdir_of_not_isDir hs] at hname
    cases hname
  · exact (s.lstat_child p attrs entries name hup hs).trans (t.lstat_child p attrs' entries name hup ht).symm

theorem find_of_not_listdir (h : name ∉ host.listdir p) : (host.stat p).bind (·.find (name :: r)) = none := by
  cases hstat : host.stat p with
  | none => rfl
  | some item =>
    cases item with
    | leaf leaf => rfl
    | dir attrs entries =>
      rw [listdir_of_stat hstat] at h
      rw [Option.bind_some, Forest.Item.find_dir, Forest.get_eq_none.mpr h, Option.bind_none]

theorem find_of_listdir (h : name ∈ host.listdir p) :
    (host.stat p).bind (·.find (name :: r)) = (host.lstat (p ++ [name])).bind (·.find r) := by
  by_cases hisDir : host.isDir p
  · obtain ⟨attrs, entries, hstat⟩ := exists_of_isDir hisDir
    have hup := (properName_of_listdir h).2.2
    rw [hstat, Option.bind_some, Forest.Item.find_dir, host.lstat_child p attrs entries name hup hstat]
  · rw [listdir_of_not_isDir (Bool.eq_false_iff.mpr hisDir)] at h
    cases h

theorem SameSources.sameEntries (h : SameSources s t overlay srcs) : SameEntries s t overlay srcs where
  overlay dir hdir name path entry _ := by
    by_cases hname : name ∈ s.listdir dir
    · rw [find_of_listdir hname, find_of_listdir (h.names dir hdir ▸ hname), (h.overlay dir hdir name hname).1]
    · rw [find_of_not_listdir hname, find_of_not_listdir (h.names dir hdir ▸ hname)]
  srcs src hsrc path entry _ := by rw [(h.srcs src hsrc).1]

/-- With the same listed files, the same is copied exactly if the sources also have the same links and directories, and
    the links lead to directories in both states or in neither. -/
theorem sameSources_iff (hdeps : SameDeps s t overlay srcs) :
    SameSources s t overlay srcs ↔ SameEntries s t overlay srcs ∧ SameDirs s t overlay srcs := by
  constructor
  · intro h
    exact ⟨h.sameEntries, fun dir hdir name hname => (h.overlay dir hdir name hname).2, fun src hsrc => (h.srcs src hsrc).2⟩
  · rintro ⟨hsame, hdirs⟩
    exact ⟨fun dir hdir => listdir_eq hdeps hsame hdir,
      fun dir hdir name hname => ⟨lstat_overlay hdeps hsame hdir hname, hdirs.overlay dir hdir name hname⟩,
      fun src hsrc => ⟨lstat_eq hdeps hsame hsrc, hdirs.srcs src hsrc⟩⟩

/-! ### Images of the same sources -/

section

variable {cp : Cp} {mountDir : PurePath}

theorem copyFile_congr (hlstat : s.lstat (parts f.src) = t.lstat (parts f.src))
    (hisDir : s.isDir (parts f.src) = t.isDir (parts f.src)) (chmod : Nat → ChmodResult) (u : CopyState) :
    copyFile chmod (filesEnv cp mountDir s) .into f u = copyFile chmod (filesEnv cp mountDir t) .into f u := by
  have hpaths : copyPaths (filesEnv cp mountDir s) .into f = copyPaths (filesEnv cp mountDir t) .into f := rfl
  unfold copyFile
  rw [hpaths]
  cases hpath : copyPaths (filesEnv cp mountDir t) .into f with
  | error e => rfl
  | ok paths =>
    have hsrc : paths.cpSrcResPath = parts f.src := by
      obtain ⟨dst, -, hdst⟩ := Except.bind_eq_ok.mp hpath
      cases hdst
      rfl
    have hsrcIsDir : (filesEnv cp mountDir s).srcIsDir u.fs paths.cpSrcResPath =
        (filesEnv cp mountDir t).srcIsDir u.fs paths.cpSrcResPath := by
      rw [hsrc]
      exact hisDir
    have hdirs : dirsToModify (filesEnv cp mountDir s) .into paths u.fs =
        dirsToModify (filesEnv cp mountDir t) .into paths u.fs := by
      unfold dirsToModify
      rw [hsrcIsDir]
      rfl
    have hcp : (filesEnv cp mountDir s).cp paths.cpSrcResPath = (filesEnv cp mountDir t).cp paths.cpSrcResPath := by
      rw [hsrc]
      exact congrArg (fun item => cp item (parts f.src)) hlstat
    simp only [hdirs, hcp]

theorem copyImgFiles_congr (h : ∀ f ∈ files, s.lstat (parts f.src) = t.lstat (parts f.src) ∧
      s.isDir (parts f.src) = t.isDir (parts f.src)) (u : CopyState) :
    copyImgFiles (filesEnv cp mountDir s) files .into u = copyImgFiles (filesEnv cp mountDir t) files .into u :=
  Raising.each_congr fun f hf u => copyFile_congr (h f hf).1 (h f hf).2 _ u

theorem parts_joinPath (dir : String) (h : ProperName name) : parts (joinPath dir name) = parts dir ++ [name] := by
  obtain ⟨hslash, hproper, -⟩ := h
  have hrel : Posix.isAbsolute name = false := by
    refine decide_eq_false fun hhead => hslash ?_
    exact List.mem_of_head? hhead
  have hjoin := congrArg Posix.Path.parts (Posix.parse_join dir name)
  rw [Posix.Path.join, if_pos (Posix.parse_root_eq_none.mpr hrel)] at hjoin
  have hname : (Posix.parse name).parts = [name.toList] := Posix.components_of_not_mem hslash hproper
  rw [hname] at hjoin
  have hparts := congrArg (List.map String.ofList) hjoin
  rw [List.map_append, List.map_singleton, String.ofList_toList] at hparts
  exact hparts

theorem makeImage_congr {overlay : Option String}
    (h : SameSources s t (overlay.map parts) (files.map fun f => parts f.src)) (u : CopyState) :
    makeImage cp mountDir s overlay files u = makeImage cp mountDir t overlay files u := by
  have hfiles : copyImgFiles (filesEnv cp mountDir s) files .into = copyImgFiles (filesEnv cp mountDir t) files .into :=
    funext (copyImgFiles_congr fun f hf => h.srcs (parts f.src) (List.mem_map.mpr ⟨f, hf, rfl⟩))
  unfold makeImage
  rw [hfiles]
  cases overlay with
  | none => rfl
  | some dir =>
    refine congrArg (Raising.andThen · _) ?_
    rw [Option.elim_some, Option.elim_some, ← h.names (parts dir) rfl]
    refine copyImgFiles_congr (fun f hf => ?_) u
    obtain ⟨name, hname, rfl⟩ := List.mem_map.mp hf
    rw [parts_joinPath dir (properName_of_listdir hname)]
    exact h.overlay (parts dir) rfl name hname

end

theorem nodup_of_ascending {names : List String} (h : names.Pairwise fun a b => a.length < b.length) : names.Nodup := by
  refine List.Pairwise.imp (fun {a b} hlt => ?_) h
  rintro rfl
  exact Nat.lt_irrefl _ hlt

/-- Short names first; no two names of a directory have the same length. -/
def byLength : Forest.Listing String where
  lists names := names.Pairwise (fun a b => a.length < b.length) ∧ ∀ name ∈ names, ProperName name
  nodup _ h := nodup_of_ascending h.1
  unique names names' h h' hmem := by
    have hperm := (List.perm_ext_iff_of_nodup (nodup_of_ascending h.1) (nodup_of_ascending h'.1)).mpr hmem
    exact hperm.eq_of_pairwise (fun a b _ _ hab hba => absurd hab (Nat.lt_asymm hba)) h.1 h'.1

/-- A host that has only a tree, with links that lead nowhere. -/
def Host.of (root : Item) (h : root.Ordered byLength) : Host byLength where
  lstat := root.walk
  stat path := (root.walk path).filter (!isLink ·.entry)
  stat_eq path hlink := by
    cases hwalk : root.walk path with
    | none => rfl
    | some item => simpa [hwalk] using hlink
  lstat_child path attrs entries name _ hstat := by
    rw [Forest.Item.walk_append, (Option.filter_eq_some_iff.mp hstat).1]
    simp [Forest.Item.walk]
  ordered path item hstat := h.walk (Option.filter_eq_some_iff.mp hstat).1
  names path attrs entries hstat := (h.walk (Option.filter_eq_some_iff.mp hstat).1).1.2

/-- An overlay with a program and a link to its version, and a file beside it. -/
def versioned (mode : Nat) (version : String) : Item :=
  .dir ⟨0o755, 0⟩ (.dir "overlay" ⟨mode, 0⟩
    (.leaf "app" (.file [1] ⟨0o755, 0⟩) (.leaf "current" (.link version 0) .nil))
    (.leaf "app.conf" (.file [2] ⟨0o644, 0⟩) .nil))

theorem versioned_ordered (mode : Nat) (version : String) : (versioned mode version).Ordered byLength := by
  have hroot : byLength.lists ["overlay", "app.conf"] := ⟨by decide, by decide⟩
  have hoverlay : byLength.lists ["app", "current"] := ⟨by decide, by decide⟩
  exact ⟨hroot, hoverlay, trivial, trivial⟩

def versionedHost (mode : Nat) (version : String) : Host byLength := .of (versioned mode version) (versioned_ordered ..)

def confFile : FileSpec := ⟨"/app.conf", "/etc"⟩

theorem versioned_sameDeps (mode mode' : Nat) (version version' : String) :
    SameDeps (versionedHost mode version) (versionedHost mode' version') (some ["overlay"]) [["app.conf"]] := by
  refine ⟨rfl, fun path hpath => ?_⟩
  have hlisted : (versionedHost mode version).fileDeps (some ["overlay"]) [["app.conf"]] =
      [["app.conf"], ["overlay", "app"]] := rfl
  rw [hlisted] at hpath
  obtain rfl | rfl : path = ["app.conf"] ∨ path = ["overlay", "app"] := by simpa using hpath
  · rfl
  · rfl

def copyLeaf : Cp := fun item src dst fs =>
  let target := if fs.isDirPath dst then dst ++ src.getLast?.toList else dst
  match item with
  | some (.leaf (.file content attrs)) =>
    let copy := (fs.lookup target).getD (content.length + 10)
    ({ fs with
       lookup := Function.update fs.lookup target (some copy)
       isDir := Function.update fs.isDir copy false
       mode := Function.update fs.mode copy attrs.mode
       owner := Function.update fs.owner copy attrs.owner
       content := Function.update fs.content copy content }, 0)
  | some (.leaf (.link link _)) => ({ fs with readlink := Function.update fs.readlink target (some link) }, 0)
  | _ => (fs, 1)

def emptyImage : FileSystem where
  lookup
    | ["mnt"] => some 1
    | ["mnt", "etc"] => some 2
    | _ => none
  isDir _ := true
  mode _ := 0o755
  owner _ := 0
  content _ := []
  readlink _ := none

def versionedImage (version : String) : CopyState × Option CopyError :=
  makeImage copyLeaf ["mnt"] (versionedHost 0o755 version) (some "/overlay") [confFile] { fs := emptyImage }

end FireMarshal.Sources
