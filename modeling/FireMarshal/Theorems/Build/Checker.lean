import FireMarshal.Build.Checker
import FireMarshal.Lib.Run

/-! What `WithMetadataChecker` has saved after any history of a path: the state that `MD5Checker` alone would have
    saved, followed by the mode and owner of the file at the last save. -/

namespace FireMarshal.Build.Checker

variable {md5 : List UInt8 → String}

structure Watch.Sound (md5 : List UInt8 → String) (s : Watch) : Prop where
  noRaise : s.raised = false
  unsaved : s.last = none → s.saved = none
  saved : ∀ g, s.last = some g → ∃ state plain, s.saved = some state ∧ s.plain = some plain ∧
    plain.items.length = 3 ∧ state.items = plain.items ++ [.int g.mode, .int g.uid, .int g.gid] ∧
    checkModified md5 g state = .ok false ∧
    ∀ f, checkModified md5 f state =
      if f.mode = g.mode ∧ f.uid = g.uid ∧ f.gid = g.gid then md5CheckModified md5 f (state.take 3) else .ok true

/-- A state of `MD5Checker` with the modification time of `g`, which `state` extends by the metadata of `g`. -/
structure Extends (g : File) (plain state : Seq) : Prop where
  fields : ∃ size fileMd5, plain.items = [.time g.mtime, size, fileMd5]
  items : state.items = plain.items ++ (extractStat g).items

structure Watch.Inv (s : Watch) : Prop where
  noRaise : s.raised = false
  unsaved : s.last = none → s.saved = none ∧ s.plain = none
  saved : ∀ g, s.last = some g → ∃ state plain, s.saved = some state ∧ s.plain = some plain ∧ Extends g plain state

/-! ### Sequences -/

@[simp] theorem Seq.items_take (n : Nat) (s : Seq) : (s.take n).items = s.items.take n := by
  cases s <;> rfl

@[simp] theorem Seq.items_toTuple (s : Seq) : s.toTuple.items = s.items := rfl

theorem md5CheckModified_congr {f : File} {s t : Seq} (h : s.items = t.items) :
    md5CheckModified md5 f s = md5CheckModified md5 f t := by
  rw [md5CheckModified, md5CheckModified, h]

theorem md5GetState_congr {f : File} {s t : Seq} (h : s.items.head? = t.items.head?) :
    md5GetState md5 f (some s) = md5GetState md5 f (some t) := by
  simp only [md5GetState, Option.bind_some, h]

namespace Extends

variable {g : File} {plain state : Seq}

theorem reload (h : Extends g plain state) : Extends g plain.reload state.reload := ⟨h.fields, h.items⟩

theorem length_plain (h : Extends g plain state) : plain.items.length = 3 := by
  obtain ⟨size, fileMd5, hp⟩ := h.fields
  rw [hp]
  rfl

theorem take_items (h : Extends g plain state) : state.items.take 3 = plain.items := by
  rw [h.items, List.take_left' h.length_plain]

theorem drop_toTuple (h : Extends g plain state) : state.toTuple.drop 3 = extractStat g := by
  rw [Seq.toTuple, Seq.drop, h.items, List.drop_left' h.length_plain]
  rfl

theorem take_toTuple (h : Extends g plain state) : state.toTuple.take 3 = .tuple plain.items := by
  rw [Seq.toTuple, Seq.take, h.take_items]

/-! ### `check_modified` -/

theorem checkModified_eq (h : Extends g plain state) (f : File) : checkModified md5 f state =
    if extractStat f = extractStat g then md5CheckModified md5 f (state.take 3) else .ok true := by
  have htake : (state.toTuple.take 3).items = (state.take 3).items := by simp
  rw [checkModified, h.drop_toTuple, md5CheckModified_congr htake]
  exact ite_not ..

theorem checkModified_self (h : Extends g plain state) : checkModified md5 g state = .ok false := by
  obtain ⟨size, fileMd5, hp⟩ := h.fields
  have hitems : (state.take 3).items = [.time g.mtime, size, fileMd5] := by rw [Seq.items_take, h.take_items, hp]
  rw [h.checkModified_eq, if_pos rfl, md5CheckModified, hitems]
  exact if_pos rfl

end Extends

/-! ### `get_state` -/

theorem extends_md5State (md5 : List UInt8 → String) (f : File) :
    Extends f (md5State md5 f) (.tuple ((md5State md5 f).items ++ (extractStat f).items)) :=
  ⟨⟨_, _, rfl⟩, rfl⟩

theorem getState_none (f : File) : getState md5 f none =
    .ok (some (.tuple ((md5State md5 f).items ++ (extractStat f).items))) := rfl

theorem Extends.getState (md5 : List UInt8 → String) {g : File} {plain state : Seq} (h : Extends g plain state)
    (f : File) :
    ∃ new, getState md5 f (some state) = .ok new ∧ ∃ state' plain',
      (new <|> some state) = some state' ∧ (md5GetState md5 f (some plain) <|> some plain) = some plain' ∧
      Extends f plain' state' := by
  obtain ⟨size, fileMd5, hp⟩ := h.fields
  have hplain : md5GetState md5 f (some (.tuple plain.items)) = md5GetState md5 f (some plain) :=
    md5GetState_congr rfl
  by_cases htime : g.mtime = f.mtime
  · -- `MD5Checker` keeps its state.
    have hkeep : md5GetState md5 f (some plain) = none := by simp [md5GetState, hp, htime]
    have hfields : ∃ size fileMd5, plain.items = [.time f.mtime, size, fileMd5] := ⟨size, fileMd5, htime ▸ hp⟩
    by_cases hstat : extractStat g = extractStat f
    · refine ⟨none, ?_, state, plain, rfl, by rw [hkeep]; rfl, hfields, hstat ▸ h.items⟩
      simp only [Checker.getState, Option.map_some, h.take_toTuple, h.drop_toTuple, hplain, hkeep, hstat, if_true]
    · refine ⟨some (.tuple (plain.items ++ (extractStat f).items)), ?_, _, plain, rfl, by rw [hkeep]; rfl, hfields, rfl⟩
      simp only [Checker.getState, Option.map_some, h.take_toTuple, h.drop_toTuple, hplain, hkeep, Option.some.injEq,
        hstat, if_false]
      rfl
  · have hnew : md5GetState md5 f (some plain) = some (md5State md5 f) := by simp [md5GetState, hp, htime]
    refine ⟨some (.tuple ((md5State md5 f).items ++ (extractStat f).items)), ?_, _, md5State md5 f, rfl,
      by rw [hnew]; rfl, extends_md5State md5 f⟩
    simp only [Checker.getState, Option.map_some, h.take_toTuple, hplain, hnew]
    rfl

/-! ### Histories -/

theorem extractStat_eq_iff {f g : File} :
    extractStat f = extractStat g ↔ f.mode = g.mode ∧ f.uid = g.uid ∧ f.gid = g.gid := by
  simp [extractStat]

theorem Watch.Inv.sound {s : Watch} (h : s.Inv) : s.Sound md5 where
  noRaise := h.noRaise
  unsaved hlast := (h.unsaved hlast).1
  saved g hlast := by
    obtain ⟨state, plain, hs, hp, hext⟩ := h.saved g hlast
    refine ⟨state, plain, hs, hp, hext.length_plain, hext.items, hext.checkModified_self, fun f => ?_⟩
    rw [hext.checkModified_eq, if_congr extractStat_eq_iff rfl rfl]

theorem Watch.step_inv {s : Watch} (ev : Event) (h : s.Inv) : (s.step md5 ev).Inv := by
  cases ev with
  | change f => exact ⟨h.noRaise, h.unsaved, h.saved⟩
  | save =>
    cases hlast : s.last with
    | none =>
      obtain ⟨hs, hp⟩ := h.unsaved hlast
      simp only [step, hs, hp, getState_none]
      refine ⟨h.noRaise, fun hnone => absurd hnone (Option.some_ne_none _), fun g hg => ?_⟩
      obtain rfl := Option.some.inj hg
      exact ⟨_, _, rfl, rfl, extends_md5State md5 s.file⟩
    | some g =>
      obtain ⟨state, plain, hs, hp, hext⟩ := h.saved g hlast
      obtain ⟨new, hget, state', plain', hs', hp', hext'⟩ := hext.getState md5 s.file
      simp only [step, hs, hp, hget]
      refine ⟨h.noRaise, fun hnone => absurd hnone (Option.some_ne_none _), fun g' hg' => ?_⟩
      obtain rfl := Option.some.inj hg'
      exact ⟨state', plain', hs', hp', hext'⟩
  | reload =>
    refine ⟨h.noRaise, fun hlast => ?_, fun g hlast => ?_⟩
    · obtain ⟨hs, hp⟩ := h.unsaved hlast
      simp only [step, hs, hp, Option.map_none, and_self]
    · obtain ⟨state, plain, hs, hp, hext⟩ := h.saved g hlast
      exact ⟨state.reload, plain.reload, by simp only [step, hs, Option.map_some],
        by simp only [step, hp, Option.map_some], hext.reload⟩

/-- In every history of a path, the saved state is that of `MD5Checker` followed by the metadata at the last save,
    and later files are compared with both. -/
theorem saved_sound (md5 : List UInt8 → String) (f : File) (evs : List Event) :
    Run.Always (Watch.step md5) { file := f } evs (Watch.Sound md5) := by
  have h0 : Watch.Inv { file := f } :=
    ⟨rfl, fun _ => ⟨rfl, rfl⟩, fun g hg => absurd hg.symm (Option.some_ne_none g)⟩
  exact (Run.always_of_step h0 fun _ ev => Watch.step_inv ev).mono fun _ h => h.sound

theorem saved_sound_chown :
    let f : File := ⟨10, [104, 105], 0o100644, 0, 0⟩
    let s := [Event.save, .reload, .change { f with uid := 1000 }].foldl (Watch.step fun _ => "49f68a5c") { file := f }
    (∃ state, s.saved = some state ∧
      state = .list [.time 10, .int 2, .str "49f68a5c", .int 0o100644, .int 0, .int 0] ∧
      checkModified (fun _ => "49f68a5c") s.file state = .ok true) ∧ s.Sound fun _ => "49f68a5c" :=
  ⟨⟨_, rfl, rfl, by decide⟩, saved_sound _ _ [.save, .reload, .change _] _ (List.prefix_refl _)⟩

end FireMarshal.Build.Checker
