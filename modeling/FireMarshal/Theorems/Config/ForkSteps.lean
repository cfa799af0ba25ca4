import FireMarshal.Lib.Except
import FireMarshal.Theorems.Config.ForkNames

/-! What `forkRecursive` does to a sound pool, whatever the pool is. -/

namespace FireMarshal

open Pool (Extends)

variable {ω : Type} {m : Marshal ω} {keys : List String} {p q t : Pool ω} {r d : Ref} {distID : Option String}

theorem Pool.Extends.trans_new {x : Ref} (h₁ : Extends r p q) (h₂ : Extends x q t) (hx : p.next ≤ x) :
    Extends r p t := by
  have hcfg : ∀ y < p.next, t.cfg y = q.cfg y := fun y hy =>
    h₂.cfg y (Nat.lt_of_lt_of_le hy h₁.next) (Nat.ne_of_lt (Nat.lt_of_lt_of_le hy hx))
  refine ⟨Nat.le_trans h₁.next h₂.next, fun y hy hr => (hcfg y hy).trans (h₁.cfg y hy hr), fun hr => ?_,
    fun d hd => (h₂.dist d (Nat.lt_of_lt_of_le hd h₁.next)).trans (h₁.dist d hd),
    fun k y hk => h₂.lookup k y (h₁.lookup k y hk)⟩
  rw [hcfg r hr]
  exact h₁.self hr

theorem cfg_setBase (r : Ref) (base : String) (p : Pool ω) :
    (p.setBase r base).cfg r = { p.cfg r with base := some base } := by
  simp only [Pool.setBase, Pool.setCfg, Function.update_self]

/-! ### The root of a chain -/

theorem addDistro_extends (w : DistroWorkload ω) (name : String) (p : Pool ω) (r : Ref) :
    Extends r p (m.addDistro p name w) := by
  have h := ((Pool.newDist_extends r { name := w.distroName, opts := w.opts, leaf := true } p).trans
    (Pool.newCfg_extends r (m.distroConfig w p.next) _)).trans (Pool.addKey_extends r (p.next + 1) name _)
  exact ⟨h.next, h.cfg, h.self, h.dist, h.lookup⟩

theorem cfg_addDistro (w : DistroWorkload ω) (name : String) (p : Pool ω) :
    (m.addDistro p name w).cfg (p.next + 1) = m.distroConfig w p.next := by
  simp [Marshal.addDistro, Pool.addKey, Pool.newCfg, Pool.newDist, Pool.setCfg]

theorem addDistro_sound (hs : Sound m keys p) (w : DistroWorkload ω) {name : String} (hname : DistroKey m name)
    (hnew : p.cfgs.lookup name = none) : Sound m keys (m.addDistro p name w) := by
  refine hs.enter (addDistro_extends w name p) rfl hnew (Nat.le_succ _) (Nat.lt_succ_self _) (.inl ⟨hname, ?_, ?_⟩)
  · rw [cfg_addDistro]
    rfl
  · rw [cfg_addDistro]
    rfl

theorem forkRoot_eq_ok (hd : (p.cfg r).distro = some d) (h : m.forkRoot distID r p = .ok q) :
    ∃ u, q = u.setBase r (forkName (p.dist d).name distID) ∧
      (u = p ∧ p.cfgs.hasKey (forkName (p.dist d).name distID) = true ∨
        p.cfgs.lookup (forkName (p.dist d).name distID) = none ∧
          ∃ w, u = m.addDistro p (forkName (p.dist d).name distID) w) := by
  simp only [Marshal.forkRoot, hd] at h
  split at h
  · cases h
  · cases h
    refine ⟨_, rfl, ?_⟩
    split
    · next hkey => exact .inl ⟨rfl, hkey⟩
    · next hkey => exact .inr ⟨Dict.lookup_of_not_hasKey hkey, _, rfl⟩

/-- Forking of `r` with the dictionary `d`: its base gets the identifier, a base that is a distro workload stays
    one, any other base stays another configuration, and no other dictionaries come into use. -/
structure Forked (m : Marshal ω) (keys : List String) (distID : Option String) (r d : Ref) (p q : Pool ω) : Prop where
  sound : Sound m keys q
  ext : Extends r p q
  root : p.AtRoot r → (q.cfg r).base = some (forkName (p.dist d).name distID) ∧ q.AtRoot r
  inner : ¬ p.AtRoot r → ∃ b, (p.cfg r).base = some b ∧ (q.cfg r).base = some (forkName b distID) ∧ ¬ q.AtRoot r
  dists : ∀ d', q.HasDist d' → p.HasDist d'

theorem forkRoot_spec (hs : Sound m keys p) (hid : IsID m distID) {k : String} (hk : p.cfgs.lookup k = some r)
    (hr : (p.cfg r).isDistro = false) (hd : (p.cfg r).distro = some d) (hroot : p.AtRoot r) :
    ∃ q, m.forkRoot distID r p = .ok q ∧ Forked m keys distID r d p q := by
  obtain ⟨hdlt, hmod⟩ := hs.dist k r d hk hr hd
  obtain ⟨distMod, hmod⟩ := Option.isSome_iff_exists.mp hmod
  have hname : DistroKey m (forkName (p.dist d).name distID) := ⟨_, distID, by simp [hmod], hid, rfl⟩
  -- The distro workload is there, or is added.
  obtain ⟨q, hq, hsound, hext, hkey, hdists⟩ : ∃ q, (if p.cfgs.hasKey (forkName (p.dist d).name distID) then p
      else m.addDistro p (forkName (p.dist d).name distID) (distMod.getWorkload (p.dist d).opts)) = q ∧
      Sound m keys q ∧ Extends r p q ∧ (∃ x, q.cfgs.lookup (forkName (p.dist d).name distID) = some x) ∧
      ∀ d', q.HasDist d' → p.HasDist d' := by
    by_cases hkey : p.cfgs.hasKey (forkName (p.dist d).name distID) = true
    · exact ⟨p, if_pos hkey, hs, .refl r p, Dict.hasKey_iff.mp hkey, fun _ h => h⟩
    · have hnew := Dict.lookup_of_not_hasKey hkey
      refine ⟨_, if_neg hkey, addDistro_sound hs _ hname hnew, addDistro_extends _ _ p r,
        ⟨_, Dict.lookup_concat_self hnew⟩, fun d' h => (hasDist_enter hs (addDistro_extends _ _ p _) rfl h).resolve_right fun hx => ?_⟩
      rw [cfg_addDistro] at hx
      cases hx.1
  obtain ⟨x, hx⟩ := hkey
  have hrlt := hs.alloc k r hk
  have hbase := cfg_setBase r (forkName (p.dist d).name distID) q
  refine ⟨q.setBase r (forkName (p.dist d).name distID), ?_, ?_, ?_, fun _ => ⟨by rw [hbase], .inr ?_⟩,
    fun h => absurd hroot h, fun d' h => hdists d' (hasDist_setBase h)⟩
  · simp only [Marshal.forkRoot, hd, hmod, hq]
  · exact hsound.setBase ((hext.distro hrlt).trans hd) hx
  · exact hext.trans (Pool.setBase_extends r _ q)
  · refine ⟨_, x, by rw [hbase], hx, ?_⟩
    rw [(Pool.setBase_extends r _ q).isDistro (hsound.alloc _ x hx)]
    exact hsound.distro _ x hx hname

/-! ### The bases of a chain -/

/-- The pool with a copy of `b` entered, before `r` is based on it. -/
def Pool.enterFork (r b : Ref) (name : String) (p : Pool ω) : Pool ω :=
  let q := p.deepcopy b
  (q.setCfg q.last { q.cfg q.last with name, distro := (p.cfg r).distro }).addKey name q.last

theorem forkBase_eq (r b : Ref) (name : String) (p : Pool ω) :
    Marshal.forkBase r b name p = (p.enterFork r b name).setBase r name := rfl

theorem enterFork_cfgs (r b : Ref) (name : String) (p : Pool ω) :
    (p.enterFork r b name).cfgs = p.cfgs ++ [(name, (p.deepcopy b).last)] := by
  obtain ⟨-, hcfgs, -⟩ := Pool.deepcopy_spec b p
  simp only [Pool.enterFork, Pool.addKey, Pool.setCfg, hcfgs]

theorem enterFork_self (r b : Ref) (name : String) (p : Pool ω) : (p.enterFork r b name).cfg (p.deepcopy b).last =
    { (p.deepcopy b).cfg (p.deepcopy b).last with name, distro := (p.cfg r).distro } := by
  simp only [Pool.enterFork, Pool.addKey, Pool.setCfg, Function.update_self]

theorem enterFork_other {x : Ref} (r b : Ref) (name : String) (p : Pool ω) (hx : x ≠ (p.deepcopy b).last) :
    (p.enterFork r b name).cfg x = (p.deepcopy b).cfg x := by
  simp only [Pool.enterFork, Pool.addKey, Pool.setCfg, Function.update_of_ne hx]

theorem enterFork_extends (r b : Ref) (name : String) (p : Pool ω) (x : Ref) : Extends x p (p.enterFork r b name) := by
  obtain ⟨hcopy, -, hle, -⟩ := Pool.deepcopy_spec b p
  have hcfg : ∀ y < p.next, (p.enterFork r b name).cfg y = p.cfg y := by
    intro y hy
    have hylast : y ≠ (p.deepcopy b).last := Nat.ne_of_lt (Nat.lt_of_lt_of_le hy hle)
    rw [enterFork_other r b name p hylast]
    exact (hcopy _).cfg y hy hylast
  refine ⟨(hcopy x).next, fun y hy _ => hcfg y hy, fun hx => ⟨_, hcfg x hx⟩, (hcopy x).dist, fun k y h => ?_⟩
  rw [enterFork_cfgs, List.lookup_append, h, Option.some_or]

theorem forkBase_spec (hs : Sound m keys p) {k name : String} {b : Ref} (hk : p.cfgs.lookup k = some r)
    (hr : (p.cfg r).isDistro = false) (hd : (p.cfg r).distro = some d) {base : String}
    (hb : p.cfgs.lookup base = some b) (hbd : (p.cfg b).isDistro = false) (hname : ForkKey m keys name)
    (hfresh : Fresh m keys) (hnew : p.cfgs.lookup name = none) :
    Sound m keys (Marshal.forkBase r b name p) ∧ Extends r p (Marshal.forkBase r b name p) ∧
      ((Marshal.forkBase r b name p).cfg r).base = some name ∧
      (Marshal.forkBase r b name p).cfgs.lookup name = some (p.deepcopy b).last ∧ p.next ≤ (p.deepcopy b).last ∧
      ((Marshal.forkBase r b name p).cfg (p.deepcopy b).last).base = (p.cfg b).base ∧
      ((Marshal.forkBase r b name p).cfg (p.deepcopy b).last).isDistro = false ∧
      ((Marshal.forkBase r b name p).cfg (p.deepcopy b).last).distro = some d ∧
      ∀ d', (Marshal.forkBase r b name p).HasDist d' → p.HasDist d' := by
  obtain ⟨-, -, hle, hlt, distro, jobs, hlast⟩ := Pool.deepcopy_spec b p
  have hrlt := hs.alloc k r hk
  have hne : (p.deepcopy b).last ≠ r := (Nat.ne_of_lt (Nat.lt_of_lt_of_le hrlt hle)).symm
  obtain ⟨hdlt, hmod⟩ := hs.dist k r d hk hr hd
  have hset := enterFork_extends r b name p
  have hentered := enterFork_cfgs r b name p
  have hfork : (p.enterFork r b name).cfg (p.deepcopy b).last = { p.cfg b with name, distro := some d, jobs } := by
    rw [enterFork_self, hlast, hd]
  have hlookup : (p.enterFork r b name).cfgs.lookup name = some (p.deepcopy b).last := by
    rw [hentered, Dict.lookup_concat_self hnew]
  have hsound : Sound m keys (p.enterFork r b name) := by
    refine hs.enter hset hentered hnew hle hlt (.inr ⟨hfresh name hname, hname, ?_, fun c hc => ?_, d, ?_, ?_, ?_⟩)
    · rw [hfork, hbd]
    · rw [hfork] at hc
      exact hs.bases base b c hb hc
    · rw [hfork]
    · exact Nat.lt_of_lt_of_le hdlt (hset r).next
    · rw [(hset r).dist d hdlt]
      exact hmod
  have hext := Pool.setBase_extends r name (p.enterFork r b name)
  have hfork' := (hext.cfg _ hlt hne).trans hfork
  rw [forkBase_eq, hfork']
  refine ⟨hsound.setBase (((hset r).distro hrlt).trans hd) hlookup, (hset r).trans hext, by rw [cfg_setBase],
    hlookup, hle, rfl, hbd, rfl, fun d' h => ?_⟩
  rcases hasDist_enter hs (hset _) hentered (hasDist_setBase h) with h | ⟨-, h⟩
  · exact h
  · rw [hfork] at h
    cases h
    exact ⟨k, r, hk, hr, hd⟩

theorem atRoot_iff {base : String} {b : Ref} (hbase : (p.cfg r).base = some base) (hb : p.cfgs.lookup base = some b) :
    p.AtRoot r ↔ (p.cfg b).isDistro = true := by
  constructor
  · rintro (h | ⟨c, x, hc, hx, hxd⟩)
    · rw [hbase] at h
      cases h
    · rw [hbase] at hc
      cases hc
      rw [hb] at hx
      cases hx
      exact hxd
  · exact fun h => .inr ⟨base, b, hbase, hb, h⟩

theorem forkRecursive_spec (hfresh : Fresh m keys) (hid : IsID m distID) {n : Nat} {k : String} (hs : Sound m keys p)
    (hk : p.cfgs.lookup k = some r) (hr : (p.cfg r).isDistro = false) (hd : (p.cfg r).distro = some d)
    (h : m.forkRecursive distID n r p = .ok q) : Forked m keys distID r d p q := by
  induction n generalizing k r p with
  | zero => cases h
  | succ n ih =>
    have hrlt := hs.alloc k r hk
    have hforkRoot : p.AtRoot r → m.forkRoot distID r p = .ok q → Forked m keys distID r d p q := by
      intro hroot h
      obtain ⟨q', hq', hforked⟩ := forkRoot_spec hs hid hk hr hd hroot
      rw [hq'] at h
      cases h
      exact hforked
    rw [Marshal.forkRecursive] at h
    cases hbase : (p.cfg r).base with
    | none =>
      simp only [hbase] at h
      exact hforkRoot (.inl hbase) h
    | some base =>
      obtain ⟨b, hb⟩ := hs.bases k r base hk hbase
      have hiff := atRoot_iff hbase hb
      simp only [hbase, hb] at h
      split at h
      · next hbd => exact hforkRoot (hiff.mpr hbd) h
      next hbd =>
      have hno : ¬ p.AtRoot r := fun hroot => hbd (hiff.mp hroot)
      rw [Bool.not_eq_true] at hbd
      have hname := (hs.forkKey hb hbd).forkName hid
      split at h
      · next hkey =>
        -- The fork exists already.
        cases h
        obtain ⟨x, hx⟩ := Dict.hasKey_iff.mp hkey
        have hbase' := cfg_setBase r (forkName base distID) p
        have hext := Pool.setBase_extends r (forkName base distID) p
        refine ⟨hs.setBase hd hx, hext, fun hroot => absurd hroot hno, fun _ => ⟨base, hbase, by rw [hbase'], ?_⟩,
          fun _ => hasDist_setBase⟩
        rw [atRoot_iff (by rw [hbase']) (hext.lookup _ x hx), hext.isDistro (hs.alloc _ x hx),
          (hs.fork _ x hx (hfresh _ hname)).2]
        exact Bool.false_ne_true
      · next hkey =>
        obtain ⟨hsound, hext, hbase', hlookup, hle, -, hcd, hcdist, hdists⟩ :=
          forkBase_spec hs hk hr hd hb hbd hname hfresh (Dict.lookup_of_not_hasKey hkey)
        have hrec := ih hsound hlookup hcd hcdist h
        have hrne : r ≠ (p.deepcopy b).last := Nat.ne_of_lt (Nat.lt_of_lt_of_le hrlt hle)
        have hcfg := hrec.ext.cfg r (Nat.lt_of_lt_of_le hrlt hext.next) hrne
        refine ⟨hrec.sound, hext.trans_new hrec.ext hle, fun hroot => absurd hroot hno,
          fun _ => ⟨base, hbase, by rw [hcfg, hbase'], ?_⟩, fun d' h => hdists d' (hrec.dists d' h)⟩
        rw [atRoot_iff (by rw [hcfg, hbase']) (hrec.ext.lookup _ _ hlookup),
          hrec.ext.isDistro (hsound.alloc _ _ hlookup), hcd]
        exact Bool.false_ne_true

end FireMarshal
