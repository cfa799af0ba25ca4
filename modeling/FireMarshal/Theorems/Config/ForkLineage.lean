import Mathlib.Data.List.Nodup
import FireMarshal.Theorems.Config.ForkOpts

/-! The chains of bases that forking makes: each fork is based on forks of the same identifier, down to the distro
workload of that identifier. -/

namespace FireMarshal

open Pool (Extends)

variable {ω : Type} {m : Marshal ω} {keys : List String} {p₀ p q t : Pool ω} {c r x y d : Ref} {distro id : String}

/-! ### Names of forks -/

/-- Only the module `distro` has identifiers, they are of one length, and no configuration is named like a fork. -/
structure Identified (m : Marshal ω) (distro : String) (keys : List String) : Prop where
  only : ∀ name distMod opts id, m.distroMods.lookup name = some distMod → distMod.hashOpts opts = some id →
    name = distro
  length : ∀ id id', IsID m (some id) → IsID m (some id') → id.length = id'.length
  keys : ∀ k id, IsID m (some id) → forkName k (some id) ∉ keys

theorem Identified.distroKey (h : Identified m distro keys) (hid : IsID m (some id)) :
    DistroKey m (forkName distro (some id)) := by
  obtain ⟨name, distMod, opts, hmod, hopts⟩ := hid id rfl
  obtain rfl := h.only name distMod opts id hmod hopts
  exact ⟨name, some id, by simp [hmod], hid, rfl⟩

/-! ### Chains of forks -/

/-- From `x` on, bases are forks with the identifier, down to the distro workload. -/
inductive Lineage (distro id : String) (p : Pool ω) : Ref → Prop where
  | distro {x y : Ref} (hbase : (p.cfg x).base = some (forkName distro (some id)))
      (hy : p.cfgs.lookup (forkName distro (some id)) = some y) : Lineage distro id p x
  | fork {x y : Ref} {b : String} (hbase : (p.cfg x).base = some (forkName b (some id)))
      (hy : p.cfgs.lookup (forkName b (some id)) = some y) (hplain : (p.cfg y).isDistro = false)
      (h : Lineage distro id p y) : Lineage distro id p x

theorem Lineage.extend (hs : Sound m keys p) (hext : Extends c p t)
    (hc : ∀ k y, p.cfgs.lookup (forkName k (some id)) = some y → y ≠ c) (hx : x < p.next) (hxc : x ≠ c)
    (h : Lineage distro id p x) : Lineage distro id t x := by
  induction h with
  | distro hbase hy => exact .distro (by rw [hext.cfg _ hx hxc, hbase]) (hext.lookup _ _ hy)
  | @fork x y b hbase hy hplain _ ih =>
    have hlt := hs.alloc _ _ hy
    refine .fork (by rw [hext.cfg _ hx hxc, hbase]) (hext.lookup _ _ hy) ?_ (ih hlt (hc _ _ hy))
    rw [hext.isDistro hlt, hplain]

/-- Names and objects belong together one to one, and distro workloads have no base. -/
structure OneName (p : Pool ω) : Prop where
  inj : ∀ k k' y, p.cfgs.lookup k = some y → p.cfgs.lookup k' = some y → k = k'
  distros : ∀ k y, p.cfgs.lookup k = some y → (p.cfg y).isDistro = true → (p.cfg y).base = none

theorem OneName.setBase (h : OneName p) (base : String) (hr : (p.cfg r).isDistro = false) :
    OneName (p.setBase r base) := by
  refine ⟨h.inj, fun k y hk hy => ?_⟩
  have hyr : y ≠ r := by
    rintro rfl
    rw [cfg_setBase, hr] at hy
    cases hy
  have hcfg : (p.setBase r base).cfg y = p.cfg y := by
    simp only [Pool.setBase, Pool.setCfg, Function.update_of_ne hyr]
  rw [hcfg] at hy ⊢
  exact h.distros k y hk hy

theorem OneName.enter (h : OneName p) (hs : Sound m keys p) {name : String} (hext : Extends r p q)
    (hr : (p.cfg r).isDistro = false) (hcfgs : q.cfgs = p.cfgs ++ [(name, x)]) (hle : p.next ≤ x)
    (hx : (q.cfg x).isDistro = true → (q.cfg x).base = none) : OneName q := by
  have hlookup : ∀ k y, q.cfgs.lookup k = some y → p.cfgs.lookup k = some y ∨ k = name ∧ y = x := by
    intro k y hk
    rw [hcfgs] at hk
    exact Dict.lookup_concat hk
  have hne : ∀ k, p.cfgs.lookup k ≠ some x := fun k hk => absurd (hs.alloc k x hk) (Nat.not_lt.mpr hle)
  refine ⟨fun k k' y hk hk' => ?_, fun k y hk hy => ?_⟩
  · rcases hlookup k y hk with hold | ⟨rfl, rfl⟩
    · rcases hlookup k' y hk' with hold' | ⟨rfl, rfl⟩
      · exact h.inj k k' y hold hold'
      · exact absurd hold (hne k)
    · rcases hlookup k' _ hk' with hold' | ⟨rfl, -⟩
      · exact absurd hold' (hne k')
      · rfl
  · rcases hlookup k y hk with hold | ⟨-, rfl⟩
    · have hlt := hs.alloc k y hold
      rw [hext.isDistro hlt] at hy
      have hyr : y ≠ r := by
        rintro rfl
        rw [hr] at hy
        cases hy
      rw [hext.cfg y hlt hyr]
      exact h.distros k y hold hy
    · exact hx hy

/-- All forks are in chains of their identifier, and none of them was there at the start. -/
structure Lines (m : Marshal ω) (distro : String) (p₀ p : Pool ω) : Prop extends OneName p where
  new : ∀ k y, p.cfgs.lookup k = some y → p₀.cfgs.lookup k = some y ∨ p₀.next ≤ y
  line : ∀ k id y, IsID m (some id) → p.cfgs.lookup (forkName k (some id)) = some y → (p.cfg y).isDistro = false →
    Lineage distro id p y

theorem Forkable.lines (hw : Forkable m p) (hids : Identified m distro p.cfgs.keys) : Lines m distro p p where
  inj k k' y hk hk' := by
    have hmem := (Dict.lookup_eq_some hw.keys).mp hk
    have hmem' := (Dict.lookup_eq_some hw.keys).mp hk'
    exact congrArg Prod.fst (List.inj_on_of_nodup_map hw.vals hmem hmem' rfl)
  distros k y hk hy := by
    rw [hw.plain k y hk] at hy
    cases hy
  new _ _ hk := .inl hk
  line k id y hid hk _ := absurd (lookup_mem_keys hk) (hids.keys k id hid)

theorem Lines.fork_new (h : Lines m distro p₀ p) (hids : Identified m distro p₀.cfgs.keys) (hid : IsID m (some id))
    {k : String} (hk : p.cfgs.lookup (forkName k (some id)) = some y) : p₀.next ≤ y :=
  (h.new _ y hk).resolve_left fun hold => hids.keys k id hid (lookup_mem_keys hold)

theorem Lines.ne_of_fork (h : Lines m distro p₀ p) (hids : Identified m distro p₀.cfgs.keys) (hid : IsID m (some id))
    (hc : c < p₀.next) {k : String} (hk : p.cfgs.lookup (forkName k (some id)) = some y) : y ≠ c :=
  (Nat.ne_of_lt (Nat.lt_of_lt_of_le hc (h.fork_new hids hid hk))).symm

/-! ### One call of `forkRecursive` -/

theorem forkRoot_names {distID : Option String} (hs : Sound m keys p) (hnames : OneName p) {k : String}
    (hk : p.cfgs.lookup k = some r) (hr : (p.cfg r).isDistro = false) (hd : (p.cfg r).distro = some d)
    (h : m.forkRoot distID r p = .ok q) :
    OneName q ∧ (q.cfg r).base = some (forkName (p.dist d).name distID) ∧
      (∃ y, q.cfgs.lookup (forkName (p.dist d).name distID) = some y) ∧
      ∀ k y, q.cfgs.lookup k = some y → p.cfgs.lookup k = some y ∨ p.next ≤ y ∧ (q.cfg y).isDistro = true := by
  obtain ⟨u, rfl, hu⟩ := forkRoot_eq_ok hd h
  rcases hu with ⟨rfl, hkey⟩ | ⟨hnew, w, rfl⟩
  · exact ⟨hnames.setBase _ hr, by rw [cfg_setBase], Dict.hasKey_iff.mp hkey, fun k y hk => .inl hk⟩
  · have hext := addDistro_extends (m := m) w (forkName (p.dist d).name distID) p r
    have hadded := cfg_addDistro (m := m) w (forkName (p.dist d).name distID) p
    have hset := Pool.setBase_extends r (forkName (p.dist d).name distID)
      (m.addDistro p (forkName (p.dist d).name distID) w)
    have hnames' : OneName (m.addDistro p (forkName (p.dist d).name distID) w) := by
      refine hnames.enter (x := p.next + 1) hs hext hr rfl (Nat.le_succ _) fun _ => ?_
      rw [hadded]
      rfl
    refine ⟨hnames'.setBase _ ?_, by rw [cfg_setBase], ⟨_, Dict.lookup_concat_self hnew⟩, fun k y hk => ?_⟩
    · rw [hext.isDistro (hs.alloc k r hk), hr]
    · rcases Dict.lookup_concat hk with hk | ⟨-, rfl⟩
      · exact .inl hk
      · refine .inr ⟨Nat.le_succ _, (hset.isDistro (Nat.lt_succ_self _)).trans ?_⟩
        exact congrArg Config.isDistro hadded

/-- The call on `r` in a pool that came from `p` by forking `c`: `r` is `c` or a copy, and has the base of `a`, to which
    the chain of `c` has come. Names that `p` does not have are those of forks along that chain. -/
structure Midway (m : Marshal ω) (keys : List String) (id : String) (p : Pool ω) (c a : Ref) (q : Pool ω) (r : Ref) :
    Prop where
  sound : Sound m keys q
  names : OneName q
  ext : Extends c p q
  place : r = c ∨ p.next ≤ r
  base : (q.cfg r).base = (p.cfg a).base
  source : ∃ k, p.cfgs.lookup k = some a
  path : Relation.ReflTransGen p.Based c a
  pending : ∀ k y, q.cfgs.lookup k = some y → p.cfgs.lookup k = some y ∨
    ∃ b z, k = forkName b (some id) ∧ p.cfgs.lookup b = some z ∧ Relation.ReflTransGen p.Based z a

structure InLine (distro id : String) (p q : Pool ω) (r : Ref) (t : Pool ω) : Prop where
  names : OneName t
  self : Lineage distro id t r
  others : ∀ k y, t.cfgs.lookup k = some y → q.cfgs.lookup k = some y ∨
    p.next ≤ y ∧ ((t.cfg y).isDistro = true ∨ (∃ b, k = forkName b (some id)) ∧ Lineage distro id t y)

theorem forkRoot_inLine (hs : Sound m keys q) (hnames : OneName q) (hle : p.next ≤ q.next) {k : String}
    (hk : q.cfgs.lookup k = some r) (hr : (q.cfg r).isDistro = false) (hd : (q.cfg r).distro = some d)
    (hname : (q.dist d).name = distro) (h : m.forkRoot (some id) r q = .ok t) : InLine distro id p q r t := by
  obtain ⟨hnames', hbase, ⟨y, hy⟩, hadded⟩ := forkRoot_names hs hnames hk hr hd h
  rw [hname] at hbase hy
  refine ⟨hnames', .distro hbase hy, fun k z hz => (hadded k z hz).imp_right fun hnew => ?_⟩
  exact ⟨Nat.le_trans hle hnew.1, .inl hnew.2⟩

theorem Midway.extend {a : Ref} (hmid : Midway m keys id p c a q r) (h : Extends r q t) : Extends c p t := by
  rcases hmid.place with rfl | hr
  · exact hmid.ext.trans h
  · exact hmid.ext.trans_new h hr

section Call
variable (hw : Forkable m p₀) (hids : Identified m distro p₀.cfgs.keys) (hid : IsID m (some id))
variable {a b : Ref} {base k : String}
include hw hid

theorem Midway.copy (hs : Sound m p₀.cfgs.keys p)
    (hcycle : ∀ a, Relation.ReflTransGen p.Based c a → ¬ Relation.TransGen p.Based a a)
    (hmid : Midway m p₀.cfgs.keys id p c a q r) (hb : p.cfgs.lookup base = some b) (hab : p.Based a b)
    (hk : q.cfgs.lookup k = some r) (hr : (q.cfg r).isDistro = false) (hd : (q.cfg r).distro = some d)
    (hbd : (q.cfg b).isDistro = false) (hnew : q.cfgs.lookup (forkName base (some id)) = none) :
    Midway m p₀.cfgs.keys id p c b (Marshal.forkBase r b (forkName base (some id)) q) (q.deepcopy b).last := by
  have hne : b ≠ c := by
    rintro rfl
    exact hcycle b .refl (.tail' hmid.path hab)
  have hb' := hmid.ext.lookup base b hb
  obtain ⟨hsound, hext, -, -, hle, hcbase, hcd, -⟩ :=
    forkBase_spec hmid.sound hk hr hd hb' hbd ((hmid.sound.forkKey hb' hbd).forkName hid) hw.fresh hnew
  have hentered := enterFork_cfgs r b (forkName base (some id)) q
  refine ⟨hsound, ?_, hmid.extend hext, .inr (Nat.le_trans hmid.ext.next hle), ?_, ⟨base, hb⟩, hmid.path.tail hab,
    fun k y hy => ?_⟩
  · refine hmid.names.enter hmid.sound hext hr hentered hle fun hx => ?_
    rw [hcd] at hx
    cases hx
  · rw [hcbase, hmid.ext.cfg b (hs.alloc base b hb) hne]
  · rcases Dict.lookup_concat (hentered ▸ hy) with hy | ⟨rfl, -⟩
    · refine (hmid.pending k y hy).imp_right ?_
      rintro ⟨b', z, hname', hz, hza⟩
      exact ⟨b', z, hname', hz, hza.tail hab⟩
    · exact .inr ⟨base, b, rfl, hb, .refl⟩

include hids

/-- A fork that is there was there before the call, since the chain does not come to the same base again. -/
theorem Midway.found (hlines : Lines m distro p₀ p) (hs : Sound m p₀.cfgs.keys p) (hc : c < p₀.next)
    (hcycle : ∀ a, Relation.ReflTransGen p.Based c a → ¬ Relation.TransGen p.Based a a)
    (hmid : Midway m p₀.cfgs.keys id p c a q r) (hb : p.cfgs.lookup base = some b) (hab : p.Based a b)
    (hr : (q.cfg r).isDistro = false) (hbd : (q.cfg b).isDistro = false)
    (hy : q.cfgs.lookup (forkName base (some id)) = some y) :
    InLine distro id p q r (q.setBase r (forkName base (some id))) := by
  have hold : p.cfgs.lookup (forkName base (some id)) = some y := by
    refine (hmid.pending _ y hy).resolve_right ?_
    rintro ⟨b', z, heq, hz, hza⟩
    obtain ⟨rfl, -⟩ := forkName_inj rfl heq
    obtain rfl := Option.some.inj (hb.symm.trans hz)
    exact hcycle a hmid.path (.head' hab hza)
  have hfork := (hmid.sound.forkKey (hmid.ext.lookup base b hb) hbd).forkName hid
  have hplain := (hmid.sound.fork _ y hy (hw.fresh _ hfork)).2
  have hlt := hs.alloc _ y hold
  have hset := Pool.setBase_extends r (forkName base (some id)) q
  have hlineage : Lineage distro id (q.setBase r (forkName base (some id))) y := by
    refine (hlines.line base id y hid hold ?_).extend hs (hmid.extend hset) (fun k z hz => ?_) hlt ?_
    · rw [← hmid.ext.isDistro hlt, hplain]
    · exact hlines.ne_of_fork hids hid hc hz
    · exact hlines.ne_of_fork hids hid hc hold
  refine ⟨hmid.names.setBase _ hr, .fork (by rw [cfg_setBase]) hy ?_ hlineage, fun k z hz => .inl hz⟩
  rw [hset.isDistro (hmid.sound.alloc _ y hy), hplain]

theorem forkRecursive_inLine (hlines : Lines m distro p₀ p) (hs : Sound m p₀.cfgs.keys p) (hc : c < p₀.next)
    (hcycle : ∀ a, Relation.ReflTransGen p.Based c a → ¬ Relation.TransGen p.Based a a)
    {n : Nat} (hmid : Midway m p₀.cfgs.keys id p c a q r) (hk : q.cfgs.lookup k = some r)
    (hr : (q.cfg r).isDistro = false) (hd : (q.cfg r).distro = some d) (hname : (q.dist d).name = distro)
    (h : m.forkRecursive (some id) n r q = .ok t) : InLine distro id p q r t := by
  induction n generalizing a q r k with
  | zero => cases h
  | succ n ih =>
    obtain ⟨ka, hka⟩ := hmid.source
    rw [Marshal.forkRecursive] at h
    cases hbase : (q.cfg r).base with
    | none =>
      simp only [hbase] at h
      exact forkRoot_inLine hmid.sound hmid.names hmid.ext.next hk hr hd hname h
    | some base =>
      obtain ⟨b, hb⟩ := hs.bases ka a base hka (hmid.base.symm.trans hbase)
      have hab : p.Based a b := ⟨base, hmid.base.symm.trans hbase, hb⟩
      have hb' := hmid.ext.lookup base b hb
      simp only [hbase, hb'] at h
      split at h
      · exact forkRoot_inLine hmid.sound hmid.names hmid.ext.next hk hr hd hname h
      next hbd =>
      rw [Bool.not_eq_true] at hbd
      split at h
      · next hkey =>
        cases h
        obtain ⟨y, hy⟩ := Dict.hasKey_iff.mp hkey
        exact hmid.found hw hids hid hlines hs hc hcycle hb hab hr hbd hy
      · next hkey =>
        have hnew := Dict.lookup_of_not_hasKey hkey
        obtain ⟨hsound, hext, hbase', hlookup, hle, -, hcd, hcdist, -⟩ :=
          forkBase_spec hmid.sound hk hr hd hb' hbd ((hmid.sound.forkKey hb' hbd).forkName hid) hw.fresh hnew
        have hrlt := hmid.sound.alloc k r hk
        have hdlt := (hmid.sound.dist k r d hk hr hd).1
        have hline := ih (hmid.copy hw hid hs hcycle hb hab hk hr hd hbd hnew) hlookup hcd hcdist
          (by rw [hext.dist d hdlt, hname]) h
        have hforked := forkRecursive_spec hw.fresh hid hsound hlookup hcd hcdist h
        have hrne : r ≠ (q.deepcopy b).last := Nat.ne_of_lt (Nat.lt_of_lt_of_le hrlt hle)
        have hrcfg := hforked.ext.cfg r (Nat.lt_of_lt_of_le hrlt hext.next) hrne
        refine ⟨hline.names, .fork (by rw [hrcfg, hbase']) (hforked.ext.lookup _ _ hlookup) ?_ hline.self,
          fun k y hy => ?_⟩
        · rw [hforked.ext.isDistro (hsound.alloc _ _ hlookup), hcd]
        · rcases hline.others k y hy with hy | hnew
          · rcases Dict.lookup_concat (enterFork_cfgs r b _ q ▸ hy) with hy | ⟨rfl, rfl⟩
            · exact .inl hy
            · exact .inr ⟨Nat.le_trans hmid.ext.next hle, .inr ⟨⟨base, rfl⟩, hline.self⟩⟩
          · exact .inr hnew

end Call

/-! ### Pools during the loop -/

/-- The base of a configuration that was forked is named by the identifier of its options, which are its own ones,
    merged into others or not. -/
def NameForked (m : Marshal ω) (p₀ p : Pool ω) (r : Ref) : Prop :=
  ∀ d, (p₀.cfg r).distro = some d → ∃ distMod, m.distroMods.lookup (p₀.dist d).name = some distMod ∧
    (p.cfg r).base = some (forkName ((p₀.cfg r).base.getD (p₀.dist d).name) (distMod.hashOpts (p.dist d).opts)) ∧
    ((p.dist d).opts = (p₀.dist d).opts ∨ ∃ opts, distMod.mergeOpts opts (p₀.dist d).opts = .ok (p.dist d).opts)

structure Forking (m : Marshal ω) (distro : String) (p₀ : Pool ω) (done : List Ref) (p : Pool ω) : Prop where
  track : Track m p₀ done p
  lines : Lines m distro p₀ p
  named : ∀ k r, p₀.cfgs.lookup k = some r → r ∈ done → NameForked m p₀ p r

theorem Lineage.acc (hs : Sound m keys p) (hnames : OneName p) (hkey : DistroKey m (forkName distro (some id)))
    (h : Lineage distro id p x) : Acc (fun b a => p.Based a b) x := by
  induction h with
  | @distro x y hbase hy =>
    refine .intro x fun z hz => .intro z fun w hw => ?_
    obtain rfl := hz.unique ⟨_, hbase, hy⟩
    obtain ⟨b, hb, -⟩ := hw
    rw [hnames.distros _ z hy (hs.distro _ z hy hkey)] at hb
    cases hb
  | @fork x y b hbase hy _ _ ih =>
    refine .intro x fun z hz => ?_
    obtain rfl := hz.unique ⟨_, hbase, hy⟩
    exact ih

namespace Forking
variable {done : List Ref} {k : String}

theorem lineage (h : Forking m distro p₀ done p) (hids : Identified m distro p₀.cfgs.keys)
    (hk : p₀.cfgs.lookup k = some r) (hr : r ∈ done) (hd : (p₀.cfg r).distro = some d) {distMod : DistroModule ω}
    (hmod : m.distroMods.lookup (p₀.dist d).name = some distMod) (hid : distMod.hashOpts (p.dist d).opts = some id) :
    Lineage distro id p r := by
  obtain ⟨distMod', hmod', hbase, -⟩ := h.named k r hk hr d hd
  obtain rfl := Option.some.inj (hmod.symm.trans hmod')
  have hname := hids.only _ _ _ _ hmod hid
  have hisID : IsID m (some id) := hid ▸ isID_hashOpts hmod _
  rw [hname, hid] at hbase
  obtain ⟨y, hy⟩ := h.track.sound.bases k r _ (h.track.lookup k r hk) hbase
  cases hold : (p₀.cfg r).base with
  | none =>
    rw [hold] at hbase hy
    exact .distro hbase hy
  | some b =>
    rw [hold] at hbase hy
    have hplain : (p.cfg y).isDistro = false := by
      rw [← Bool.not_eq_true, ← atRoot_iff hbase hy, ← h.track.root k r hk hr (by simp [hd]), hold]
      exact nofun
    exact .fork hbase hy hplain (h.lines.line b id y hisID hy hplain)

theorem acc (hw : Forkable m p₀) (hids : Identified m distro p₀.cfgs.keys) (h : Forking m distro p₀ done p)
    (hx : p₀.cfgs.lookup k = some x) : Acc (fun b a => p.Based a b) x := by
  induction hn : Acyclic.height p₀.Based p₀.cfgs.vals x using Nat.strong_induction_on generalizing x k with
  | _ n ih =>
    have hkept : ∀ b y, (p₀.cfg x).base = some b → p.cfgs.lookup b = some y → Acc (fun b a => p.Based a b) y := by
      intro b y hb hy
      obtain ⟨y', hy'⟩ := hw.bases k x b hx hb
      obtain rfl : y' = y := Option.some.inj ((h.track.lookup b y' hy').symm.trans hy)
      exact ih _ (hn ▸ hw.acyclic.height_lt ⟨b, hb, hy'⟩ (Dict.mem_vals_of_lookup hy')) hy' rfl
    by_cases hforked : x ∈ done ∧ (p₀.cfg x).distro ≠ none
    · obtain ⟨hdone, hdistro⟩ := hforked
      obtain ⟨d, hd⟩ := Option.ne_none_iff_exists'.mp hdistro
      obtain ⟨distMod, hmod, hbase, -⟩ := h.named k x hx hdone d hd
      cases hid : distMod.hashOpts (p.dist d).opts with
      | some id =>
        have hisID : IsID m (some id) := hid ▸ isID_hashOpts hmod _
        exact (h.lineage hids hx hdone hd hmod hid).acc h.track.sound h.lines.toOneName (hids.distroKey hisID)
      | none =>
        refine .intro x fun y hy => ?_
        obtain ⟨b, hb, hy⟩ := hy
        rw [hid] at hbase
        obtain rfl := Option.some.inj (hbase.symm.trans hb)
        cases hold : (p₀.cfg x).base with
        | some b => exact hkept b y hold (by rwa [hold] at hy)
        | none =>
          rw [hold] at hy
          have hkey : DistroKey m (p₀.dist d).name := ⟨_, none, by simp [hmod], nofun, rfl⟩
          refine .intro y fun z hz => ?_
          obtain ⟨b, hb, -⟩ := hz
          rw [h.lines.distros _ y hy (h.track.sound.distro _ y hy hkey)] at hb
          cases hb
    · have hcfg := h.track.waits k x hx (by rwa [not_and_or, not_not] at hforked)
      refine .intro x fun y hy => ?_
      obtain ⟨b, hb, hy⟩ := hy
      exact hkept b y (hcfg ▸ hb) hy

theorem no_cycle (hw : Forkable m p₀) (hids : Identified m distro p₀.cfgs.keys) (h : Forking m distro p₀ done p)
    (hr : p₀.cfgs.lookup k = some r) {a : Ref} (ha : Relation.ReflTransGen p.Based r a) :
    ¬ Relation.TransGen p.Based a a := by
  refine not_transGen_of_acc ?_
  induction ha with
  | refl => exact h.acc hw hids hr
  | tail _ hb ih => exact ih.inv hb

end Forking

/-! ### Steps of the loop -/

section Step
variable {done : List Ref} {k : String} {n : Nat}

theorem Lineage.setOpts {opts : ω} (h : Lineage distro id p x) : Lineage distro id (p.setOpts d opts) x := by
  induction h with
  | distro hbase hy => exact .distro hbase hy
  | fork hbase hy hplain _ ih => exact .fork hbase hy hplain ih

theorem Lines.setOpts {opts : ω} (h : Lines m distro p₀ p) : Lines m distro p₀ (p.setOpts d opts) :=
  ⟨⟨h.inj, h.distros⟩, h.new, fun k id y hid hk hy => (h.line k id y hid hk hy).setOpts⟩

theorem Lines.extend (h : Lines m distro p₀ p) (hids : Identified m distro p₀.cfgs.keys) (hs : Sound m keys p)
    (hnext : p₀.next ≤ p.next) (hr : r < p₀.next) (hext : Extends r p q) (hnames : OneName q)
    (hadded : ∀ k y, q.cfgs.lookup k = some y → p.cfgs.lookup k = some y ∨ p.next ≤ y ∧
      ((q.cfg y).isDistro = true ∨ ∃ b id, IsID m (some id) ∧ k = forkName b (some id) ∧ Lineage distro id q y)) :
    Lines m distro p₀ q := by
  refine ⟨hnames, fun k y hk => ?_, fun k id y hid hk hy => ?_⟩
  · rcases hadded k y hk with hold | ⟨hle, -⟩
    · exact h.new k y hold
    · exact .inr (Nat.le_trans hnext hle)
  · rcases hadded _ y hk with hold | ⟨-, hdistro | ⟨b, id', hid', heq, hline⟩⟩
    · have hlt := hs.alloc _ y hold
      rw [hext.isDistro hlt] at hy
      exact (h.line k id y hid hold hy).extend hs hext (fun _ _ => h.ne_of_fork hids hid hr) hlt
        (h.ne_of_fork hids hid hr hold)
    · rw [hy] at hdistro
      cases hdistro
    · obtain ⟨-, rfl⟩ := forkName_inj (hids.length id id' hid hid') heq
      exact hline

theorem forkRecursive_none (hs : Sound m keys p) (hnames : OneName p) (hk : p.cfgs.lookup k = some r)
    (hr : (p.cfg r).isDistro = false) (hd : (p.cfg r).distro = some d) (h : m.forkRecursive none n r p = .ok q) :
    OneName q ∧ ∀ k y, q.cfgs.lookup k = some y →
      p.cfgs.lookup k = some y ∨ p.next ≤ y ∧ (q.cfg y).isDistro = true := by
  cases n with
  | zero => cases h
  | succ n =>
    rw [Marshal.forkRecursive] at h
    cases hbase : (p.cfg r).base with
    | none =>
      simp only [hbase] at h
      obtain ⟨hnames', -, -, hadded⟩ := forkRoot_names hs hnames hk hr hd h
      exact ⟨hnames', hadded⟩
    | some base =>
      obtain ⟨b, hb⟩ := hs.bases k r base hk hbase
      have hkey : p.cfgs.hasKey (forkName base none) = true := Dict.hasKey_iff.mpr ⟨b, hb⟩
      simp only [hbase, hb, hkey, if_true] at h
      split at h
      · obtain ⟨hnames', -, -, hadded⟩ := forkRoot_names hs hnames hk hr hd h
        exact ⟨hnames', hadded⟩
      · cases h
        exact ⟨hnames.setBase _ hr, fun k y hy => .inl hy⟩

theorem Lines.fork (hw : Forkable m p₀) (hids : Identified m distro p₀.cfgs.keys)
    (hf : Forking m distro p₀ done p) (hk : p₀.cfgs.lookup k = some r) (hr : r ∉ done)
    (hd : (p₀.cfg r).distro = some d) (h : m.forkDistro n r p = .ok q) : Lines m distro p₀ q := by
  have ht := hf.track
  have hdist := ht.raw k r d hk hd hr
  have hd' : (p.cfg r).distro = some d := (ht.distro hk).trans hd
  have hplain : (p.cfg r).isDistro = false := ht.isDistro hw hk
  have hlt := hw.alloc r (.entry hk)
  obtain ⟨distMod, opts, hmod, hmerge, hrec⟩ := forkDistro_eq_ok hd' h
  have hs := ht.sound.setOpts d opts
  have hlines : Lines m distro p₀ (p.setOpts d opts) := hf.lines.setOpts
  have hisID := isID_hashOpts hmod opts
  have hforked := forkRecursive_spec hw.fresh hisID hs (ht.lookup k r hk) hplain hd' hrec
  cases hid : distMod.hashOpts opts with
  | none =>
    rw [hid] at hrec
    obtain ⟨hnames, hadded⟩ := forkRecursive_none hs hlines.toOneName (ht.lookup k r hk) hplain hd' hrec
    exact hlines.extend hids hs ht.next hlt hforked.ext hnames fun k y hy =>
      (hadded k y hy).imp_right fun hnew => ⟨hnew.1, .inl hnew.2⟩
  | some id =>
    rw [hid] at hrec hisID
    have hname : ((p.setOpts d opts).dist d).name = distro := by
      rw [dist_setOpts]
      exact hids.only _ _ _ _ hmod hid
    have hmid : Midway m p₀.cfgs.keys id (p.setOpts d opts) r r (p.setOpts d opts) r :=
      ⟨hs, hlines.toOneName, .refl r _, .inl rfl, rfl, ⟨k, ht.lookup k r hk⟩, .refl, fun k y hy => .inl hy⟩
    have hline := forkRecursive_inLine hw hids hisID hlines hs hlt (fun a ha => hf.no_cycle hw hids hk ha) hmid
      (ht.lookup k r hk) hplain hd' hname hrec
    refine hlines.extend hids hs ht.next hlt hforked.ext hline.names fun k y hy => (hline.others k y hy).imp_right ?_
    rintro ⟨hle, hdistro | ⟨⟨b, hb⟩, hself⟩⟩
    · exact ⟨hle, .inl hdistro⟩
    · exact ⟨hle, .inr ⟨b, id, hisID, hb, hself⟩⟩

theorem Forking.step (hw : Forkable m p₀) (hids : Identified m distro p₀.cfgs.keys)
    (hf : Forking m distro p₀ done p) (hk : p₀.cfgs.lookup k = some r) (hr : r ∉ done)
    (h : m.forkStep n p k = .ok q) : Forking m distro p₀ (done ++ [r]) q := by
  obtain ⟨ht, hstepped⟩ := hf.track.step hw hk hr h
  refine ⟨ht, ?_, fun k' r' hk' hr' d' hd' => ?_⟩
  · simp only [Marshal.forkStep, hf.track.lookup k r hk, hf.track.distro hk] at h
    cases hd : (p₀.cfg r).distro with
    | none =>
      simp only [hd] at h
      cases h
      exact hf.lines
    | some d =>
      simp only [hd, hf.track.raw k r d hk hd hr, (hw.dist r d (.entry hk) hd).2.1, if_true] at h
      exact Lines.fork hw hids hf hk hr hd h
  · by_cases hrr : r' = r
    · subst hrr
      obtain ⟨distMod, opts, hmod, hmerge, hopts, hbase⟩ := hstepped.merged d' hd'
      rw [hopts]
      refine ⟨distMod, hmod, hbase, ?_⟩
      rw [← hf.track.raw k' r' d' hk' hd' hr]
      exact mergeOptsRecursive_own (hf.track.isDistro hw hk') ((hf.track.distro hk').trans hd') hmerge
    · have hmem := (List.mem_append.mp hr').resolve_right fun h => hrr (List.mem_singleton.mp h)
      obtain ⟨hcfg, hdist⟩ := hstepped.others k' r' hk' hrr
      rw [hcfg, hdist d' hd']
      exact hf.named k' r' hk' hmem d' hd'

theorem Forking.run (hw : Forkable m p₀) (hids : Identified m distro p₀.cfgs.keys) {cfgs : Dict String Ref}
    (hf : Forking m distro p₀ done p) (hcfgs : ∀ c ∈ cfgs, p₀.cfgs.lookup c.1 = some c.2)
    (hnodup : (done ++ cfgs.vals).Nodup) (h : cfgs.keys.foldlM (m.forkStep n) p = .ok t) :
    Forking m distro p₀ (done ++ cfgs.vals) t := by
  refine Dict.foldlM_keys_inv (R := Forking m distro p₀) hf (fun later s c hc u hs hnew hu => ?_) hnodup h
  exact hs.step hw hids (hcfgs c hc) hnew hu

end Step

/-- After the loop, every configuration with options is in the chain of their identifier. -/
theorem forking_of_run (hw : Forkable m p₀) (hids : Identified m distro p₀.cfgs.keys) {n : Nat}
    (h : m.forkAll n p₀ = .ok t) : Forking m distro p₀ p₀.cfgs.vals t := by
  have hstart : Forking m distro p₀ [] p₀ := ⟨hw.track, hw.lines hids, fun _ _ _ h => by cases h⟩
  exact hstart.run hw hids (fun c hc => (Dict.lookup_eq_some hw.keys).mpr hc) hw.vals h

end FireMarshal
