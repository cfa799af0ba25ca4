import Mathlib.Algebra.Ring.Nat
import FireMarshal.Lib.Framing
import FireMarshal.Theorems.Accnet.Tx

/-! The descriptor stream of `post_send`: reading the fields of the words back and cutting the stream at the
    words without the partial bit recovers the buffers, segment by segment. -/

namespace FireMarshal.Accnet

variable {k : Kernel}

structure Segment where
  addr : Nat
  len : Nat
deriving DecidableEq, Repr

/-- The fields of a descriptor: the partial bit 63, the length in bits 48 to 62, the address below. -/
def decode (d : Desc) : Bool × Segment :=
  (d.getLsbD 63, ⟨(d.extractLsb' 0 48).toNat, (d.extractLsb' 48 15).toNat⟩)

/-- The segments of a buffer: its linear part, then its fragments. -/
def Skb.segments (k : Kernel) (skb : Skb) : List Segment :=
  ⟨k.virtToPhys skb.data, skb.headlen⟩ :: skb.frags.map fun f => ⟨f.page + f.offset, f.len⟩

/-- What the kernel promises of a buffer that it hands over: its segments fit into the fields of a
    descriptor, and they make up its length. -/
structure Skb.Sendable (k : Kernel) (skb : Skb) : Prop where
  fits : ∀ seg ∈ skb.segments k, seg.addr < 2 ^ 48 ∧ seg.len < 2 ^ 15
  total : skb.len = skb.headlen + (skb.frags.map Frag.len).sum

/-! ### One descriptor -/

theorem packet_toNat (p : Bool) {len addr : Nat} (hl : len < 2 ^ 15) (ha : addr < 2 ^ 48) :
    (packet p len addr).toNat = (p.toNat * 2 ^ 15 + len) * 2 ^ 48 + addr := by
  have hp : p.toNat ≤ 1 := Bool.toNat_le p
  have hpartial : (BitVec.ofNat 64 p.toNat <<< 63).toNat = (p.toNat <<< 15) <<< 48 := by
    rw [BitVec.toNat_shiftLeft, BitVec.toNat_ofNat, ← Nat.shiftLeft_add]
    simp only [Nat.shiftLeft_eq]
    omega
  have hlen : (BitVec.ofNat 64 len <<< 48).toNat = len <<< 48 := by
    rw [BitVec.toNat_shiftLeft, BitVec.toNat_ofNat]
    simp only [Nat.shiftLeft_eq]
    omega
  have haddr : (BitVec.ofNat 64 addr &&& 0xffffffffffff#64).toNat = addr := by
    rw [BitVec.toNat_and, BitVec.toNat_ofNat, BitVec.toNat_ofNat,
      show 0xffffffffffff % 2 ^ 64 = 2 ^ 48 - 1 by decide, Nat.and_two_pow_sub_one_eq_mod]
    omega
  -- The three fields do not overlap, so the word is their sum.
  rw [packet, BitVec.toNat_or, BitVec.toNat_or, hpartial, hlen, haddr, ← Nat.shiftLeft_or_distrib,
    ← Nat.shiftLeft_add_eq_or_of_lt hl, ← Nat.shiftLeft_add_eq_or_of_lt ha, Nat.shiftLeft_eq, Nat.shiftLeft_eq]

theorem decode_packet (p : Bool) {len addr : Nat} (hl : len < 2 ^ 15) (ha : addr < 2 ^ 48) :
    decode (packet p len addr) = (p, ⟨addr, len⟩) := by
  have hword := packet_toNat p hl ha
  have hpartial : (packet p len addr).getLsbD 63 = p := by
    rw [BitVec.getLsbD, hword, Nat.testBit_eq_decide_div_mod_eq]
    cases p <;> simp <;> omega
  have hlen : ((packet p len addr).extractLsb' 48 15).toNat = len := by
    rw [BitVec.extractLsb'_toNat, hword, Nat.shiftRight_eq_div_pow]
    omega
  have haddr : ((packet p len addr).extractLsb' 0 48).toNat = addr := by
    rw [BitVec.extractLsb'_toNat, hword, Nat.shiftRight_eq_div_pow]
    omega
  rw [decode, hpartial, hlen, haddr]

/-! ### The descriptors of a buffer -/

theorem decode_fragDescs {fs : List Frag} (h : ∀ f ∈ fs, f.page + f.offset < 2 ^ 48 ∧ f.len < 2 ^ 15) :
    (fragDescs fs).map decode = Framing.mark (fs.map fun f => ⟨f.page + f.offset, f.len⟩) := by
  induction fs with
  | nil => rfl
  | cons f rest ih =>
    obtain ⟨⟨haddr, hlen⟩, hrest⟩ := List.forall_mem_cons.mp h
    rw [fragDescs, List.map_cons, decode_packet _ hlen haddr, ih hrest, List.map_cons, Framing.mark,
      List.isEmpty_map]

theorem decode_sendDescs {skb : Skb} (h : skb.Sendable k) :
    (sendDescs k skb).map decode = Framing.mark (skb.segments k) := by
  obtain ⟨⟨haddr, hlen⟩, hfrags⟩ := List.forall_mem_cons.mp h.fits
  unfold sendDescs
  split
  · next hpos =>
    have hne : skb.frags.isEmpty = false := List.isEmpty_eq_false_iff.mpr (List.length_pos_iff.mp hpos)
    rw [List.map_cons, decode_packet _ hlen haddr, decode_fragDescs fun f hf => hfrags _ (List.mem_map_of_mem hf),
      Skb.segments, Framing.mark, List.isEmpty_map, hne]
    rfl
  · next hnone =>
    have hnil : skb.frags = [] := List.length_eq_zero_iff.mp (Nat.eq_zero_of_not_pos hnone)
    -- Without fragments the driver takes the length of the whole buffer.
    have htotal : skb.len = skb.headlen := by rw [h.total, hnil, List.map_nil, List.sum_nil, Nat.add_zero]
    rw [Skb.segments, hnil, htotal, List.map_singleton, decode_packet _ hlen haddr]
    rfl

theorem Skb.Sendable.sum_segments {skb : Skb} (h : skb.Sendable k) :
    ((skb.segments k).map Segment.len).sum = skb.len := by
  rw [segments, List.map_cons, List.sum_cons, List.map_map, h.total]
  rfl

/-! ### The stream -/

theorem cut_descs (k : Kernel) (skbs : List Skb) (h : ∀ skb ∈ skbs, skb.Sendable k) :
    Framing.cut [] ((descs k skbs).map decode) = (skbs.map (Skb.segments k), []) ∧
      ∀ skb ∈ skbs, (sendDescs k skb).length = skb.nrFrags + 1 ∧
        ((skb.segments k).map Segment.len).sum = skb.len := by
  have hstream : (descs k skbs).map decode = (skbs.map (Skb.segments k)).flatMap Framing.mark := by
    rw [descs, List.map_flatMap, List.flatMap_map]
    exact List.flatMap_congr fun skb hskb => decode_sendDescs (h skb hskb)
  have hne : ∀ p ∈ skbs.map (Skb.segments k), p ≠ [] := by
    intro p hp
    obtain ⟨skb, -, rfl⟩ := List.mem_map.mp hp
    exact List.cons_ne_nil _ _
  rw [hstream, Framing.cut_flatMap_mark hne]
  exact ⟨rfl, fun skb hskb => ⟨length_sendDescs k skb, (h skb hskb).sum_segments⟩⟩

theorem cut_descs_two :
    Framing.cut [] ((descs plainKernel [⟨0, 4096, 60, 60, []⟩, ⟨1, 8192, 1060, 60, [⟨12288, 16, 1000⟩]⟩]).map decode) =
        ([[⟨4096, 60⟩], [⟨8192, 60⟩, ⟨12304, 1000⟩]], []) :=
  (cut_descs plainKernel _ (by
    have hfirst : (⟨0, 4096, 60, 60, []⟩ : Skb).Sendable plainKernel := ⟨by decide, rfl⟩
    have hsecond : (⟨1, 8192, 1060, 60, [⟨12288, 16, 1000⟩]⟩ : Skb).Sendable plainKernel := ⟨by decide, rfl⟩
    exact List.forall_mem_cons.mpr ⟨hfirst, List.forall_mem_singleton.mpr hsecond⟩)).1

end FireMarshal.Accnet
