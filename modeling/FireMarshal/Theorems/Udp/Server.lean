import FireMarshal.Lib.Run
import FireMarshal.Udp.Server

/-! What the echo server sends is what it has received, as long as no batch goes around the end of a ring.

The server copies a batch with one `memcpy`, so a batch that goes around the end of the RX ring is read from behind it,
and one that goes around the end of the TX ring is written behind that. -/

namespace FireMarshal.Udp

/-! ### The RX ring -/

namespace RxRing

variable {n : Nat} {r r' r'' : RxRing n}

/-- Seen from position `c`, the ring holds no more than from its head. -/
def Within (r : RxRing n) (c : Fin n) : Prop := Ring.count n r.tail c ≤ Ring.count n r.tail r.head

structure Grows (r r' : RxRing n) (new : List UInt8) : Prop where
  head : r'.head = r.head
  received : r'.received = r.received ++ new
  count : ∀ c, r.Within c → Ring.count n r'.tail c = Ring.count n r.tail c + new.length
  queued : ∀ c, r.Within c → Ring.queued n r'.mem r'.tail c = Ring.queued n r.mem r.tail c ++ new
  mem : ∀ a, n ≤ a → r'.mem a = r.mem a

namespace Grows

theorem refl (r : RxRing n) : Grows r r [] := ⟨rfl, by simp, by simp, by simp, by simp⟩

variable {new new' : List UInt8}

theorem within (h : Grows r r' new) {c : Fin n} (hc : r.Within c) : r'.Within c := by
  rw [Within, h.head, h.count c hc, h.count r.head (Nat.le_refl _)]
  exact Nat.add_le_add_right hc _

theorem trans (h₁ : Grows r r' new) (h₂ : Grows r' r'' new') : Grows r r'' (new ++ new') where
  head := h₂.head.trans h₁.head
  received := by rw [h₂.received, h₁.received, List.append_assoc]
  count c hc := by rw [h₂.count c (h₁.within hc), h₁.count c hc, List.length_append, Nat.add_assoc]
  queued c hc := by rw [h₂.queued c (h₁.within hc), h₁.queued c hc, List.append_assoc]
  mem a ha := (h₂.mem a ha).trans (h₁.mem a ha)

end Grows

theorem grows_put (b : UInt8) (h : Ring.count n r.tail r.head + 1 < n) : Grows r (r.put b) [b] where
  head := rfl
  received := rfl
  count c hc := by
    refine Ring.count_next_head r.tail.isLt c.isLt ?_
    rw [ne_eq, Ring.next_eq_tail_iff r.tail.isLt c.isLt]
    have hle : Ring.count n r.tail c ≤ Ring.count n r.tail r.head := hc
    omega
  queued c hc := by
    refine Ring.queued_push r.tail.isLt c.isLt ?_ b
    rw [ne_eq, Ring.next_eq_tail_iff r.tail.isLt c.isLt]
    have hle : Ring.count n r.tail c ≤ Ring.count n r.tail r.head := hc
    omega
  mem a ha := Function.update_of_ne (by have := r.tail.isLt; omega) _ _

theorem grows_puts (packet : List UInt8) (h : Ring.count n r.tail r.head + packet.length < n) :
    Grows r (packet.foldl put r) packet := by
  induction packet generalizing r with
  | nil => exact Grows.refl r
  | cons b packet ih =>
    rw [List.length_cons] at h
    have hput := grows_put b (by omega : Ring.count n r.tail r.head + 1 < n)
    have hcount := hput.count r.head (Nat.le_refl _)
    refine hput.trans (ih ?_)
    rw [hput.head, hcount, List.length_singleton]
    omega

theorem exists_grows_arrive (r : RxRing n) (packet : List UInt8) : ∃ new, Grows r (r.arrive packet) new := by
  unfold arrive
  split
  · exact ⟨packet, grows_puts packet (by assumption)⟩
  · exact ⟨[], Grows.refl r⟩

theorem exists_grows (r : RxRing n) (packets : List (List UInt8)) : ∃ new, Grows r (r.arriveAll packets) new := by
  induction packets generalizing r with
  | nil => exact ⟨[], Grows.refl r⟩
  | cons packet packets ih =>
    obtain ⟨new, hnew⟩ := exists_grows_arrive r packet
    obtain ⟨new', hnew'⟩ := ih (r.arrive packet)
    exact ⟨new ++ new', hnew.trans hnew'⟩

theorem within_tail (r : RxRing n) : r.Within r.tail := by
  rw [Within, Ring.count_self r.tail.isLt]
  exact Nat.zero_le _

namespace Grows

variable {new : List UInt8}

theorem pending (h : Grows r r' new) : r'.pending = r.pending ++ new := by
  rw [RxRing.pending, h.head]
  exact h.queued r.head (Nat.le_refl _)

theorem queued_tail (h : Grows r r' new) : Ring.queued n r'.mem r'.tail r.tail = new := by
  rw [h.queued r.tail r.within_tail, Ring.queued_self _ r.tail.isLt, List.nil_append]

theorem frame (h : Grows r r' new) : Ring.queued n r'.mem r.tail r.head = r.pending := by
  have hsplit : Ring.queued n r'.mem r'.tail r.head =
      Ring.queued n r'.mem r.tail r.head ++ Ring.queued n r'.mem r'.tail r.tail := by
    refine Ring.queued_append r.tail.isLt r.head.isLt ?_
    rw [h.count r.head (Nat.le_refl _), h.count r.tail r.within_tail, Ring.count_self r.tail.isLt, Nat.zero_add]
  rw [h.queued_tail, h.queued r.head (Nat.le_refl _)] at hsplit
  exact (List.append_cancel_right hsplit).symm

end Grows

structure Like (r r' : RxRing n) : Prop where
  head : r'.head = r.head
  tail : r'.tail = r.tail
  received : r'.received = r.received

namespace Like

theorem puts (h : Like r r') (packet : List UInt8) : Like (packet.foldl put r) (packet.foldl put r') := by
  induction packet generalizing r r' with
  | nil => exact h
  | cons b packet ih =>
    refine ih ⟨h.head, ?_, congrArg (· ++ [b]) h.received⟩
    exact Fin.ext (congrArg (fun tail : Fin n => (tail + 1) % n) h.tail)

theorem arriveAll (h : Like r r') (packets : List (List UInt8)) :
    Like (r.arriveAll packets) (r'.arriveAll packets) := by
  induction packets generalizing r r' with
  | nil => exact h
  | cons packet packets ih =>
    refine ih ?_
    unfold arrive
    rw [h.head, h.tail]
    split
    · exact h.puts packet
    · exact h

end Like

theorem pending_setHead (r : RxRing n) (c : Fin n) :
    ({ r with head := c } : RxRing n).pending = Ring.queued n r.mem r.tail c := rfl

end RxRing

/-! ### A round -/

theorem Rings.batch_eq (g : Rings) {head tail : Fin g.rxSize} (hne : tail ≠ head) :
    g.batch head tail = Ring.count g.rxSize tail head := by
  have hne : tail.1 ≠ head.1 := fun h => hne (Fin.ext h)
  have hhead := head.isLt
  unfold Rings.batch
  split
  · rw [Ring.count_of_le tail.isLt (by omega)]
  · rw [Ring.count_of_lt hhead (by omega)]
    omega

theorem Rings.newTxTail_eq (g : Rings) (txTail : Fin g.txSize) {size : Nat} (h : size < g.rxSize) :
    (g.newTxTail txTail size).1 = (txTail + size) % g.txSize := by
  have htail := txTail.isLt
  have hfits := g.fits
  show (txTail + size) % 2 ^ 32 % g.txSize = _
  rw [Nat.mod_eq_of_lt (by omega : txTail + size < 2 ^ 32)]

namespace Server

variable {g : Rings} {s : Server g} {a : Arrivals}

def seen (s : Server g) (a : Arrivals) : RxRing g.rxSize := s.rx.arriveAll a.beforeRead

def copied (s : Server g) (a : Arrivals) : RxRing g.rxSize := (s.seen a).arriveAll a.beforeCopy

def left (s : Server g) (a : Arrivals) : RxRing g.rxSize :=
  ({ (s.copied a).arriveAll a.beforeHead with head := (s.seen a).tail } : RxRing g.rxSize).arriveAll a.beforeTail

def size (s : Server g) (a : Arrivals) : Nat := Ring.count g.rxSize (s.seen a).tail (s.seen a).head

def copy (s : Server g) (a : Arrivals) : Nat → UInt8 :=
  Ring.copy s.txMem s.txTail (s.copied a).mem (s.copied a).head (s.size a)

def chunk (s : Server g) (a : Arrivals) : List UInt8 :=
  Ring.queued g.txSize (s.copy a) (g.newTxTail s.txTail (s.size a)) s.txTail

theorem serve_of_empty (h : (s.seen a).tail = (s.seen a).head) : s.serve a = { s with rx := s.seen a } := if_pos h

theorem serve_of_ne (h : (s.seen a).tail ≠ (s.seen a).head) : s.serve a =
    { rx := s.left a, txMem := s.copy a, txTail := g.newTxTail s.txTail (s.size a)
      exposed := s.exposed ++ s.chunk a, written := s.written ++ List.range' s.txTail (s.size a) } := by
  have hsize : g.batch (s.seen a).head (s.seen a).tail = s.size a := g.batch_eq h
  unfold chunk copy
  rw [← hsize]
  exact if_neg h

theorem size_lt : s.size a < g.rxSize := Ring.count_lt (s.seen a).tail.isLt

theorem count_newTxTail : Ring.count g.txSize (g.newTxTail s.txTail (s.size a)) s.txTail = s.size a := by
  rw [g.newTxTail_eq s.txTail size_lt]
  exact Ring.count_advance s.txTail.isLt (Nat.lt_of_lt_of_le size_lt g.rx_le)

theorem length_chunk : (s.chunk a).length = s.size a := (Ring.length_queued _).trans count_newTxTail

/-- What a round copies goes around the end of neither ring. -/
@[mk_iff fits_iff_and]
structure Fits (s : Server g) (a : Arrivals) : Prop where
  rx : (s.seen a).head + s.size a ≤ g.rxSize
  tx : s.txTail + s.size a ≤ g.txSize

theorem chunk_of_tx (h : s.txTail + s.size a ≤ g.txSize) :
    s.chunk a = Ring.stretch (s.copied a).mem (s.copied a).head (s.size a) := by
  rw [chunk, Ring.queued_eq_stretch (by rw [count_newTxTail]; exact h), count_newTxTail]
  exact Ring.stretch_copy

theorem chunk_of_fits (h : s.Fits a) : s.chunk a = (s.seen a).pending := by
  obtain ⟨new, hgrows⟩ := RxRing.exists_grows (s.seen a) a.beforeCopy
  have hhead : (s.copied a).head = (s.seen a).head := hgrows.head
  rw [chunk_of_tx h.tx, hhead, ← hgrows.frame]
  exact (Ring.queued_eq_stretch h.rx).symm

/-- What the server has exposed is what has been received, but for the bytes that are still in the RX ring, and it has
    written to the TX ring only. -/
structure Faithful (s : Server g) : Prop where
  stream : s.rx.received = s.exposed ++ s.rx.pending
  bounds : ∀ i ∈ s.written, i < g.txSize

theorem left_spec (s : Server g) (a : Arrivals) :
    (s.left a).received = (s.seen a).received ++ (s.left a).pending := by
  obtain ⟨new₁, h₁⟩ := RxRing.exists_grows (s.seen a) a.beforeCopy
  obtain ⟨new₂, h₂⟩ := RxRing.exists_grows (s.copied a) a.beforeHead
  obtain ⟨new₃, h₃⟩ := RxRing.exists_grows
    { (s.copied a).arriveAll a.beforeHead with head := (s.seen a).tail } a.beforeTail
  have hread := h₁.trans h₂
  have hpending : (s.left a).pending = new₁ ++ new₂ ++ new₃ := by
    rw [left, h₃.pending, RxRing.pending_setHead, hread.queued_tail]
  have hreceived : (s.left a).received = (s.seen a).received ++ (new₁ ++ new₂) ++ new₃ := by
    rw [left, h₃.received]
    exact congrArg (· ++ new₃) hread.received
  rw [hreceived, hpending, List.append_assoc]

theorem Faithful.seen (h : s.Faithful) (a : Arrivals) :
    (s.seen a).received = s.exposed ++ (s.seen a).pending := by
  obtain ⟨new, hgrows⟩ := RxRing.exists_grows s.rx a.beforeRead
  rw [Server.seen, hgrows.received, hgrows.pending, h.stream, List.append_assoc]

theorem Faithful.serve (h : s.Faithful) (hfits : s.Fits a) : (s.serve a).Faithful := by
  by_cases hne : (s.seen a).tail = (s.seen a).head
  · rw [serve_of_empty hne]
    exact ⟨h.seen a, h.bounds⟩
  · rw [serve_of_ne hne]
    constructor
    · show (s.left a).received = s.exposed ++ s.chunk a ++ (s.left a).pending
      rw [left_spec, h.seen a, chunk_of_fits hfits]
    · intro i hi
      rcases List.mem_append.mp hi with hi | hi
      · exact h.bounds i hi
      · have hi := List.mem_range'_1.mp hi
        have htx := hfits.tx
        omega

/-! ### Two memories

The positions do not depend on the bytes. A batch that goes around the end of the RX ring is read from behind it, where
no packet is placed: two servers that differ there only cannot both be right. -/

structure Twin (s s' : Server g) : Prop where
  rx : s.rx.Like s'.rx
  txTail : s'.txTail = s.txTail
  length : s'.exposed.length = s.exposed.length

variable {s' : Server g}

namespace Twin

theorem seen (h : Twin s s') (a : Arrivals) : (s.seen a).Like (s'.seen a) := h.rx.arriveAll a.beforeRead

theorem size (h : Twin s s') (a : Arrivals) : s'.size a = s.size a := by
  rw [Server.size, (h.seen a).tail, (h.seen a).head, Server.size]

theorem left (h : Twin s s') (a : Arrivals) : (s.left a).Like (s'.left a) := by
  have hcopied : (s.copied a).Like (s'.copied a) := (h.seen a).arriveAll a.beforeCopy
  have hread := hcopied.arriveAll a.beforeHead
  have hset : RxRing.Like { (s.copied a).arriveAll a.beforeHead with head := (s.seen a).tail }
      { (s'.copied a).arriveAll a.beforeHead with head := (s'.seen a).tail } :=
    ⟨(h.seen a).tail, hread.tail, hread.received⟩
  exact hset.arriveAll a.beforeTail

theorem fits_iff (h : Twin s s') (a : Arrivals) : s'.Fits a ↔ s.Fits a := by
  rw [fits_iff_and, fits_iff_and, h.size a, (h.seen a).head, h.txTail]

theorem serve (h : Twin s s') (a : Arrivals) : Twin (s.serve a) (s'.serve a) := by
  have hseen := h.seen a
  by_cases hne : (s.seen a).tail = (s.seen a).head
  · rw [serve_of_empty hne, serve_of_empty (by rw [hseen.tail, hseen.head, hne])]
    exact ⟨hseen, h.txTail, h.length⟩
  · rw [serve_of_ne hne, serve_of_ne (by rw [hseen.tail, hseen.head]; exact hne)]
    refine ⟨h.left a, ?_, ?_⟩
    · show g.newTxTail s'.txTail (s'.size a) = g.newTxTail s.txTail (s.size a)
      rw [h.txTail, h.size a]
    · show (s'.exposed ++ s'.chunk a).length = (s.exposed ++ s.chunk a).length
      rw [List.length_append, List.length_append, length_chunk, length_chunk, h.length, h.size a]

theorem run (h : Twin s s') (as : List Arrivals) : Twin (as.foldl Server.serve s) (as.foldl Server.serve s') := by
  induction as generalizing s s' with
  | nil => exact h
  | cons a as ih => exact ih (h.serve a)

theorem exposed (h : Twin s s') (hs : s.Faithful) (hs' : s'.Faithful) : s'.exposed = s.exposed := by
  have hreceived := h.rx.received
  rw [hs.stream, hs'.stream] at hreceived
  exact (List.append_inj hreceived h.length).1

end Twin

theorem copied_mem (s : Server g) (a : Arrivals) {i : Nat} (hi : g.rxSize ≤ i) : (s.copied a).mem i = s.rx.mem i := by
  obtain ⟨new₁, h₁⟩ := RxRing.exists_grows s.rx a.beforeRead
  obtain ⟨new₂, h₂⟩ := RxRing.exists_grows (s.seen a) a.beforeCopy
  exact (h₁.trans h₂).mem i hi

theorem left_mem (s : Server g) (a : Arrivals) {i : Nat} (hi : g.rxSize ≤ i) : (s.left a).mem i = s.rx.mem i := by
  obtain ⟨new₁, h₁⟩ := RxRing.exists_grows (s.copied a) a.beforeHead
  obtain ⟨new₂, h₂⟩ := RxRing.exists_grows
    { (s.copied a).arriveAll a.beforeHead with head := (s.seen a).tail } a.beforeTail
  calc (s.left a).mem i = ((s.copied a).arriveAll a.beforeHead).mem i := h₂.mem i hi
    _ = (s.copied a).mem i := h₁.mem i hi
    _ = s.rx.mem i := s.copied_mem a hi

theorem run_mem (s : Server g) (as : List Arrivals) {i : Nat} (hi : g.rxSize ≤ i) :
    (as.foldl serve s).rx.mem i = s.rx.mem i := by
  induction as generalizing s with
  | nil => rfl
  | cons a as ih =>
    rw [List.foldl_cons, ih]
    by_cases hne : (s.seen a).tail = (s.seen a).head
    · obtain ⟨new, hgrows⟩ := RxRing.exists_grows s.rx a.beforeRead
      rw [serve_of_empty hne]
      exact hgrows.mem i hi
    · rw [serve_of_ne hne]
      exact s.left_mem a hi

/-! ### Batches that do not fit -/

theorem size_eq_zero_iff : s.size a = 0 ↔ (s.seen a).tail = (s.seen a).head := by
  rw [size, Ring.count_eq_zero_iff (s.seen a).tail.isLt (s.seen a).head.isLt, Fin.val_inj]

theorem mem_written {i : Nat} (h : i < s.size a) : s.txTail + i ∈ (s.serve a).written := by
  have hne : (s.seen a).tail ≠ (s.seen a).head := fun heq => by
    rw [size_eq_zero_iff.mpr heq] at h
    exact Nat.not_lt_zero i h
  rw [serve_of_ne hne]
  exact List.mem_append_right _ (List.mem_range'_1.mpr ⟨Nat.le_add_right _ _, Nat.add_lt_add_left h _⟩)

theorem fits_tx_of_bounds (h : (s.serve a).Faithful) : s.txTail + s.size a ≤ g.txSize := by
  have htail := s.txTail.isLt
  by_contra hover
  have hlast := h.bounds _ (mem_written (by omega : s.size a - 1 < s.size a))
  omega

theorem chunk_behind (htx : s.txTail + s.size a ≤ g.txSize) (hrx : g.rxSize < (s.seen a).head + s.size a) :
    (s.chunk a)[g.rxSize - (s.seen a).head]? = some (s.rx.mem g.rxSize) := by
  obtain ⟨new, hgrows⟩ := RxRing.exists_grows (s.seen a) a.beforeCopy
  have hhead : (s.copied a).head = (s.seen a).head := hgrows.head
  have hlt := (s.seen a).head.isLt
  rw [chunk_of_tx htx, hhead, Ring.stretch, List.getElem?_map, List.getElem?_range (by omega), Option.map_some,
    Nat.add_sub_cancel' (Nat.le_of_lt hlt), s.copied_mem a (Nat.le_refl _)]

theorem fits_of_twins (h : Twin s s') (hmem : s.rx.mem g.rxSize ≠ s'.rx.mem g.rxSize) (hs : (s.serve a).Faithful)
    (hs' : (s'.serve a).Faithful) : s.Fits a := by
  refine ⟨?_, fits_tx_of_bounds hs⟩
  by_contra hover
  have hne : (s.seen a).tail ≠ (s.seen a).head := fun heq => by
    have hsize := size_eq_zero_iff.mpr heq
    have hlt := (s.seen a).head.isLt
    omega
  have hne' : (s'.seen a).tail ≠ (s'.seen a).head := by rwa [(h.seen a).tail, (h.seen a).head]
  have hexposed := (h.serve a).exposed hs hs'
  rw [serve_of_ne hne, serve_of_ne hne'] at hexposed
  have hchunk : s'.chunk a = s.chunk a := (List.append_inj hexposed h.length).2
  have hbyte := chunk_behind (fits_tx_of_bounds hs) (Nat.lt_of_not_le hover)
  have hbyte' := chunk_behind (fits_tx_of_bounds hs') (by rw [(h.seen a).head, h.size a]; exact Nat.lt_of_not_le hover)
  rw [hchunk, (h.seen a).head, hbyte] at hbyte'
  exact hmem (Option.some.inj hbyte')

/-! ### Packet by packet -/

structure Idle (s : Server g) (rx tx : Nat) : Prop where
  head : s.rx.head.1 = rx
  tail : s.rx.tail.1 = rx
  txTail : s.txTail.1 = tx

variable {rx tx : Nat} {packet : List UInt8}

theorem Idle.grows (h : s.Idle rx tx) (hlen : packet.length < g.rxSize) :
    RxRing.Grows s.rx (s.seen { beforeRead := [packet] }) packet := by
  have hfits : Ring.count g.rxSize s.rx.tail s.rx.head + packet.length < g.rxSize := by
    rw [h.tail, ← h.head, Ring.count_self s.rx.head.isLt, Nat.zero_add]
    exact hlen
  have hseen : s.seen { beforeRead := [packet] } = packet.foldl RxRing.put s.rx := if_pos hfits
  rw [hseen]
  exact RxRing.grows_puts packet hfits

theorem Idle.size (h : s.Idle rx tx) (hlen : packet.length < g.rxSize) :
    s.size { beforeRead := [packet] } = packet.length := by
  have hgrows := h.grows hlen
  rw [Server.size, hgrows.head, hgrows.count s.rx.head (Nat.le_refl _), h.tail, ← h.head,
    Ring.count_self s.rx.head.isLt, Nat.zero_add]

theorem Idle.serve (h : s.Idle rx tx) (hlen : packet.length < g.rxSize) :
    (s.serve { beforeRead := [packet] }).Idle ((rx + packet.length) % g.rxSize) ((tx + packet.length) % g.txSize) := by
  have hsize := h.size hlen
  have hgrows := h.grows hlen
  have htail : (s.seen { beforeRead := [packet] }).tail.1 = (rx + packet.length) % g.rxSize := by
    rw [← Ring.slot_count (s.seen { beforeRead := [packet] }).tail.isLt s.rx.head.isLt, ← hsize, h.head, Server.size,
      hgrows.head, h.head]
  have htx : (g.newTxTail s.txTail (s.size { beforeRead := [packet] })).1 = (tx + packet.length) % g.txSize := by
    rw [g.newTxTail_eq s.txTail size_lt, hsize, h.txTail]
  by_cases hne : (s.seen { beforeRead := [packet] }).tail = (s.seen { beforeRead := [packet] }).head
  · have hzero : packet.length = 0 := by rw [← hsize, size_eq_zero_iff, hne]
    rw [serve_of_empty hne]
    refine ⟨?_, htail, ?_⟩
    · rw [← hne, htail]
    · rw [hzero, Nat.add_zero, ← h.txTail, Nat.mod_eq_of_lt s.txTail.isLt]
  · rw [serve_of_ne hne]
    exact ⟨htail, htail, htx⟩

theorem Idle.run (h : s.Idle rx tx) (packets : List (List UInt8)) (hlen : ∀ p ∈ packets, p.length < g.rxSize) :
    ((packets.map fun p => { beforeRead := [p] }).foldl Server.serve s).Idle
      ((rx + packets.flatten.length) % g.rxSize) ((tx + packets.flatten.length) % g.txSize) := by
  induction packets generalizing s rx tx with
  | nil =>
    have hrx : rx < g.rxSize := h.head ▸ s.rx.head.isLt
    have htx : tx < g.txSize := h.txTail ▸ s.txTail.isLt
    rw [List.flatten_nil, List.length_nil, Nat.add_zero, Nat.add_zero, Nat.mod_eq_of_lt hrx, Nat.mod_eq_of_lt htx]
    exact h
  | cons packet packets ih =>
    have hrest := ih (h.serve (hlen packet List.mem_cons_self)) fun p hp => hlen p (List.mem_cons_of_mem _ hp)
    rw [Nat.mod_add_mod, Nat.mod_add_mod, Nat.add_assoc, Nat.add_assoc] at hrest
    rw [List.flatten_cons, List.length_append]
    exact hrest

end Server

open Server

/-- The server as it starts, with the RX ring empty at `head`. -/
def start {g : Rings} (head : Fin g.rxSize) (txTail : Fin g.txSize) (rxMem txMem : Nat → UInt8) : Server g :=
  { rx := { mem := rxMem, head, tail := head }, txMem, txTail }

theorem testUdpServerBlock_eq {g : Rings} (head : Fin g.rxSize) (txTail : Fin g.txSize) (rxMem txMem : Nat → UInt8)
    (as : List Arrivals) :
    testUdpServerBlock txTail txTail { mem := rxMem, head, tail := head } txMem as =
      as.foldl serve (start head txTail rxMem txMem) := by
  simp [testUdpServerBlock, start]

theorem faithful_start {g : Rings} (head : Fin g.rxSize) (txTail : Fin g.txSize) (rxMem txMem : Nat → UInt8) :
    (start head txTail rxMem txMem).Faithful :=
  ⟨(Ring.queued_self rxMem head.isLt).symm, by simp [start]⟩

theorem twin_start {g : Rings} (head : Fin g.rxSize) (txTail : Fin g.txSize) (rxMem txMem rxMem' txMem' : Nat → UInt8) :
    Twin (start head txTail rxMem txMem) (start head txTail rxMem' txMem') :=
  ⟨⟨rfl, rfl, rfl⟩, rfl, rfl⟩

theorem testUdpServerBlock_faithful_iff {g : Rings} (head : Fin g.rxSize) (txTail : Fin g.txSize) (as : List Arrivals) :
    (∀ rxMem txMem pre, pre <+: as →
      (testUdpServerBlock txTail txTail { mem := rxMem, head, tail := head } txMem pre).Faithful) ↔
    Run.Guarded serve (start head txTail (fun _ => 0) (fun _ => 0)) as Fits := by
  simp only [testUdpServerBlock_eq]
  constructor
  · intro h pre a hpre
    have htwin := (twin_start head txTail (fun _ => 0) (fun _ => 0)
      (Function.update (fun _ => 0) g.rxSize 1) (fun _ => 0)).run pre
    have hs := h (fun _ => 0) (fun _ => 0) (pre ++ [a]) hpre
    have hs' := h (Function.update (fun _ => 0) g.rxSize 1) (fun _ => 0) (pre ++ [a]) hpre
    rw [List.foldl_concat] at hs hs'
    refine fits_of_twins htwin ?_ hs hs'
    rw [run_mem _ _ (Nat.le_refl _), run_mem _ _ (Nat.le_refl _)]
    simp [start]
  · intro h rxMem txMem
    refine Run.always_of_guarded (faithful_start head txTail rxMem txMem) (fun s a hs hfits => hs.serve hfits) ?_
    intro pre a hpre
    exact (((twin_start head txTail _ _ rxMem txMem).run pre).fits_iff a).mpr (h pre a hpre)

/-- A packet that goes around the end of the TX ring is written behind it, and one at the end of the RX ring is read
    from behind that. -/
theorem testUdpServerBlock_overruns :
    (let s : Server iocacheRings := testUdpServerBlock ⟨0, by decide⟩ ⟨0, by decide⟩
      { mem := fun _ => 0, head := ⟨0, by decide⟩, tail := ⟨0, by decide⟩ } (fun _ => 0)
      ((List.replicate 6 (List.replicate 1472 7)).map fun p => { beforeRead := [p] })
     8831 ∈ s.written) ∧
    (let s : Server iocacheRings := testUdpServerBlock ⟨8190, by decide⟩ ⟨8190, by decide⟩
      { mem := fun _ => 0, head := ⟨8190, by decide⟩, tail := ⟨8190, by decide⟩ } (fun _ => 0)
      [{ beforeRead := [[1, 2, 3, 4]] }]
     s.rx.received = [1, 2, 3, 4] ∧ s.exposed = [1, 2, 0, 0] ∧ s.written = [8190, 8191, 8192, 8193]) := by
  refine ⟨?_, by decide +kernel⟩
  have hstart : (start (g := iocacheRings) ⟨0, by decide⟩ ⟨0, by decide⟩ (fun _ => 0) (fun _ => 0)).Idle 0 0 :=
    ⟨rfl, rfl, rfl⟩
  have hlen : (List.replicate 1472 (7 : UInt8)).length = 1472 := List.length_replicate
  rw [testUdpServerBlock_eq]
  generalize List.replicate 1472 (7 : UInt8) = packet at hlen ⊢
  have hlt : packet.length < iocacheRings.rxSize := by rw [hlen]; decide
  have hfive := hstart.run (List.replicate 5 packet) fun p hp => by rwa [List.eq_of_mem_replicate hp]
  have htotal : (List.replicate 5 packet).flatten.length = 7360 := by simp [hlen]
  have htail := hfive.txTail
  rw [htotal] at htail
  have hlast := mem_written (i := 1471) (by rw [hfive.size hlt, hlen]; decide)
  rw [htail] at hlast
  rw [List.replicate_succ', List.map_append, List.foldl_append]
  exact hlast

end FireMarshal.Udp
