import FireMarshal.Lib.Ring

/-! The completion queue `sk_buff_cq` of the accnet driver (`accnet.c`, `accnet.h`).

The driver wraps its indices with `& (CONFIG_ACCNET_RING_SIZE - 1)`. The ring size 1280 is no power of
two: the mask is `0x4ff`, whose bit 8 is clear, so an index that starts at 0 runs through `0 .. 255` and
back, and the ring uses 256 of its 1280 entries (`wrap_succ`). -/

namespace FireMarshal.Accnet

def ringSize : Nat := 1280

/-- The number of slots that the masked indices run through. -/
def ringSlots : Nat := 256

/-- The mask `x & (CONFIG_ACCNET_RING_SIZE - 1)`. -/
def wrap (i : Nat) : Nat := i &&& (ringSize - 1)

theorem wrap_succ {i : Nat} (h : i < ringSlots) : wrap (i + 1) = (i + 1) % ringSlots := by
  have all : ∀ i < 256, (i + 1) &&& 1279 = (i + 1) % 256 := by decide +kernel
  exact all i h

theorem wrap_succ_lt {i : Nat} (h : i < ringSlots) : wrap (i + 1) < ringSlots := by
  rw [wrap_succ h]
  exact Nat.mod_lt _ (by decide)

/-- `struct sk_buff_cq`; the entries hold pointers to buffers of type `α`. -/
structure SkBuffCq (α : Type) where
  entries : Nat → α
  head : Nat
  tail : Nat
  head_lt : head < ringSlots
  tail_lt : tail < ringSlots

namespace SkBuffCq

variable {α : Type}

/-- `sk_buff_cq_init`; the entries keep what the memory holds. -/
def init (entries : Nat → α) : SkBuffCq α where
  entries := entries
  head := 0
  tail := 0
  head_lt := by decide
  tail_lt := by decide

def isFull (cq : SkBuffCq α) : Bool := wrap (cq.head + 1) == cq.tail

def isEmpty (cq : SkBuffCq α) : Bool := cq.head == cq.tail

/-- `sk_buff_cq_push`: a push on a full queue only prints a message. -/
def push (cq : SkBuffCq α) (skb : α) : SkBuffCq α :=
  if cq.isFull then cq
  else
    { cq with
      entries := Function.update cq.entries cq.head skb
      head := wrap (cq.head + 1)
      head_lt := wrap_succ_lt cq.head_lt }

/-- `sk_buff_cq_pop`: a pop on an empty queue prints a message and returns `NULL`. -/
def pop (cq : SkBuffCq α) : Option α × SkBuffCq α :=
  if cq.isEmpty then (none, cq)
  else (some (cq.entries cq.tail), { cq with tail := wrap (cq.tail + 1), tail_lt := wrap_succ_lt cq.tail_lt })

def contents (cq : SkBuffCq α) : List α := Ring.queued ringSlots cq.entries cq.head cq.tail

@[simp] theorem contents_init (entries : Nat → α) : (init entries).contents = [] :=
  Ring.queued_self entries (init entries).head_lt

theorem isEmpty_iff {cq : SkBuffCq α} : cq.isEmpty = true ↔ cq.contents = [] := by
  rw [contents, Ring.queued_eq_nil_iff cq.head_lt cq.tail_lt, isEmpty, beq_iff_eq]

theorem isFull_iff {cq : SkBuffCq α} : cq.isFull = true ↔ cq.contents.length = 255 := by
  rw [isFull, beq_iff_eq, wrap_succ cq.head_lt, Ring.next_eq_tail_iff cq.head_lt cq.tail_lt, contents,
    Ring.length_queued]
  exact Nat.succ_inj

theorem length_contents_le (cq : SkBuffCq α) : cq.contents.length ≤ 255 := by
  rw [contents, Ring.length_queued]
  exact Nat.lt_succ_iff.mp (Ring.count_lt cq.head_lt)

theorem contents_push {cq : SkBuffCq α} (skb : α) (h : cq.contents.length < 255) :
    (cq.push skb).contents = cq.contents ++ [skb] := by
  have hfull : cq.isFull = false := by
    rw [← Bool.not_eq_true, isFull_iff]
    omega
  have hne : (cq.head + 1) % ringSlots ≠ cq.tail := by
    rw [← wrap_succ cq.head_lt]
    simpa [isFull] using hfull
  simp only [push, hfull, Bool.false_eq_true, if_false, contents, wrap_succ cq.head_lt]
  exact Ring.queued_push cq.head_lt cq.tail_lt hne skb

theorem push_of_full {cq : SkBuffCq α} {skb : α} (h : cq.contents.length = 255) : cq.push skb = cq := by
  simp only [push, isFull_iff.mpr h, if_true]

theorem head_ne_tail (cq : SkBuffCq α) (h : cq.contents ≠ []) : cq.head ≠ cq.tail := fun heq => by
  refine h (isEmpty_iff.mp ?_)
  simp [isEmpty, heq]

theorem entries_tail {cq : SkBuffCq α} {skb : α} {rest : List α} (h : cq.contents = skb :: rest) :
    cq.entries cq.tail = skb := by
  have hne := head_ne_tail cq (by simp [h])
  rw [contents, Ring.queued_pop cq.head_lt cq.tail_lt hne] at h
  exact (List.cons.inj h).1

theorem pop_of_cons {cq : SkBuffCq α} {skb : α} {rest : List α} (h : cq.contents = skb :: rest) :
    cq.pop.1 = some skb ∧ cq.pop.2.contents = rest := by
  have hne := head_ne_tail cq (by simp [h])
  have hempty : cq.isEmpty = false := by simp [isEmpty, hne]
  simp only [pop, hempty, Bool.false_eq_true, if_false]
  refine ⟨by rw [entries_tail h], ?_⟩
  rw [contents, Ring.queued_pop cq.head_lt cq.tail_lt hne] at h
  simp only [contents, wrap_succ cq.tail_lt]
  exact (List.cons.inj h).2

end SkBuffCq
end FireMarshal.Accnet
