import Mathlib.Algebra.Ring.Nat
import FireMarshal.Lib.Engine

/-! The TX and RX engines of the accnet device as the driver sees them through their registers, and the
    socket buffers that the driver exchanges with the kernel. -/

namespace FireMarshal.Accnet

/-- `skb_frag_t`: a piece of a page. -/
structure Frag where
  page : Nat
  offset : Nat
  len : Nat
deriving DecidableEq, Repr, Inhabited

/-- `struct sk_buff`, with an identity for the buffer itself. -/
structure Skb where
  id : Nat
  data : Nat
  len : Nat
  headlen : Nat
  frags : List Frag
deriving DecidableEq, Repr, Inhabited

namespace Skb

def nrFrags (skb : Skb) : Nat := skb.frags.length

def nsegments (skb : Skb) : Nat := skb.nrFrags + 1

end Skb

/-- What the driver takes from the kernel. -/
structure Kernel where
  virtToPhys : Nat → Nat
  maxSkbFrags : Nat
  /-- The result of each call of `netdev_alloc_skb`, `none` for `NULL`. -/
  allocSkb : Nat → Option Skb

def plainKernel : Kernel where
  virtToPhys := id
  maxSkbFrags := 17
  allocSkb i := some ⟨i, 4096 * i, 0, 0, []⟩

/-! ### The engines -/

/-- The TX and RX engines accept 64 requests and hold 64 unread completions. -/
def depth : Nat := 64

/-- A 64-bit descriptor, as written to `ACCNET_TX_REQ`. -/
abbrev Desc := BitVec 64

/-- The TX engine: `ACCNET_TX_REQ_COUNT` counts its queued descriptors, `ACCNET_TX_COUNT` its unread
    completions. -/
abbrev TxEngine := Engine Desc Unit

abbrev TxStep := Engine.Step Unit

/-- The RX engine: the requests are the addresses of free buffers, a completion logs the length of the
    frame with the address of the buffer it filled. -/
abbrev RxEngine := Engine Nat Nat

abbrev RxStep := Engine.Step Nat

/-- An entry of the completion log as `ACCNET_RX_COMP_LOG` gives it: 48 bits of address and 16 bits of
    length. -/
def logWord (entry : Nat × Nat) : Nat := entry.1 % 2 ^ 48 * 2 ^ 16 + entry.2 % 2 ^ 16

theorem logWord_addr (entry : Nat × Nat) : (logWord entry >>> 16) &&& 0xffffffffffff = entry.1 % 2 ^ 48 := by
  have hlen : entry.2 % 2 ^ 16 < 2 ^ 16 := Nat.mod_lt _ (by decide)
  rw [show (0xffffffffffff : Nat) = 2 ^ 48 - 1 by decide, Nat.and_two_pow_sub_one_eq_mod,
    Nat.shiftRight_eq_div_pow, logWord]
  omega

end FireMarshal.Accnet
