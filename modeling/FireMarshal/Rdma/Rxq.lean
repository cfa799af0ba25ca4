import FireMarshal.Lib.Ring

/-! The queue of receive timestamps of the RDMA timestamp server (`boards/default/app/rdma/server_ts.c`). -/

namespace FireMarshal
namespace Rdma

structure Rxq where
  buf : Nat → BitVec 64 := fun _ => 0
  cap : Nat := 0
  head : Nat := 0
  size : Nat := 0

namespace Rxq

def newcap (q : Rxq) : Nat := if q.cap ≠ 0 then q.cap * 2 else 4096

/-- `malloc` serves requests of up to `limit` bytes; without memory the process exits. What is in the rest of the new
    buffer is never read. -/
def growAndCompact (limit : Nat) (q : Rxq) : Option Rxq :=
  if limit < q.newcap * 8 then none
  else some { buf := Ring.copy (fun _ => 0) 0 q.buf q.head q.size, cap := q.newcap, head := 0, size := q.size }

def push (limit : Nat) (ts : BitVec 64) (q : Rxq) : Option Rxq :=
  (if q.cap = 0 ∨ q.head + q.size ≥ q.cap then q.growAndCompact limit else some q).map fun q =>
    { q with buf := Function.update q.buf (q.head + q.size) ts, size := q.size + 1 }

/-- The timestamp is `none` when `rxq_pop` returns 0. -/
def pop (limit : Nat) (q : Rxq) : Option (Option (BitVec 64) × Rxq) :=
  if q.size = 0 then some (none, q)
  else
    let out := q.buf q.head
    let q := { q with head := q.head + 1, size := q.size - 1 }
    (if q.head > 65536 ∧ q.size < q.cap / 4 then q.growAndCompact limit else some q).map fun q => (some out, q)

inductive Op where
  | push (ts : BitVec 64)
  | pop
deriving DecidableEq, Repr

def step (limit : Nat) (o : Option Rxq) : Op → Option Rxq
  | .push ts => o.bind (push limit ts)
  | .pop => o.bind fun q => (q.pop limit).map (·.2)

end Rxq

end Rdma
end FireMarshal
