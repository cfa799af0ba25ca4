import Mathlib.Data.List.Basic
import Mathlib.Tactic.Common

/-! An echo server behind a network that may delay, drop, duplicate and reorder datagrams. What is in transit may be
    delivered in any order, and at any time. -/

namespace Echo

variable {α : Type}

structure Net (α : Type) where
  requests : List α := []
  replies : List α := []
  queue : List α := []
deriving DecidableEq, Repr

inductive Event where
  | serve (k : Nat)
  | arrive (k : Nat)
  | dropRequest (k : Nat)
  | dropReply (k : Nat)
  | duplicateRequest (k : Nat)
  | duplicateReply (k : Nat)
deriving DecidableEq, Repr

namespace Net

def send (n : Net α) (x : α) : Net α := { n with requests := n.requests ++ [x] }

/-- The client receives the oldest datagram at its socket. -/
def receive (n : Net α) : Net α := { n with queue := n.queue.tail }

def step (n : Net α) : Event → Net α
  | .serve k => { n with requests := n.requests.eraseIdx k, replies := n.replies ++ n.requests[k]?.toList }
  | .arrive k => { n with replies := n.replies.eraseIdx k, queue := n.queue ++ n.replies[k]?.toList }
  | .dropRequest k => { n with requests := n.requests.eraseIdx k }
  | .dropReply k => { n with replies := n.replies.eraseIdx k }
  | .duplicateRequest k => { n with requests := n.requests ++ n.requests[k]?.toList }
  | .duplicateReply k => { n with replies := n.replies ++ n.replies[k]?.toList }

def Holds (n : Net α) (x : α) : Prop := x ∈ n.requests ∨ x ∈ n.replies ∨ x ∈ n.queue

variable {n : Net α} {x y : α}

theorem mem_of_toList {l : List α} {k : Nat} (h : x ∈ l[k]?.toList) : x ∈ l :=
  List.mem_of_getElem? (Option.mem_toList.mp h)

theorem holds_of_step {e : Event} (h : (n.step e).Holds x) : n.Holds x := by
  cases e with
  | serve k =>
    rcases h with h | h | h
    · exact .inl (List.mem_of_mem_eraseIdx h)
    · rcases List.mem_append.mp h with h | h
      · exact .inr (.inl h)
      · exact .inl (mem_of_toList h)
    · exact .inr (.inr h)
  | arrive k =>
    rcases h with h | h | h
    · exact .inl h
    · exact .inr (.inl (List.mem_of_mem_eraseIdx h))
    · rcases List.mem_append.mp h with h | h
      · exact .inr (.inr h)
      · exact .inr (.inl (mem_of_toList h))
  | dropRequest k => exact h.imp_left List.mem_of_mem_eraseIdx
  | dropReply k => exact h.imp_right fun h => h.imp_left List.mem_of_mem_eraseIdx
  | duplicateRequest k =>
    refine h.imp_left fun h => ?_
    rcases List.mem_append.mp h with h | h
    · exact h
    · exact mem_of_toList h
  | duplicateReply k =>
    refine h.imp_right fun h => h.imp_left fun h => ?_
    rcases List.mem_append.mp h with h | h
    · exact h
    · exact mem_of_toList h

theorem holds_of_send (h : (n.send y).Holds x) : n.Holds x ∨ x = y := by
  rcases h with h | h
  · rcases List.mem_append.mp h with h | h
    · exact .inl (.inl h)
    · exact .inr (List.mem_singleton.mp h)
  · exact .inl (.inr h)

theorem holds_of_receive (h : n.receive.Holds x) : n.Holds x :=
  h.imp_right fun h => h.imp_right List.mem_of_mem_tail

end Net

end Echo
