import FireMarshal.Theorems.Accnet.Recv

/-! Failed allocations. `alloc_recv` hands the result of `netdev_alloc_skb` to `post_recv` without a look, and
    `post_recv` reads the buffer before it posts anything: a failed allocation posts nothing and pushes nothing,
    but the driver uses a `NULL` buffer. Reception goes on exactly as long as no allocation fails and `recv_cq`
    has room for what `alloc_recv` asks for. -/

namespace FireMarshal.Accnet

variable {k : Kernel} {cap : Nat}

namespace Rx

variable {s : Rx}

/-- The driver used no `NULL` buffer, `recv_cq` holds as many buffers as were posted and not yet completed, and a
    poll whose allocations succeed posts as many buffers as the engine has room for. -/
structure Supplied (k : Kernel) (cap : Nat) (s : Rx) : Prop where
  noFault : s.fault = false
  inStep : s.recvCq.contents.length = s.eng.outstanding.length
  refills : ∀ (budget : Int) (script : List (List RxStep)) (t : Rx),
    t = (completeRecv cap { s with script := script } budget).1 → t.Refillable k cap →
      (s.poll k cap budget script).fault = false ∧
      (s.poll k cap budget script).eng.outstanding.length =
        t.eng.outstanding.length + (t.tick cap).recvReqAvail.toNat ∧
      (s.poll k cap budget script).recvCq.contents.length = (s.poll k cap budget script).eng.outstanding.length

theorem Inv.inStep (h : Inv k cap s) : s.recvCq.contents.length = s.eng.outstanding.length := by
  rw [← h.inOrder, List.length_map]

theorem Inv.supplied (h : Inv k cap s) : s.Supplied k cap where
  noFault := h.noFault
  inStep := h.inStep
  refills budget script t ht hr := by
    have hinv : Inv k cap t := by rw [ht]; exact completeRecv_inv (h.script script) budget
    have hafter := (allocRecv_inv hinv hr).script []
    have hpoll : s.poll k cap budget script = { allocRecv k cap t with script := [] } := by rw [poll, ht]
    rw [hpoll]
    exact ⟨hafter.noFault, allocRecv_outstanding hinv.bounded hr.allocs, hafter.inStep⟩

/-! ### A failed allocation -/

theorem allocRecvLoop_fault {n i : Nat} (hi : i < n) (hnull : k.allocSkb (s.allocs + i) = none) :
    (allocRecvLoop k cap n s).fault = true := by
  induction n generalizing s i with
  | zero => omega
  | succ n ih =>
    simp only [allocRecvLoop]
    split
    · rfl
    · next skb hskb =>
      cases i with
      | zero =>
        rw [Nat.add_zero, hskb] at hnull
        exact absurd hnull (Option.some_ne_none skb)
      | succ i =>
        refine ih (i := i) (by omega) ?_
        show k.allocSkb (s.allocs + 1 + i) = none
        rw [Nat.add_assoc, Nat.add_comm 1]
        exact hnull

theorem Inv.not_supplied (h : Inv k cap s) (hr : ¬ s.Refillable k cap) (σ : List (List RxStep)) :
    ¬ Supplied k cap { allocRecv k cap s with script := σ } := by
  intro hs
  by_cases hk : ∀ i < (s.tick cap).recvReqAvail.toNat, (k.allocSkb (s.allocs + i)).isSome
  · -- The engine holds more buffers than the ring can.
    have hfew : ¬ s.recvCq.contents.length + (s.tick cap).recvReqAvail.toNat ≤ 255 := fun hle => hr ⟨hk, hle⟩
    have hlen : (allocRecv k cap s).recvCq.contents.length = (allocRecv k cap s).eng.outstanding.length := hs.inStep
    rw [allocRecv_outstanding h.bounded hk, ← h.inStep] at hlen
    have := (allocRecv k cap s).recvCq.length_contents_le
    omega
  · simp only [not_forall, Bool.not_eq_true, Option.isSome_eq_false_iff, Option.isNone_iff_eq_none] at hk
    obtain ⟨i, hi, hnull⟩ := hk
    have hfault : (allocRecv k cap s).fault = true := allocRecvLoop_fault (s := s.tick cap) hi hnull
    have hno : (allocRecv k cap s).fault = false := hs.noFault
    simp [hfault] at hno

end Rx

/-! ### Runs -/

theorem Nic.step_not_supplied {s : Nic} (ev : Event) (h : s.rx.Inv k cap) (hr : ¬ s.Refills k cap ev) :
    ¬ (s.step k cap ev).rx.Supplied k cap := by
  cases ev with
  | poll budget txScript rxScript =>
    exact (Rx.completeRecv_inv (h.script rxScript) budget).not_supplied hr []
  | openDev script => exact (h.script script).not_supplied hr []
  | _ => exact absurd trivial hr

theorem supplied_iff_refills (k : Kernel) (cap : Nat) (evs : List Event) :
    Run.Always (Nic.step k cap) Nic.init evs (fun s => s.rx.Supplied k cap) ↔
      Run.Guarded (Nic.step k cap) Nic.init evs (Nic.Refills k cap) :=
  Run.always_iff_guarded Nic.init_rxInv (fun _ ev => Nic.step_rxInv ev) (fun _ h => h.supplied)
    fun _ ev => Nic.step_not_supplied ev

def shortKernel : Kernel :=
  { plainKernel with allocSkb := fun i => if i = 2 then none else plainKernel.allocSkb i }

theorem open_uses_null : ¬ Run.Always (Nic.step shortKernel 127) Nic.init [.openDev []]
    fun s => s.rx.Supplied shortKernel 127 := by
  intro h
  have hno := (h _ (List.prefix_refl _)).noFault
  revert hno
  decide +kernel

end FireMarshal.Accnet
