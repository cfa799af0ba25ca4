import FireMarshal.Lib.Run
import FireMarshal.Accnet.Driver

/-! Reception over whole runs of the accnet driver: `recv_cq` and the RX engine hold the same buffers in the
    same order, although the driver never looks at the address of a completion. -/

namespace FireMarshal.Accnet

variable {k : Kernel} {cap : Nat}

def Kernel.dmaAddr (k : Kernel) (skb : Skb) : Nat := k.virtToPhys skb.data

namespace Rx

variable {s : Rx}

/-- A round of `complete_recv` took the buffer that the entry of the completion log names. -/
structure Matches (k : Kernel) (r : Recv) : Prop where
  addr : r.addr = r.logged.1 % 2 ^ 48
  buffer : k.dmaAddr r.skb = r.logged.1

/-- `recv_cq` holds exactly the buffers whose addresses the engine holds, in posting order; every round took
    the buffer of its entry; the driver used no `NULL` buffer and lost none. -/
structure Lockstep (k : Kernel) (s : Rx) : Prop where
  inOrder : s.recvCq.contents.map k.dmaAddr = s.eng.outstanding
  matched : ∀ r ∈ s.received, Matches k r
  noFault : s.fault = false
  noOverflow : s.overflow = false

structure Inv (k : Kernel) (cap : Nat) (s : Rx) : Prop extends Lockstep k s where
  bounded : s.eng.Bounded depth cap

theorem Inv.progress {e : RxEngine} {σ : List (List RxStep)} (h : Inv k cap s)
    (hp : Engine.Progress depth cap s.eng e) : Inv k cap { s with eng := e, script := σ } :=
  ⟨⟨h.inOrder.trans hp.outstanding.symm, h.matched, h.noFault, h.noOverflow⟩, hp.bounded h.bounded⟩

theorem tick_progress (s : Rx) (cap : Nat) : Engine.Progress depth cap s.eng (s.tick cap).eng := .foldl _ _ _ _

theorem Inv.tick (h : Inv k cap s) : Inv k cap (s.tick cap) := h.progress (.foldl _ _ _ _)

/-! ### `complete_recv` -/

theorem completeRecvLoop_inv {n : Nat} (h : Inv k cap s) (hn : n ≤ s.eng.comps.length) :
    Inv k cap (completeRecvLoop cap n s) := by
  induction n generalizing s with
  | zero => exact h
  | succ n ih =>
    have ht : Inv k cap (s.tick cap) := h.tick
    have hle := (s.tick_progress cap).comps.length_le
    obtain ⟨c, hc, hout, hlen⟩ := Engine.read_of_pos (e := (s.tick cap).eng) (by omega)
    -- The engine holds an address, so the queue holds its buffer.
    obtain ⟨skb, q, hq, haddr, hrest⟩ := List.map_eq_cons_iff.mp (ht.inOrder.trans hout)
    obtain ⟨cq, hpop, hcq⟩ : ∃ cq, (s.tick cap).recvCq.pop = (some skb, cq) ∧ cq.contents = q :=
      ⟨_, Prod.ext (SkBuffCq.pop_of_cons hq).1 rfl, (SkBuffCq.pop_of_cons hq).2⟩
    have hhead : (s.tick cap).eng.comps.headD (0, 0) = c := by rw [List.headD_eq_head?_getD, hc, Option.getD_some]
    simp only [completeRecvLoop, hhead, hpop]
    refine ih ⟨⟨by rw [hcq, hrest], fun r hr => ?_, ht.noFault, ht.noOverflow⟩, ht.bounded.read⟩ ?_
    · rcases List.mem_append.mp hr with hr | hr
      · exact ht.matched r hr
      · obtain rfl := List.mem_singleton.mp hr
        exact ⟨logWord_addr c, haddr⟩
    · show n ≤ (s.tick cap).eng.read.comps.length
      omega

theorem completeRecv_inv (h : Inv k cap s) (budget : Int) : Inv k cap (completeRecv cap s budget).1 := by
  have ht : Inv k cap (s.tick cap) := h.tick
  have hc : (s.tick cap).eng.comps.length ≤ 64 := ht.bounded.comps
  have havail : (s.tick cap).recvCompAvail = (s.tick cap).eng.comps.length := by
    rw [recvCompAvail, Nat.mod_eq_of_lt (by omega)]
  refine completeRecvLoop_inv ht ?_
  rw [havail]
  split <;> omega

/-! ### `alloc_recv` -/

theorem postRecv_eng (k : Kernel) (cap : Nat) (s : Rx) (skb : Skb) (hroom : s.eng.queued.length < 64) :
    (s.postRecv k cap skb).eng.outstanding =
        s.eng.outstanding ++ [k.dmaAddr { skb with data := dmaPtrAlign skb.data }] ∧
      (s.postRecv k cap skb).eng.queued.length ≤ s.eng.queued.length + 1 ∧
      (s.eng.Bounded depth cap → (s.postRecv k cap skb).eng.Bounded depth cap) := by
  have hp := s.tick_progress cap
  have hlt : (s.tick cap).eng.queued.length < depth := Nat.lt_of_le_of_lt hp.queued hroom
  refine ⟨?_, ?_, fun hb => (hp.bounded hb).request⟩
  · simp only [postRecv]
    rw [Engine.outstanding_request hlt, hp.outstanding]
    rfl
  · exact Nat.le_trans Engine.length_queued_request (Nat.succ_le_succ hp.queued)

theorem allocRecvLoop_spec (cap : Nat) {n : Nat} (hk : ∀ i < n, (k.allocSkb (s.allocs + i)).isSome)
    (hroom : s.eng.queued.length + n ≤ 64) :
    ∃ new : List Skb, new.length = n ∧
      (allocRecvLoop k cap n s).eng.outstanding = s.eng.outstanding ++ new.map k.dmaAddr ∧
      (s.eng.Bounded depth cap → (allocRecvLoop k cap n s).eng.Bounded depth cap) ∧
      (allocRecvLoop k cap n s).received = s.received ∧ (allocRecvLoop k cap n s).fault = s.fault ∧
      (s.recvCq.contents.length + n ≤ 255 →
        (allocRecvLoop k cap n s).recvCq.contents = s.recvCq.contents ++ new ∧
          (allocRecvLoop k cap n s).overflow = s.overflow) := by
  induction n generalizing s with
  | zero => exact ⟨[], rfl, by simp [allocRecvLoop], id, rfl, rfl, fun _ => ⟨by simp [allocRecvLoop], rfl⟩⟩
  | succ n ih =>
    obtain ⟨skb, hskb⟩ := Option.isSome_iff_exists.mp (hk 0 (by omega))
    have hk' : ∀ i < n, (k.allocSkb (s.allocs + 1 + i)).isSome := fun i hi => by
      rw [Nat.add_assoc, Nat.add_comm 1]
      exact hk (i + 1) (by omega)
    obtain ⟨hout, hqueued, hb⟩ :=
      postRecv_eng k cap { s with allocs := s.allocs + 1 } skb
        (show s.eng.queued.length < 64 by omega)
    obtain ⟨new, hlen, hout', hb', hrec, hfault, hcq⟩ :=
      ih (s := { s with allocs := s.allocs + 1 }.postRecv k cap skb) hk' (by simp only at hqueued; omega)
    rw [Nat.add_zero] at hskb
    simp only [allocRecvLoop, hskb]
    refine ⟨{ skb with data := dmaPtrAlign skb.data } :: new, by simp [hlen], ?_, hb' ∘ hb, hrec, hfault,
      fun hfit => ?_⟩
    · rw [hout', hout]
      simp
    · have hlt : s.recvCq.contents.length < 255 := by omega
      have hpush := SkBuffCq.contents_push { skb with data := dmaPtrAlign skb.data } hlt
      have hfull : s.recvCq.isFull = false := by
        rw [← Bool.not_eq_true, SkBuffCq.isFull_iff]
        omega
      obtain ⟨hcq', hover⟩ := hcq (by
        show (s.recvCq.push _).contents.length + n ≤ 255
        rw [hpush, List.length_append, List.length_singleton]
        omega)
      refine ⟨?_, hover.trans ?_⟩
      · rw [hcq']
        show (s.recvCq.push _).contents ++ new = _
        rw [hpush]
        simp
      · show (s.overflow || s.recvCq.isFull) = s.overflow
        rw [hfull, Bool.or_false]

theorem recvReqAvail_eq (hb : s.eng.Bounded depth cap) :
    s.eng.queued.length + s.recvReqAvail.toNat = 64 := by
  have hq : s.eng.queued.length ≤ 64 := hb.queued
  rw [recvReqAvail]
  omega

structure Refillable (k : Kernel) (cap : Nat) (s : Rx) : Prop where
  allocs : ∀ i < (s.tick cap).recvReqAvail.toNat, (k.allocSkb (s.allocs + i)).isSome
  ring : s.recvCq.contents.length + (s.tick cap).recvReqAvail.toNat ≤ 255

theorem Inv.refillable (h : Inv k cap s) (hk : ∀ i, (k.allocSkb i).isSome) (hcap : cap ≤ 127) :
    s.Refillable k cap := by
  have ht : Inv k cap (s.tick cap) := h.tick
  refine ⟨fun i _ => hk _, ?_⟩
  have havail := recvReqAvail_eq ht.bounded
  have hc : (s.tick cap).eng.comps.length ≤ 64 := ht.bounded.comps
  have hi := ht.bounded.inflight
  have heq := congrArg List.length ht.inOrder
  rw [List.length_map, Engine.length_outstanding] at heq
  have hcq : (s.tick cap).recvCq = s.recvCq := rfl
  rw [hcq] at heq
  omega

theorem allocRecv_inv (h : Inv k cap s) (hr : s.Refillable k cap) : Inv k cap (allocRecv k cap s) := by
  have ht : Inv k cap (s.tick cap) := h.tick
  obtain ⟨new, hlen, hout, hb, hrec, hfault, hcq⟩ :=
    allocRecvLoop_spec cap (s := s.tick cap) hr.allocs (Nat.le_of_eq (recvReqAvail_eq ht.bounded))
  obtain ⟨hcq, hover⟩ := hcq hr.ring
  refine ⟨⟨?_, ?_, hfault.trans ht.noFault, hover.trans ht.noOverflow⟩, hb ht.bounded⟩
  · rw [allocRecv, hcq, hout, List.map_append, ht.inOrder]
  · rw [allocRecv, hrec]
    exact ht.matched

theorem allocRecv_outstanding (hb : s.eng.Bounded depth cap)
    (hk : ∀ i < (s.tick cap).recvReqAvail.toNat, (k.allocSkb (s.allocs + i)).isSome) :
    (allocRecv k cap s).eng.outstanding.length = s.eng.outstanding.length + (s.tick cap).recvReqAvail.toNat := by
  have hp := s.tick_progress cap
  obtain ⟨new, hlen, hout, -⟩ :=
    allocRecvLoop_spec cap (s := s.tick cap) hk (Nat.le_of_eq (recvReqAvail_eq (hp.bounded hb)))
  rw [allocRecv, hout, List.length_append, List.length_map, hlen, hp.outstanding]

end Rx

/-! ### Runs -/

/-- The condition on a step of a run that keeps reception going: its call of `alloc_recv`, if any, gets its
    buffers and can store them. -/
def Nic.Refills (k : Kernel) (cap : Nat) (s : Nic) : Event → Prop
  | .poll budget _ rxScript => (Rx.completeRecv cap { s.rx with script := rxScript } budget).1.Refillable k cap
  | .openDev script => Rx.Refillable k cap { s.rx with script := script }
  | _ => True

theorem Rx.Inv.script {s : Rx} (h : s.Inv k cap) (σ : List (List RxStep)) : Inv k cap { s with script := σ } :=
  h.progress (.refl _)

theorem Rx.Inv.refills {s : Nic} (h : s.rx.Inv k cap) (hk : ∀ i, (k.allocSkb i).isSome) (hcap : cap ≤ 127)
    (ev : Event) : s.Refills k cap ev := by
  cases ev with
  | poll budget txScript rxScript => exact (completeRecv_inv (h.script rxScript) budget).refillable hk hcap
  | openDev script => exact (h.script script).refillable hk hcap
  | _ => trivial

theorem Nic.step_rxInv {s : Nic} (ev : Event) (h : s.rx.Inv k cap) (hr : s.Refills k cap ev) :
    (s.step k cap ev).rx.Inv k cap := by
  cases ev with
  | startXmit skb script => exact h
  | poll budget txScript rxScript =>
    exact (Rx.allocRecv_inv (Rx.completeRecv_inv (h.script rxScript) budget) hr).script []
  | openDev script => exact (Rx.allocRecv_inv (h.script script) hr).script []
  | stop => exact h
  | txEngine st => exact h
  | rxEngine st => exact h.progress (.step _ _ _ _)

theorem Nic.init_rxInv : Nic.init.rx.Inv k cap :=
  ⟨⟨by simp [Nic.init], by simp [Nic.init], rfl, rfl⟩, Engine.bounded_init⟩

/-- The condition on a step of a run that keeps the lockstep: `recv_cq` has room for all buffers that `alloc_recv`
    posts, so that no push finds 255 of them there. -/
def Nic.PostsBelow (cap : Nat) (s : Nic) : Event → Prop
  | .poll budget _ rxScript =>
    let t := (Rx.completeRecv cap { s.rx with script := rxScript } budget).1
    t.recvCq.contents.length + (t.tick cap).recvReqAvail.toNat ≤ 255
  | .openDev script =>
    let t := { s.rx with script := script }
    t.recvCq.contents.length + (t.tick cap).recvReqAvail.toNat ≤ 255
  | _ => True

theorem Nic.PostsBelow.refills {s : Nic} {ev : Event} (hk : ∀ i, (k.allocSkb i).isSome) (h : s.PostsBelow cap ev) :
    s.Refills k cap ev := by
  cases ev with
  | poll budget txScript rxScript => exact ⟨fun i _ => hk _, h⟩
  | openDev script => exact ⟨fun i _ => hk _, h⟩
  | _ => trivial

theorem Rx.Inv.not_lockstep {s : Rx} (h : s.Inv k cap) (hk : ∀ i, (k.allocSkb i).isSome)
    (hfew : ¬ s.recvCq.contents.length + (s.tick cap).recvReqAvail.toNat ≤ 255) (σ : List (List RxStep)) :
    ¬ Lockstep k { allocRecv k cap s with script := σ } := by
  intro hs
  have hlen := congrArg List.length hs.inOrder
  rw [List.length_map] at hlen
  have hout := allocRecv_outstanding h.bounded fun i _ => hk (s.allocs + i)
  have heq := congrArg List.length h.inOrder
  rw [List.length_map] at heq
  have hle := (allocRecv k cap s).recvCq.length_contents_le
  dsimp only at hlen
  omega

theorem Nic.step_not_lockstep {s : Nic} (hk : ∀ i, (k.allocSkb i).isSome) (ev : Event) (h : s.rx.Inv k cap)
    (hfew : ¬ s.PostsBelow cap ev) : ¬ (s.step k cap ev).rx.Lockstep k := by
  cases ev with
  | poll budget txScript rxScript =>
    exact (Rx.completeRecv_inv (h.script rxScript) budget).not_lockstep hk hfew []
  | openDev script => exact (h.script script).not_lockstep hk hfew []
  | _ => exact absurd trivial hfew

/-- If allocations succeed, exactly the runs in which no push finds 255 buffers in `recv_cq` keep it and the engine in
    lockstep. -/
theorem recv_lockstep_iff (k : Kernel) (hk : ∀ i, (k.allocSkb i).isSome) (cap : Nat) (evs : List Event) :
    Run.Always (Nic.step k cap) Nic.init evs (fun s => s.rx.Lockstep k) ↔
      Run.Guarded (Nic.step k cap) Nic.init evs (Nic.PostsBelow cap) :=
  Run.always_iff_guarded Nic.init_rxInv (fun _ ev h hposts => Nic.step_rxInv ev h (hposts.refills hk))
    (fun _ h => h.toLockstep) fun _ ev => Nic.step_not_lockstep hk ev

theorem recv_lockstep_iff_poll :
    Run.Always (Nic.step plainKernel 127) Nic.init
        [.openDev [], .rxEngine .take, .rxEngine (.complete 60), .poll 64 [] []] (fun s => s.rx.Lockstep plainKernel) ↔
      Run.Guarded (Nic.step plainKernel 127) Nic.init
        [.openDev [], .rxEngine .take, .rxEngine (.complete 60), .poll 64 [] []] (Nic.PostsBelow 127) :=
  recv_lockstep_iff plainKernel (fun _ => rfl) 127 _

/-! ### More buffers in flight -/

theorem recv_lockstep (k : Kernel) (hk : ∀ i, (k.allocSkb i).isSome) (cap : Nat) (hcap : cap ≤ 127)
    (evs : List Event) : Run.Always (Nic.step k cap) Nic.init evs fun s => s.rx.Lockstep k := by
  have hinv : Run.Always (Nic.step k cap) Nic.init evs fun s => s.rx.Inv k cap :=
    Run.always_of_step Nic.init_rxInv fun _ ev h => Nic.step_rxInv ev h (h.refills hk hcap ev)
  exact hinv.mono fun s h => h.toLockstep

def rxBusy : List RxStep := Engine.busy 60 64

theorem Rx.allocRecv_busy (cap : Nat) (hk : ∀ i, (k.allocSkb i).isSome) {s : Rx} (hb : s.eng.Bounded depth cap)
    (hcap : 0 < cap) (hfit : s.eng.outstanding.length ≤ 64 + cap) (hs : s.script.headD [] = rxBusy) :
    (allocRecv k cap s).eng.Bounded depth cap ∧
      (allocRecv k cap s).eng.outstanding.length = s.eng.outstanding.length + 64 := by
  have hp := s.tick_progress cap
  have hnil : (s.tick cap).eng.queued.length = 0 := by
    have hle : (s.tick cap).eng.queued.length ≤ s.eng.outstanding.length - (64 + cap) := by
      rw [Rx.tick, hs, rxBusy]
      exact Engine.length_queued_busy hcap hb hb.queued
    omega
  have havail := Rx.recvReqAvail_eq (hp.bounded hb)
  obtain ⟨new, hlen, hout, hb', -⟩ := Rx.allocRecvLoop_spec cap (fun i _ => hk _) (Nat.le_of_eq havail)
  refine ⟨hb' (hp.bounded hb), ?_⟩
  rw [hnil, Nat.zero_add] at havail
  rw [Rx.allocRecv, hout, List.length_append, List.length_map, hlen, hp.outstanding, havail]

theorem Rx.poll_busy (hk : ∀ i, (k.allocSkb i).isSome) {s : Rx} (hb : s.eng.Bounded depth cap)
    (hcap : 0 < cap) (hfit : s.eng.outstanding.length ≤ 64 + cap) :
    (s.poll k cap 0 [[], rxBusy]).eng.Bounded depth cap ∧
      (s.poll k cap 0 [[], rxBusy]).eng.outstanding.length = s.eng.outstanding.length + 64 := by
  have hzero : (completeRecv cap { s with script := [[], rxBusy] } 0).1 =
      { s with script := [rxBusy] } := by
    have hnone : (if 0 < s.recvCompAvail then 0 else s.recvCompAvail).toNat = 0 := by split <;> omega
    show completeRecvLoop cap (if 0 < s.recvCompAvail then 0 else s.recvCompAvail).toNat _ = _
    rw [hnone]
    rfl
  simp only [Rx.poll, hzero]
  exact Rx.allocRecv_busy cap hk (s := { s with script := [rxBusy] }) hb hcap hfit List.headD_cons

def refill : Event := .poll 0 [] [[], rxBusy]

theorem refills (hk : ∀ i, (k.allocSkb i).isSome) {n : Nat} (hn : n ≤ 3) {s : Nic}
    (hs : s = (Event.openDev [rxBusy] :: List.replicate n refill).foldl (Nic.step k 128) Nic.init) :
    s.rx.eng.Bounded depth 128 ∧ s.rx.eng.outstanding.length = 64 * (n + 1) := by
  induction n generalizing s with
  | zero =>
    have hopen := Rx.allocRecv_busy 128 hk (s := { Nic.init.rx with script := [rxBusy] })
      Engine.bounded_init (by decide) (by decide) List.headD_cons
    simp only [hs, List.replicate_zero, List.foldl_cons, List.foldl_nil, Nic.step, Rx.openRx]
    exact hopen
  | succ n ih =>
    obtain ⟨hb, hlen⟩ := ih (by omega) rfl
    obtain ⟨hb', hlen'⟩ := Rx.poll_busy hk hb (by decide) (by omega)
    rw [hs, List.replicate_succ', ← List.cons_append, List.foldl_append]
    exact ⟨hb', hlen'.trans (by rw [hlen]; omega)⟩

theorem Rx.Lockstep.outstanding_le {s : Rx} (h : s.Lockstep k) : s.eng.outstanding.length ≤ 255 := by
  rw [← h.inOrder, List.length_map]
  exact s.recvCq.length_contents_le

/-- With 128 buffers in flight `alloc_recv` overflows `recv_cq`, which holds 255. -/
theorem recv_not_lockstep : ¬ Run.Always (Nic.step plainKernel 128) Nic.init
    (.openDev [rxBusy] :: List.replicate 3 refill) fun s => s.rx.Lockstep plainKernel := by
  intro h
  have hle := (h _ (List.prefix_refl _)).outstanding_le
  rw [(refills (fun _ => rfl) (Nat.le_refl 3) rfl).2] at hle
  omega

end FireMarshal.Accnet
