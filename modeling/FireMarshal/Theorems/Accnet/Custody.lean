import FireMarshal.Theorems.Accnet.Send

/-! Who owns a buffer: the stack until `accnet_start_xmit` accepts it, the driver until `complete_send`
    consumes it. The driver also releases a buffer that it gives back with `NETDEV_TX_BUSY`, and loses one that
    it accepts while `send_cq` is full; a run keeps custody of all buffers exactly when neither occurs. -/

namespace FireMarshal.Accnet

variable {k : Kernel} {cap : Nat}

namespace Tx

variable {s : Tx}

def accepted (s : Tx) : List Skb := (s.calls.filter (·.ret == .ok)).map (·.skb)

/-- No buffer is released and given back, and each accepted buffer is in the driver's hands or was released,
    once. -/
structure Owned (s : Tx) : Prop where
  busy : ∀ c ∈ s.calls, c.ret = .busy → c.freed = false
  once : s.accepted.Perm (s.freed ++ s.consumed ++ s.sendCq.contents)

/-- `accnet_start_xmit` finds room for the buffer in the engine and in the ring. -/
def HasRoom (cap : Nat) (s : Tx) (skb : Skb) (script : List (List TxStep)) : Prop :=
  (s.engAtCheck cap script).queued.length + skb.nsegments ≤ 64 ∧ s.sendCq.contents.length < 255

/-- What holds as long as every call finds room: only `complete_send` releases buffers. -/
structure Custody (k : Kernel) (cap : Nat) (s : Tx) : Prop where
  inv : s.Inv k cap
  noBusy : ∀ c ∈ s.calls, c.ret = .ok
  noFree : s.freed = []
  inOrder : s.accepted = s.consumed ++ s.sendCq.contents

theorem accepted_append {t : Tx} {c : XmitCall} (h : t.calls = s.calls ++ [c]) :
    t.accepted = s.accepted ++ if c.ret = .ok then [c.skb] else [] := by
  simp only [accepted, h, List.filter_append, List.map_append]
  split <;> simp_all

theorem Custody.congr {t : Tx} (h : Custody k cap s) (hinv : t.Inv k cap) (hcalls : t.calls = s.calls)
    (hfreed : t.freed = s.freed) (hall : t.consumed ++ t.sendCq.contents = s.consumed ++ s.sendCq.contents) :
    Custody k cap t where
  inv := hinv
  noBusy := by rw [hcalls]; exact h.noBusy
  noFree := hfreed.trans h.noFree
  inOrder := by rw [accepted, hcalls, hall]; exact h.inOrder

theorem Custody.owned (h : Custody k cap s) : s.Owned where
  busy c hc hb := by
    have := h.noBusy c hc
    simp [hb] at this
  once := by rw [h.inOrder, h.noFree, List.nil_append]

theorem Custody.xmit {skb : Skb} {script : List (List TxStep)} (h : Custody k cap s)
    (hroom : s.HasRoom cap skb script) : Custody k cap (s.xmit k cap skb script) := by
  obtain ⟨hinv, hcq, hcalls, hfreed, hcons⟩ := xmit_ok h.inv hroom.1 hroom.2
  refine ⟨hinv, fun c hc => ?_, hfreed.trans h.noFree, ?_⟩
  · rw [hcalls, List.mem_append, List.mem_singleton] at hc
    rcases hc with hc | rfl
    · exact h.noBusy c hc
    · rfl
  · rw [accepted_append hcalls, h.inOrder, hcons, hcq]
    simp

theorem Custody.not_owned_xmit {skb : Skb} {script : List (List TxStep)} (h : Custody k cap s)
    (hroom : ¬ s.HasRoom cap skb script) : ¬ (s.xmit k cap skb script).Owned := by
  intro howned
  by_cases heng : (s.engAtCheck cap script).queued.length + skb.nsegments ≤ 64
  · have hfull : s.sendCq.contents.length = 255 := by
      have := s.sendCq.length_contents_le
      have : ¬ s.sendCq.contents.length < 255 := fun hlt => hroom ⟨heng, hlt⟩
      omega
    obtain ⟨-, hcq, hcalls, hfreed, hcons⟩ := xmit_overflow h.inv heng hfull
    have hlen := howned.once.length_eq
    rw [accepted_append hcalls, h.inOrder, hfreed, h.noFree, hcons, hcq] at hlen
    simp at hlen
  · obtain ⟨-, hcalls⟩ := xmit_busy (k := k) h.inv heng
    have := howned.busy ⟨skb, .busy, true⟩ (by simp [hcalls]) rfl
    simp at this

end Tx

def Nic.FindsRoom (cap : Nat) (s : Nic) : Event → Prop
  | .startXmit skb script => s.tx.HasRoom cap skb script
  | _ => True

theorem Nic.step_custody {s : Nic} (ev : Event) (h : s.tx.Custody k cap) (hroom : s.FindsRoom cap ev) :
    (s.step k cap ev).tx.Custody k cap := by
  have hinv : (s.step k cap ev).tx.Inv k cap :=
    Nic.step_txInv ev h.inv fun skb script hev _ => by subst hev; exact hroom.2
  cases ev with
  | startXmit skb script => exact h.xmit hroom
  | poll budget txScript rxScript =>
    obtain ⟨-, hq, hcons, -, hcalls, hfreed⟩ := Tx.poll_spec h.inv txScript rfl
    refine h.congr hinv hcalls hfreed ?_
    rw [Nic.step, hcons, List.append_assoc, ← hq]
  | openDev script => exact h.congr hinv rfl rfl rfl
  | stop => exact h.congr hinv rfl rfl rfl
  | txEngine st => exact h.congr hinv rfl rfl rfl
  | rxEngine st => exact h

theorem Nic.step_not_owned {s : Nic} (ev : Event) (h : s.tx.Custody k cap) (hroom : ¬ s.FindsRoom cap ev) :
    ¬ (s.step k cap ev).tx.Owned := by
  cases ev with
  | startXmit skb script => exact h.not_owned_xmit hroom
  | _ => exact absurd trivial hroom

theorem owned_iff_findsRoom (k : Kernel) (cap : Nat) (evs : List Event) :
    Run.Always (Nic.step k cap) Nic.init evs (fun s => s.tx.Owned) ↔
      Run.Guarded (Nic.step k cap) Nic.init evs (Nic.FindsRoom cap) := by
  have h0 : Nic.init.tx.Custody k cap :=
    ⟨Nic.init_txInv, by simp [Nic.init], rfl, by simp [Tx.accepted, Nic.init]⟩
  exact Run.always_iff_guarded h0 (fun _ ev => Nic.step_custody ev) (fun _ h => h.owned)
    fun _ ev => Nic.step_not_owned ev

def fragSkb (id frags : Nat) : Skb := ⟨id, 4096, 60 + 1000 * frags, 60, List.replicate frags ⟨8192, 0, 1000⟩⟩

def threeSent : List Event :=
  [.startXmit (fragSkb 0 17) [], .startXmit (fragSkb 1 17) [], .startXmit (fragSkb 2 10) []]

/-- After buffers with 17, 17 and 10 fragments the queue still runs. The next one, with 17 again, does not fit into the
    engine's queue: it is released and given back. -/
theorem startXmit_frees_busy :
    (threeSent.foldl (Nic.step plainKernel 127) Nic.init).tx.stopped = false ∧
      ¬ Run.Always (Nic.step plainKernel 127) Nic.init (threeSent ++ [.startXmit (fragSkb 3 17) []])
        fun s => s.tx.Owned := by
  refine ⟨by decide +kernel, fun h => ?_⟩
  have howned := h _ (List.prefix_refl _)
  have hcall : (⟨fragSkb 3 17, .busy, true⟩ : XmitCall) ∈
      ((threeSent ++ [Event.startXmit (fragSkb 3 17) []]).foldl (Nic.step plainKernel 127) Nic.init).tx.calls := by
    decide +kernel
  exact absurd (howned.busy _ hcall rfl) (by decide)

end FireMarshal.Accnet
