import FireMarshal.Accnet.Cq
import FireMarshal.Accnet.Engine

/-! The data path of the accnet driver (`accnet.c`): transmission, completion and polling.

The engines run concurrently with the driver. Every register access of a driver function is preceded by
the engine steps that its script names for it, so that a run with all scripts covers every interleaving;
`accnet_start_xmit` and `complete_send` hold `tx_lock` and do not interleave with each other. Interrupt
masks and NAPI bookkeeping decide when the functions run. Here they run at any time; `FireMarshal.Accnet.Napi`
has the masks. -/

namespace FireMarshal.Accnet

/-- The return values of `accnet_start_xmit`. -/
inductive NetdevTx where
  | ok
  | busy
deriving DecidableEq, Repr

/-- One call of `accnet_start_xmit`: its buffer, its result, and whether it released the buffer. -/
structure XmitCall where
  skb : Skb
  ret : NetdevTx
  freed : Bool
deriving DecidableEq, Repr

/-! ### Transmission -/

/-- The TX half of `struct accnet_device`. -/
structure Tx where
  eng : TxEngine
  sendCq : SkBuffCq Skb
  stopped : Bool := false
  txPackets : Nat := 0
  txBytes : Nat := 0
  txDropped : Nat := 0
  /-- The engine steps before each coming register access of the running function. -/
  script : List (List TxStep) := []
  /-- The driver used an entry of an empty `send_cq`. -/
  fault : Bool := false
  calls : List XmitCall := []
  freed : List Skb := []
  consumed : List Skb := []
  /-- What each read of `ACCNET_TX_COMP_READ` found. -/
  compReads : List (Option Desc) := []

def packet (isPartial : Bool) (len addr : Nat) : Desc :=
  (BitVec.ofNat 64 isPartial.toNat <<< 63) ||| (BitVec.ofNat 64 len <<< 48) |||
    (BitVec.ofNat 64 addr &&& 0xffffffffffff#64)

/-- The descriptors of the fragments (`post_send_frag`): all but the last are partial. -/
def fragDescs : List Frag → List Desc
  | [] => []
  | f :: rest => packet (!rest.isEmpty) f.len (f.page + f.offset) :: fragDescs rest

/-- The descriptors that `post_send` writes for a buffer, in order. -/
def sendDescs (k : Kernel) (skb : Skb) : List Desc :=
  if 0 < skb.nrFrags then packet true skb.headlen (k.virtToPhys skb.data) :: fragDescs skb.frags
  else [packet false skb.len (k.virtToPhys skb.data)]

namespace Tx

def tick (cap : Nat) (s : Tx) : Tx :=
  { s with eng := (s.script.headD []).foldl (Engine.step depth cap) s.eng, script := s.script.tail }

/-- `send_req_avail`, once `ACCNET_TX_REQ_COUNT` is read. -/
def sendReqAvail (s : Tx) : Int := 64 - ((s.eng.queued.length % 2 ^ 16 : Nat) : Int)

/-- `send_comp_avail`, once `ACCNET_TX_COUNT` is read. -/
def sendCompAvail (s : Tx) : Nat := s.eng.comps.length % 2 ^ 16

def sendSpace (s : Tx) (nfrags : Nat) : Bool := decide ((nfrags : Int) ≤ s.sendReqAvail)

/-- A write of `ACCNET_TX_REQ`. -/
def writeReq (cap : Nat) (s : Tx) (d : Desc) : Tx :=
  let s := s.tick cap
  { s with eng := s.eng.request depth d }

def postSend (k : Kernel) (cap : Nat) (s : Tx) (skb : Skb) : Tx :=
  let s := (sendDescs k skb).foldl (writeReq cap) s
  { s with sendCq := s.sendCq.push skb }

def startXmit (k : Kernel) (cap : Nat) (s : Tx) (skb : Skb) : NetdevTx × Tx :=
  let s := s.tick cap
  if !s.sendSpace (skb.nrFrags + 1) then
    (.busy, { s with stopped := true, freed := s.freed ++ [skb], txDropped := s.txDropped + 1 })
  else
    let s := s.postSend k cap skb
    let s := { s with txPackets := s.txPackets + 1, txBytes := s.txBytes + skb.len }
    -- Above CONFIG_ACCNET_TX_THRESHOLD completions the driver only schedules a poll.
    let s := s.tick cap
    let s := s.tick cap
    (.ok, { s with stopped := s.stopped || !s.sendSpace k.maxSkbFrags })

/-- A read of `ACCNET_TX_COMP_READ`. -/
def readComp (cap : Nat) (s : Tx) : Tx :=
  let s := s.tick cap
  { s with eng := s.eng.read, compReads := s.compReads ++ [s.eng.comps.head?.map Prod.fst] }

def readComps (cap : Nat) : Nat → Tx → Tx
  | 0, s => s
  | n + 1, s => readComps cap n (s.readComp cap)

/-- The loop of `complete_send`. Each round takes at least one of the `n` completions, so `n` rounds are
    enough fuel. -/
def completeSendLoop (cap : Nat) : Nat → Nat → Tx → Tx
  | 0, _, s => s
  | fuel + 1, n, s =>
    if n = 0 then s
    else if s.sendCq.isEmpty then { s with fault := true }
    else
      -- sk_buff_cq_tail_nsegments
      let nsegs := (s.sendCq.entries s.sendCq.tail).nrFrags + 1
      if nsegs > n then s
      else
        let s := readComps cap nsegs s
        let s := { s with sendCq := s.sendCq.pop.2, consumed := s.consumed ++ s.sendCq.pop.1.toList }
        completeSendLoop cap fuel (n - nsegs) s

def completeSend (k : Kernel) (cap : Nat) (s : Tx) : Tx :=
  let s := s.tick cap
  let n := s.sendCompAvail
  let s := completeSendLoop cap n n s
  let s := s.tick cap
  { s with stopped := s.stopped && !s.sendSpace k.maxSkbFrags }

def xmit (k : Kernel) (cap : Nat) (s : Tx) (skb : Skb) (script : List (List TxStep)) : Tx :=
  let r := startXmit k cap { s with script := script } skb
  { r.2 with script := [], calls := s.calls ++ [⟨skb, r.1, decide (r.2.freed.length ≠ s.freed.length)⟩] }

def poll (k : Kernel) (cap : Nat) (s : Tx) (script : List (List TxStep)) : Tx :=
  { completeSend k cap { s with script := script } with script := [] }

end Tx

/-! ### Reception -/

/-- One round of the loop of `complete_recv`. -/
structure Recv where
  logged : Nat × Nat
  addr : Nat
  len : Nat
  skb : Skb
deriving DecidableEq, Repr

/-- The RX half of `struct accnet_device`. -/
structure Rx where
  eng : RxEngine
  recvCq : SkBuffCq Skb
  rxPackets : Nat := 0
  rxBytes : Nat := 0
  allocs : Nat := 0
  script : List (List RxStep) := []
  /-- The driver used a `NULL` buffer, from `sk_buff_cq_pop` or from `netdev_alloc_skb`. -/
  fault : Bool := false
  overflow : Bool := false
  received : List Recv := []

def dmaPtrAlign (p : Nat) : Nat := (p + 63) / 64 * 64

namespace Rx

def tick (cap : Nat) (s : Rx) : Rx :=
  { s with eng := (s.script.headD []).foldl (Engine.step depth cap) s.eng, script := s.script.tail }

/-- `recv_req_avail`, once `ACCNET_RX_DMA_ADDR_COUNT` is read. -/
def recvReqAvail (s : Rx) : Int := 64 - ((s.eng.queued.length % 2 ^ 16 : Nat) : Int)

/-- `recv_comp_avail`, once `ACCNET_RX_COMP_COUNT` is read. -/
def recvCompAvail (s : Rx) : Int := ((s.eng.comps.length % 2 ^ 16 : Nat) : Int)

def postRecv (k : Kernel) (cap : Nat) (s : Rx) (skb : Skb) : Rx :=
  let skb := { skb with data := dmaPtrAlign skb.data }
  let s := s.tick cap
  { s with
    eng := s.eng.request depth (k.virtToPhys skb.data)
    recvCq := s.recvCq.push skb
    overflow := s.overflow || s.recvCq.isFull }

/-- The loop of `complete_recv`. -/
def completeRecvLoop (cap : Nat) : Nat → Rx → Rx
  | 0, s => s
  | n + 1, s =>
    let s := s.tick cap
    let entry := s.eng.comps.headD (0, 0)
    let res := logWord entry
    let len := res &&& 0xffff
    let addr := (res >>> 16) &&& 0xffffffffffff
    let s := { s with eng := s.eng.read }
    match s.recvCq.pop with
    | (none, _) => { s with fault := true }
    | (some skb, cq) =>
      completeRecvLoop cap n
        { s with
          recvCq := cq
          rxPackets := s.rxPackets + 1
          rxBytes := s.rxBytes + len
          received := s.received ++ [⟨entry, addr, len, skb⟩] }

/-- `complete_recv`; the second component is the number of buffers it passes up. -/
def completeRecv (cap : Nat) (s : Rx) (budget : Int) : Rx × Int :=
  let s := s.tick cap
  let n := if budget < s.recvCompAvail then budget else s.recvCompAvail
  (completeRecvLoop cap n.toNat s, n)

/-- The loop of `alloc_recv`. -/
def allocRecvLoop (k : Kernel) (cap : Nat) : Nat → Rx → Rx
  | 0, s => s
  | n + 1, s =>
    let skb := k.allocSkb s.allocs
    let s := { s with allocs := s.allocs + 1 }
    match skb with
    | none => { s with fault := true }
    | some skb => allocRecvLoop k cap n (s.postRecv k cap skb)

def allocRecv (k : Kernel) (cap : Nat) (s : Rx) : Rx :=
  let s := s.tick cap
  allocRecvLoop k cap s.recvReqAvail.toNat s

def poll (k : Kernel) (cap : Nat) (s : Rx) (budget : Int) (script : List (List RxStep)) : Rx :=
  { allocRecv k cap (completeRecv cap { s with script := script } budget).1 with script := [] }

def openRx (k : Kernel) (cap : Nat) (s : Rx) (script : List (List RxStep)) : Rx :=
  { allocRecv k cap { s with script := script } with script := [] }

end Rx

/-! ### The driver -/

/-- `struct accnet_device` -/
structure Nic where
  tx : Tx
  rx : Rx

inductive Event where
  | startXmit (skb : Skb) (script : List (List TxStep))
  | poll (budget : Int) (txScript : List (List TxStep)) (rxScript : List (List RxStep))
  | openDev (script : List (List RxStep))
  | stop
  | txEngine (st : TxStep)
  | rxEngine (st : RxStep)
deriving DecidableEq, Repr

namespace Nic

/-- The device after `accnet_probe`: both queues are empty, the engines hold nothing. -/
def init : Nic where
  tx := { eng := .init, sendCq := .init fun _ => default }
  rx := { eng := .init, recvCq := .init fun _ => default }

/-- One step of the driver or of an engine; `cap` bounds what an engine has taken up. -/
def step (k : Kernel) (cap : Nat) (s : Nic) : Event → Nic
  | .startXmit skb script => { s with tx := s.tx.xmit k cap skb script }
  | .poll budget txScript rxScript =>
    { tx := s.tx.poll k cap txScript, rx := s.rx.poll k cap budget rxScript }
  | .openDev script => { tx := { s.tx with stopped := false }, rx := s.rx.openRx k cap script }
  | .stop => { s with tx := { s.tx with stopped := true } }
  | .txEngine st => { s with tx := { s.tx with eng := s.tx.eng.step depth cap st } }
  | .rxEngine st => { s with rx := { s.rx with eng := s.rx.eng.step depth cap st } }

end Nic
end FireMarshal.Accnet
