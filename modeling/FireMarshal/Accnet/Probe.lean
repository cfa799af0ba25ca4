import FireMarshal.Lib.Routine

/-! `accnet_probe` (`accnet.c`) and what it calls, for every outcome of its steps, and `accnet_remove`.

What the kernel releases by itself when a probe fails (memory of `devm_alloc_etherdev`, register mappings, interrupt
handlers of `devm_request_irq`) is no part of the state. -/

namespace FireMarshal.Accnet
open Routine Errno

/-- The register regions that `accnet_parse_addr` maps. -/
inductive Region where
  /-- The region of the device's own node. -/
  | control
  | rx
  | tx
  | udpRx
  | udpTx
deriving DecidableEq, Repr

/-- What the steps of `accnet_probe` come to. -/
structure ProbeEnv where
  ofNode : Bool := true
  allocEtherdev : Bool := true
  /-- `of_find_compatible_node`, for the regions of the engines. -/
  findNode : Region → Bool := fun _ => true
  addressToResource : Region → Code := fun _ => ⟨0, by decide⟩
  ioremapResource : Region → Code := fun _ => ⟨0, by decide⟩
  registerNetdev : Code := ⟨0, by decide⟩
  /-- `irq_of_parse_and_map`, which returns 0 if it fails. The TX interrupt is 0, the RX interrupt 1. -/
  parseAndMap : Nat → Nat
  requestIrq : Nat → Code := fun _ => ⟨0, by decide⟩
  miscRegister : Code := ⟨0, by decide⟩

/-- What `accnet_probe` leaves behind, unless it takes it back. -/
structure Probed where
  napi : Bool := false
  netdev : Bool := false
  misc : Bool := false
  udpEngine : Bool := false
deriving DecidableEq, Repr

namespace ProbeEnv

def parseControl (env : ProbeEnv) : Routine Probed Unit := do
  failIf ((env.addressToResource .control).1 ≠ 0) (env.addressToResource .control)
  failIf ((env.ioremapResource .control).1 ≠ 0) (env.ioremapResource .control)

def parseEngine (env : ProbeEnv) (r : Region) : Routine Probed Unit := do
  failIf (!env.findNode r) (-enodev)
  -- The error of of_address_to_resource is not passed on here.
  failIf ((env.addressToResource r).1 ≠ 0) (-einval)
  failIf ((env.ioremapResource r).1 ≠ 0) (env.ioremapResource r)

def parseAddr (env : ProbeEnv) : Routine Probed Unit := do
  env.parseControl
  env.parseEngine .rx
  env.parseEngine .tx
  env.parseEngine .udpRx
  env.parseEngine .udpTx

def parseOneIrq (env : ProbeEnv) (k : Nat) : Routine Probed Unit := do
  failIf (env.parseAndMap k = 0) (-einval)
  failIf ((env.requestIrq k).1 ≠ 0) (env.requestIrq k)

def parseIrq (env : ProbeEnv) : Routine Probed Unit := do
  env.parseOneIrq 0
  env.parseOneIrq 1

end ProbeEnv

def accnetProbe (env : ProbeEnv) : Routine Probed Unit := do
  failIf (!env.ofNode) (-enodev)
  failIf (!env.allocEtherdev) (-enomem)
  modify fun s => { s with napi := true }
  let ret ← call env.parseAddr
  failIf (ret < 0) ret
  failIf (env.registerNetdev.1 < 0) env.registerNetdev
  modify fun s => { s with netdev := true }
  let ret ← call env.parseIrq
  failIf (ret < 0) ret
  failIf (env.miscRegister.1 ≠ 0) env.miscRegister
  modify fun s => { s with misc := true }
  modify fun s => { s with udpEngine := true }

/-- `accnet_remove`, of a device whose probe succeeded. -/
def accnetRemove (s : Probed) : Probed := { s with misc := false, netdev := false, napi := false }

end FireMarshal.Accnet
