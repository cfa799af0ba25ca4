import FireMarshal.Lib.Routine
import FireMarshal.Lib.Stdio
import FireMarshal.Iocache.Library

/-! The texts of MAC addresses in `common.h`, and the connections that are made of texts. The parameter `lone` is how
    the C library converts a `0x` without digits. -/

namespace FireMarshal.Mac

open Stdio (Directive)

def macFormat : List Directive :=
  [.hex 2, .literal 58, .hex 2, .literal 58, .hex 2, .literal 58, .hex 2, .literal 58, .hex 2, .literal 58, .hex 2]

/-- The loop of `mac_str_to_uint64`. -/
def macOfBytes (bytes : List (BitVec 32)) : BitVec 64 :=
  bytes.foldl (fun mac b => mac <<< 8 ||| (b &&& 0xff#32).setWidth 64) 0#64

/-- The result, and `*mac_out` after the call. -/
def macStrToUint64 (lone : Bool) (macStr : List UInt8) (macOut : BitVec 64) : Int × BitVec 64 :=
  let scanned := Stdio.sscanf lone macFormat macStr
  if scanned.1 ≠ 6 then (-1, macOut) else (0, macOfBytes scanned.2)

def macGroups (mac : BitVec 64) : List (List UInt8) :=
  [40, 32, 24, 16, 8, 0].map fun k => Stdio.formatHex 2 (mac >>> k &&& 0xff#64)

def macText (mac : BitVec 64) : List UInt8 := [58].intercalate (macGroups mac)

def macUint64ToStr (mac : BitVec 64) (buf : List UInt8) (buflen : Nat) : List UInt8 :=
  if buflen < 18 then buf else Stdio.snprintf buf buflen (macText mac)

structure ConnectionInfo extends Iocache.ConnectionInfo where
  srcMac : BitVec 64
  dstMac : BitVec 64
  deriving DecidableEq, Repr

/-- What a call returns, and leaves in `errno` and in `*c`. -/
structure ConnResult where
  ret : Int
  errno : Int
  conn : Option ConnectionInfo

/-- Pointers may be null. `inetPton` gives the address in the order of the host. -/
def connFromStringsMac (lone : Bool) (inetPton : List UInt8 → Option (BitVec 32)) (errno : Int)
    (c : Option ConnectionInfo) (protocol : BitVec 8)
    (srcMacStr srcIpStr : Option (List UInt8)) (srcPort : BitVec 16)
    (dstMacStr dstIpStr : Option (List UInt8)) (dstPort : BitVec 16) : ConnResult :=
  match c, srcIpStr, dstIpStr, srcMacStr, dstMacStr with
  | some _, some srcIpStr, some dstIpStr, some srcMacStr, some dstMacStr =>
    match inetPton srcIpStr, inetPton dstIpStr with
    | some srcIp, some dstIp =>
      let srcMac := macStrToUint64 lone srcMacStr 0#64
      let dstMac := macStrToUint64 lone dstMacStr 0#64
      if srcMac.1 ≠ 0 then ⟨-1, Errno.einval, c⟩
      else if dstMac.1 ≠ 0 then ⟨-1, Errno.einval, c⟩
      else ⟨0, errno, some ⟨⟨protocol, srcIp, dstIp, srcPort, dstPort⟩, srcMac.2, dstMac.2⟩⟩
    | _, _ => ⟨-1, Errno.einval, c⟩
  | c, _, _, _, _ => ⟨-1, Errno.einval, c⟩

end FireMarshal.Mac
