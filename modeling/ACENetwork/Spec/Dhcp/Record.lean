import Mathlib
import ACENetwork.Spec.Ace

/-! DHCP messages (`DHCP_Record`) and the module that writes them to the wire
(`DHCP_Module_Streamer_T`). -/

namespace ACENetwork.Dhcp

open Std ByteOrder

def chaddrSize : ℕ := 16
def snameSize : ℕ := 64
def fileSize : ℕ := 128
def optionsSize : ℕ := 312
def messageSize : ℕ := 576

def magicCookie : UInt32 := 0x63825363
def optionTagPad : UInt8 := 0
def optionTagEnd : UInt8 := 255

/-- `DHCP_Record`, with the values its constructor gives. The operation is kept as the octet
that it has on the wire; 4 is `DHCP_OP_INVALID`. -/
structure Record where
  op : UInt8 := 4
  htype : UInt8 := 0
  hlen : UInt8 := 0
  hops : UInt8 := 0
  xid : UInt32 := 0
  secs : UInt16 := 0
  flags : UInt16 := 0
  ciaddr : UInt32 := 0
  yiaddr : UInt32 := 0
  siaddr : UInt32 := 0
  giaddr : UInt32 := 0
  chaddr : Octets chaddrSize := Octets.zeros chaddrSize
  sname : List UInt8 := []
  file : List UInt8 := []
  cookie : UInt32 := 0
  options : ExtTreeMap UInt8 (List UInt8) := ∅

namespace Streamer

/-- What ends the program in `handleDataMessage`: one of its assertions, or a copy beyond the
end of a buffer. -/
inductive Fault where
  | notEmpty
  | capacity
  | fieldLength
  | overflow
  deriving DecidableEq, Repr

def copyTo (buffer : List UInt8) (offset : ℕ) (src : List UInt8) : Except Fault (List UInt8) :=
  match memcpy buffer offset src with
  | some b => .ok b
  | none => .error .overflow

/-- The loop over the options. -/
def copyOptions : List (UInt8 × List UInt8) → List UInt8 → ℕ → Except Fault (List UInt8 × ℕ)
  | [], buffer, offset => .ok (buffer, offset)
  | (tag, value) :: options, buffer, offset => do
    let buffer ← copyTo buffer offset [tag]
    let offset := offset + 1
    if 255 < value.length then throw .fieldLength
    let buffer ← copyTo buffer offset [UInt8.ofNat value.length]
    let offset := offset + 1
    let buffer ← copyTo buffer offset value
    copyOptions options buffer (offset + value.length)

/-- The contents of `buffer_3`. -/
def optionArea (e : Endian) (r : Record) : Except Fault (List UInt8) := do
  let buffer := List.replicate optionsSize 0
  let buffer ← copyTo buffer 0 (store32 e (swapLong e magicCookie))
  let (buffer, offset) ← copyOptions r.options.toList buffer 4
  copyTo buffer offset [optionTagEnd]

/-- The arguments of the calls of `copy`, in their order. -/
def fields (e : Endian) (r : Record) : List (Except Fault (List UInt8)) :=
  [.ok [r.op], .ok [r.htype], .ok [r.hlen], .ok [r.hops],
    .ok (store32 e (swapLong e r.xid)),
    .ok (store16 e (swapWord e r.secs)),
    .ok (store16 e (swapWord e r.flags)),
    .ok (store32 e (swapLong e r.ciaddr)),
    .ok (store32 e (swapLong e r.yiaddr)),
    .ok (store32 e (swapLong e r.siaddr)),
    .ok (store32 e (swapLong e r.giaddr)),
    .ok r.chaddr.1,
    copyTo (List.replicate snameSize 0) 0 r.sname,
    copyTo (List.replicate fileSize 0) 0 r.file,
    optionArea e r]

/-- A call of `copy` that fails ends the function with what was written so far. -/
def copyFields : List (Except Fault (List UInt8)) → MessageBlock → Except Fault MessageBlock
  | [], m => .ok m
  | .error f :: _, _ => .error f
  | .ok bytes :: fields, m =>
    match m.copy bytes with
    | some m => copyFields fields m
    | none => .ok m

/-- `DHCP_Module_Streamer_T::handleDataMessage`. -/
def handleDataMessage (e : Endian) (r : Record) (m : MessageBlock) : Except Fault MessageBlock :=
  if m.length ≠ 0 then .error .notEmpty else
  if m.capacity < messageSize then .error .capacity else
  copyFields (fields e r) m

end Streamer

end ACENetwork.Dhcp
