import Mathlib
import ACENetwork.Spec.Ace

/-! What two peers tell each other (`BitTorrent_PeerHandShake`, `BitTorrent_PeerRecord`), and
the module that writes a handshake to the wire (`BitTorrent_Module_Streamer_T`). -/

namespace ACENetwork.BitTorrent.Peer

def reservedSize : ℕ := 8
def infoHashSize : ℕ := 20
def peerIdLength : ℕ := 20

def pstrString : List UInt8 :=
  [66, 105, 116, 84, 111, 114, 114, 101, 110, 116, 32, 112, 114, 111, 116, 111, 99, 111, 108]

/-- The constructor presets the protocol string. It leaves the reserved octets as they are,
which is written as zeros here. -/
structure HandShake where
  pstr : List UInt8 := pstrString
  reserved : Octets reservedSize := Octets.zeros reservedSize
  infoHash : List UInt8 := []
  peerId : List UInt8 := []
  deriving DecidableEq, Repr

/-- The types of messages, and the numbers beyond them that a cast of an octet may give. -/
inductive MessageType where
  | choke | unchoke | interested | notInterested | have_ | bitfield | request | piece | cancel
  | max | invalid | other (n : UInt8)
  deriving DecidableEq, Repr

def MessageType.ofOctet (n : UInt8) : MessageType :=
  if n = 0 then .choke else
  if n = 1 then .unchoke else
  if n = 2 then .interested else
  if n = 3 then .notInterested else
  if n = 4 then .have_ else
  if n = 5 then .bitfield else
  if n = 6 then .request else
  if n = 7 then .piece else
  if n = 8 then .cancel else
  if n = 9 then .max else
  if n = 10 then .invalid else .other n

/-- The union of the payloads, without that of a port, which nothing sets. -/
inductive Payload where
  | none
  | cancel (index start length : UInt32)
  | have_ (index : UInt32)
  | piece (index start : UInt32)
  | request (index start length : UInt32)
  deriving DecidableEq, Repr

structure Record where
  length : UInt32 := 0
  type : MessageType := .invalid
  bitfield : List UInt8 := []
  payload : Payload := .none
  deriving DecidableEq, Repr

namespace Streamer

/-- Why `handleDataMessage` does not leave a message: one of its assertions failed, it released
the message because the buffer is too small, or it read beyond the end of a string. -/
inductive Failure where
  | assertion
  | noSpace
  | overRead
  deriving DecidableEq, Repr

def copy (m : MessageBlock) (bytes : List UInt8) : Except Failure MessageBlock :=
  match m.copy bytes with
  | some m => .ok m
  | none => .error .noSpace

def cStr (s : List UInt8) (size : ℕ) : Except Failure (List UInt8) :=
  if size ≤ s.length + 1 then .ok ((s ++ [0]).take size) else .error .overRead

/-- The container holds a handshake or a record. -/
inductive Data where
  | handShakeRecord (h : HandShake)
  | peerRecord (r : Record)

def copyHandShake (h : HandShake) (m : MessageBlock) : Except Failure MessageBlock := do
  let pstrlen := UInt8.ofNat h.pstr.length
  let m ← copy m [pstrlen]
  let pstr ← cStr h.pstr pstrlen.toNat
  let m ← copy m pstr
  let m ← copy m h.reserved.1
  let infoHash ← cStr h.infoHash infoHashSize
  let m ← copy m infoHash
  let peerId ← cStr h.peerId peerIdLength
  copy m peerId

/-- `BitTorrent_Module_Streamer_T::handleDataMessage`, which does not write records. -/
def handleDataMessage (data : Data) (m : MessageBlock) : Except Failure MessageBlock :=
  if m.length ≠ 0 then .error .assertion else
  match data with
  | .handShakeRecord h => copyHandShake h m
  | .peerRecord _ => .error .assertion

end Streamer

end ACENetwork.BitTorrent.Peer
