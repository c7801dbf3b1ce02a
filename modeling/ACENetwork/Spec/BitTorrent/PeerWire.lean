import Mathlib
import ACENetwork.Spec.BitTorrent.PeerParser

/-! The wire format of the peer protocol as its specification has it, and what a parser of it is
for: the handshake comes first, and every message is reported once and in its turn. -/

namespace ACENetwork.BitTorrent.Peer

open ByteOrder Bison

def handshakeFrame (h : HandShake) : List UInt8 :=
  (19 :: pstrString) ++ (h.reserved.1 ++ (h.infoHash ++ h.peerId))

structure HandShake.Valid (h : HandShake) : Prop where
  pstr : h.pstr = pstrString
  infoHash : h.infoHash.length = infoHashSize
  peerId : h.peerId.length = peerIdLength

inductive Message where
  | keepAlive | choke | unchoke | interested | notInterested
  | have_ (index : UInt32)
  | bitfield (octets : List UInt8)
  | request (index start length : UInt32)
  | cancel (index start length : UInt32)
  deriving DecidableEq, Repr

namespace Message

/-- The octet of the type and the payload. -/
def body : Message → List UInt8
  | keepAlive => []
  | choke => [0]
  | unchoke => [1]
  | interested => [2]
  | notInterested => [3]
  | have_ index => 4 :: store32 .big index
  | bitfield octets => 5 :: octets
  | request index start length =>
    6 :: (store32 .big index ++ (store32 .big start ++ store32 .big length))
  | cancel index start length =>
    8 :: (store32 .big index ++ (store32 .big start ++ store32 .big length))

/-- The length of a message is a number of 32 bits. -/
def Valid (m : Message) : Prop := m.body.length < 2 ^ 32

def length (m : Message) : UInt32 := UInt32.ofNat m.body.length

def frame (m : Message) : List UInt8 := store32 .big m.length ++ m.body

def record (m : Message) : Record :=
  match m with
  | keepAlive => {}
  | choke => { length := m.length, type := .choke }
  | unchoke => { length := m.length, type := .unchoke }
  | interested => { length := m.length, type := .interested }
  | notInterested => { length := m.length, type := .notInterested }
  | have_ index => { length := m.length, type := .have_, payload := .have_ index }
  | bitfield octets => { length := m.length, type := .bitfield, bitfield := octets }
  | request index start length =>
    { length := m.length, type := .request, payload := .request index start length }
  | cancel index start length =>
    { length := m.length, type := .cancel, payload := .cancel index start length }

end Message

def Call.record? : Call → Option Record
  | .handshake _ => none
  | .record r => some r

/-- The messages behind the handshake `h` are reported once each and in their order, and the
scanner comes to the end of its input. -/
def Decodes (e : Endian) (h : HandShake) (ms : List Message) : Prop :=
  ∃ code d, (fragmentScanner e).Parses { buffer := handshakeFrame h ++ ms.flatMap Message.frame } code d ∧
    d.calls.filterMap Call.record? = ms.map Message.record ∧ d.scanner.buffer = []

/-- What is written for the handshake is reported as the same handshake. -/
def RoundTrips (e : Endian) (capacity : ℕ) (h : HandShake) : Prop :=
  ∃ m, Streamer.handleDataMessage (.handShakeRecord h) (MessageBlock.allocate capacity) = .ok m ∧
    ∃ code d, (fragmentScanner e).Parses { buffer := m.content } code d ∧ Call.handshake h ∈ d.calls

def Token.isMessage : Token → Bool
  | .handshake | .endOfFragment | .end_ => false
  | _ => true

/-- A token stream: a handshake, messages, and one of the two tokens at the end. -/
def stream (h : HandShake) (ms : List (Token × Record)) (last : Token × Value) : List (Token × Value) :=
  (.handshake, .handshake h) :: (ms.map (fun m => (m.1, .record m.2)) ++ [last])

/-- The handshake is reported before the messages, and these once each and in their order. -/
def Scanner.Delivers {S : Type} (sc : Scanner S) (s : S) (h : HandShake) (ms : List (Token × Record)) :
    Prop :=
  ∃ code d, sc.Parses s code d ∧ d.calls = .handshake h :: ms.map fun m => .record m.2

end ACENetwork.BitTorrent.Peer
