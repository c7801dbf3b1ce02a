import Mathlib
import ACENetwork.Spec.Dhcp.Wire
import ACENetwork.Spec.Dhcp.Discover

/-! A client with a connection, and the datagrams that come to it. For each of them
`DHCP_Module_Parser_T::handleDataMessage` has a record made, and the message goes on to
`DHCP_Module_Discover_T` whether it could be parsed or not, with the record as far as it has come.
Only a message that was parsed is initialized with its record; the other module insists on one that
is initialized. -/

namespace ACENetwork.Dhcp.Discover

open ByteOrder

def flexBufferBoundarySize : ℕ := 2

/-- A datagram, whether its message was initialized before it was parsed, and how the calls go that
are made for it. -/
structure Datagram where
  octets : List UInt8
  initialized : Bool
  calls : Calls

section

variable (e : Endian) (capacity : ℕ) (client : Client)

/-- What becomes of a datagram in a buffer of this capacity. A parse that does not return counts as
the end of the program. -/
inductive Receives (session : Session) (d : Datagram) : Outcome → Prop where
  | boundary (h : capacity < d.octets.length + flexBufferBoundarySize) : Receives session d .assertion
  | fault {f : Fault} (hroom : d.octets.length + flexBufferBoundarySize ≤ capacity)
    (h : Parses e d.octets (.fault f)) : Receives session d .assertion
  | uninitialized {r : Record} (hroom : d.octets.length + flexBufferBoundarySize ≤ capacity)
    (h : Parses e d.octets (.returned false r)) (hinit : d.initialized = false) :
    Receives session d .assertion
  | record {ok : Bool} {r : Record} (hroom : d.octets.length + flexBufferBoundarySize ≤ capacity)
    (h : Parses e d.octets (.returned ok r)) (hinit : ok = true ∨ d.initialized = true) :
    Receives session d (handleDataMessage e d.calls client session r)

/-- The client goes through the datagrams to the last one, and sends these records. -/
inductive Runs : Session → List Datagram → Session → List Record → Prop where
  | nil (session : Session) : Runs session [] session []
  | cons {session session₁ session' : Session} {d : Datagram} {ds : List Datagram}
    {sent sent' : List Record} (h : Receives e capacity client session d (.returned session₁ sent))
    (hrest : Runs session₁ ds session' sent') : Runs session (d :: ds) session' (sent ++ sent')

end

def transaction (octets : List UInt8) : UInt32 := load32 .big ((octets.drop 4).take 4)

/-- The server tells its address, and the client does not know one. -/
def Introduces (session : Session) (octets : List UInt8) : Prop :=
  session.serverAddressIsAny = true ∧ (optionValue octets optionServerIdentifier).isSome = true

instance (session : Session) (octets : List UInt8) : Decidable (Introduces session octets) :=
  inferInstanceAs (Decidable (_ ∧ _))

/-- An offer of the session that there is a buffer for to answer it. -/
def Answerable (configuration : ConnectionConfiguration) (session : Session) (d : Datagram)
    (value : List UInt8) : Prop :=
  value.headD 0 = messageOffer ∧ transaction d.octets = session.xid ∧
    (configuration.allocatorConfiguration = none ∨ d.calls.allocateMessage = true)

/-- A message other than an offer is printed, if it is a reply. -/
def Printed (octets value : List UInt8) : Prop :=
  value.headD 0 ≠ messageOffer ∧ octets.head? = some opReply

/-- A datagram that does the client no harm: it has room, all fixed fields and options that are in
order, an address of a server is one, and what kind of message it is is said, unless the call for
the address fails; but it is no offer that is to be answered, and what is printed can be. -/
structure Harmless (e : Endian) (capacity : ℕ) (configuration : ConnectionConfiguration)
    (session : Session) (d : Datagram) : Prop where
  room : d.octets.length + flexBufferBoundarySize ≤ capacity
  fields : FieldsPresent layout d.octets
  ending : (walk 0 (optionOctets d.octets)).1 ≠ .overrun
  cookie : (walk 0 (optionOctets d.octets)).1 = .endOfData → field e (cookieOctets d.octets) = magicCookie
  full : (walk 0 (optionOctets d.octets)).1 = .full → d.initialized = true ∧ OptionsPrintable d.octets
  server : session.serverAddressIsAny = true →
    ∀ value, optionValue d.octets optionServerIdentifier = some value → value.length = 4
  kind : Introduces session d.octets ∧ d.calls.set = false ∨
    ∃ value, optionValue d.octets optionMessageType = some value ∧
      ¬ Answerable configuration session d value ∧ (Printed d.octets value → OptionsPrintable d.octets)

def learn (session : Session) (d : Datagram) : Session :=
  match optionValue d.octets optionServerIdentifier with
  | some value =>
    if h : value.length = 4 then
      if session.serverAddressIsAny = true ∧ d.calls.set = true then
        { session with serverAddress := ⟨value, h⟩ }
      else session
    else session
  | none => session

/-- No datagram does harm to the session as it is by then. -/
def Spared (e : Endian) (capacity : ℕ) (configuration : ConnectionConfiguration) :
    Session → List Datagram → Prop
  | _, [] => True
  | session, d :: ds =>
    Harmless e capacity configuration session d ∧ Spared e capacity configuration (learn session d) ds

end ACENetwork.Dhcp.Discover
