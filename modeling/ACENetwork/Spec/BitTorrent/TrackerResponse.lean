import Mathlib
import ACENetwork.Spec.BitTorrent.PeerSetup
import ACENetwork.Spec.BitTorrent.Tools

/-! `BitTorrent_Session_T::notify` for a decoded response of the tracker, up to the threads that
connect to the peers. -/

namespace ACENetwork.BitTorrent.TrackerResponse

open ByteOrder PeerSetup

/-- `BITTORRENT_TRACKER_SCRAPE_RESPONSE_FILES_HEADER` -/
def filesHeader : List UInt8 := [102, 105, 108, 101, 115]

/-- `BITTORRENT_TRACKER_RESPONSE_PEERS_HEADER` -/
def peersHeader : List UInt8 := [112, 101, 101, 114, 115]

/-- The integers of a `sockaddr_in`, whose octets are in network byte order. -/
structure InetAddress where
  port : UInt16
  address : UInt32
  deriving DecidableEq, Repr

/-- `ACE_INET_Addr::set` without `encode`, which fails or has an address. -/
abbrev SetAddress := UInt16 → UInt32 → Option InetAddress

/-- What its documentation says: the values are in network byte order, and passed straight through. -/
def PassesThrough (set : SetAddress) : Prop := ∀ port address, set port address = some ⟨port, address⟩

/-- How `notify` leaves off: a failed assertion, octets behind the end of the string, an address that
cannot be set; otherwise it goes on with the addresses of the peers. -/
inductive Outcome where
  | scraped
  | assertion
  | outside
  | unset
  | connects (s : System InetAddress)

/-- The responses that the session has, by their places, and those that it has freed. -/
structure Responses where
  trackerRequestResponse : Option ℕ := none
  trackerScrapeResponse : Option ℕ := none
  freed : List ℕ := []

def Responses.setRequest (r : Responses) (place : ℕ) : Responses :=
  { r with trackerRequestResponse := some place, freed := r.freed ++ r.trackerRequestResponse.toList }

def Responses.setScrape (r : Responses) (place : ℕ) : Responses :=
  { r with trackerScrapeResponse := some place, freed := r.freed ++ r.trackerScrapeResponse.toList }

section

variable (e : Endian) (set : SetAddress)

/-- The loop over the compact representation: the counter, what comes from `char_p` on, and the
addresses so far. -/
def readPeers (size : ℕ) (i : UInt32) (addresses : List InetAddress) : List UInt8 → Outcome
  | b₀ :: b₁ :: b₂ :: b₃ :: b₄ :: b₅ :: rest =>
    if i.toNat < size / 6 then
      match set (load16 e [b₄, b₅]) (load32 e [b₀, b₁, b₂, b₃]) with
      | none => .unset
      | some address => readPeers size (i + 1) (addresses ++ [address]) rest
    else .connects (System.begin addresses)
  | _ => if i.toNat < size / 6 then .outside else .connects (System.begin addresses)

def notify (r : Responses) (record : List (List UInt8 × Bencoding)) (place : ℕ) : Responses × Outcome :=
  match MetaInfo.lookup filesHeader record with
  | some _ => (r.setScrape place, .scraped)
  | none =>
    (r.setRequest place,
      match MetaInfo.lookup peersHeader record with
      | none | some (.dictionary _) | some (.list _) | some (.integer _) => .assertion
      | some (.string s) => readPeers e set s.length 0 [] s)

end

def InetAddress.octets (e : Endian) (a : InetAddress) : List UInt8 := store32 e a.address

def InetAddress.portNumber (e : Endian) (a : InetAddress) : UInt16 := swapWord e a.port

/-- The addresses are those of a compact string: six octets each, all of them in network byte
order. -/
structure Compact (e : Endian) (s : List UInt8) (addresses : List InetAddress) : Prop where
  length : addresses.length = s.length / 6
  address : ∀ k (h : k < addresses.length), (addresses[k]).octets e = (s.drop (6 * k)).take 4
  port : ∀ k (h : k < addresses.length),
    (addresses[k]).portNumber e = load16 .big ((s.drop (6 * k + 4)).take 2)

/-- The response fails no assertion and has nothing read outside of it, and for a compact string there
is a connection to each of the addresses. -/
structure Served (e : Endian) (set : SetAddress) (r : Responses) (record : List (List UInt8 × Bencoding))
    (place : ℕ) : Prop where
  assertion : (notify e set r record place).2 ≠ .assertion
  outside : (notify e set r record place).2 ≠ .outside
  connects : ∀ s, MetaInfo.lookup peersHeader record = some (.string s) → ∃ addresses,
    notify e set r record place = (r.setRequest place, .connects (System.begin addresses)) ∧
      Compact e s addresses ∧ Connects addresses

end ACENetwork.BitTorrent.TrackerResponse
