import Mathlib
import ACENetwork.Spec.BitTorrent.Control

/-! The connection bookkeeping of a BitTorrent session: `Net_SessionBase_T` keeps the set of
open connections, `BitTorrent_Session_T` the status of every peer and the connection to the
tracker, and reports the cancellation of the session to its controller when a connection
goes and none is left. The session was initialized: the checks of its configuration
pointers are left out, and so is the handshake message that `connect` sends. -/

namespace ACENetwork.BitTorrent

open Std

/-- `Net_ConnectionId_t`. -/
abbrev ConnectionId := UInt32

/-- `BitTorrent_PeerStatus`, with the values its constructor gives. -/
structure PeerStatus where
  amChoking : Bool := true
  amInterested : Bool := false
  peerChoking : Bool := true
  peerInterested : Bool := false
  deriving DecidableEq, Repr

/-- The fields of `BitTorrent_SessionState` that connections touch. -/
structure SessionState where
  connections : Finset ConnectionId := ∅
  controller : Bool := true
  peerStatus : ExtTreeMap ConnectionId PeerStatus := ∅
  trackerConnectionId : ConnectionId := 0

/-- A session, and the calls of `controller->notify` that it made. -/
structure Session where
  metaInfoFileName : String
  state : SessionState := {}
  notified : List (String × Event) := []

def SessionState.connect (s : SessionState) (id : ConnectionId) : Option SessionState :=
  -- ACE_ASSERT (result.second)
  if id ∈ s.connections then none else some { s with connections := insert id s.connections }

/-- `Net_SessionBase_T::disconnect`. -/
def SessionState.disconnect (s : SessionState) (id : ConnectionId) : SessionState :=
  { s with connections := s.connections.erase id }

namespace Session

/-- The end of both disconnect functions. -/
def cancelIfEmpty (s : Session) : Session :=
  if s.state.connections = ∅ ∧ s.state.controller = true then
    { s with notified := s.notified ++ [(s.metaInfoFileName, .cancelled)] }
  else s

def connect (s : Session) (id : ConnectionId) : Option Session :=
  match s.state.connect id with
  | none => none
  | some st => some { s with state := { st with peerStatus := st.peerStatus.insertIfNew id {} } }

def disconnect (s : Session) (id : ConnectionId) : Session :=
  let st := s.state.disconnect id
  cancelIfEmpty { s with state := { st with peerStatus := st.peerStatus.erase id } }

def trackerConnect (s : Session) (id : ConnectionId) : Option Session :=
  -- ACE_ASSERT (!inherited::state_.trackerConnectionId)
  if s.state.trackerConnectionId ≠ 0 then none else
  match { s.state with trackerConnectionId := id }.connect id with
  | none => none
  | some st => some { s with state := st }

def trackerDisconnect (s : Session) (id : ConnectionId) : Option Session :=
  let st := s.state.disconnect id
  -- ACE_ASSERT (inherited::state_.trackerConnectionId == id_in)
  if st.trackerConnectionId ≠ id then none else
  some (cancelIfEmpty { s with state := { st with trackerConnectionId := 0 } })

end Session

inductive LinkEvent where
  | connect (id : ConnectionId)
  | disconnect (id : ConnectionId)
  | trackerConnect (id : ConnectionId)
  | trackerDisconnect (id : ConnectionId)
  deriving DecidableEq, Repr

def Session.step (s : Session) : LinkEvent → Option Session
  | .connect id => s.connect id
  | .disconnect id => some (s.disconnect id)
  | .trackerConnect id => s.trackerConnect id
  | .trackerDisconnect id => s.trackerDisconnect id

structure Links where
  peers : Finset ConnectionId := ∅
  trackers : Finset ConnectionId := ∅

def Links.open (l : Links) : Finset ConnectionId := l.peers ∪ l.trackers

/-- A link is opened under an identifier that no open link has, and closed as what it is. -/
def Links.step (l : Links) : LinkEvent → Option Links
  | .connect id => if id ∈ l.open then none else some { l with peers := insert id l.peers }
  | .disconnect id => if id ∈ l.peers then some { l with peers := l.peers.erase id } else none
  | .trackerConnect id =>
    if id ∈ l.open then none else some { l with trackers := insert id l.trackers }
  | .trackerDisconnect id =>
    if id ∈ l.trackers then some { l with trackers := l.trackers.erase id } else none

end ACENetwork.BitTorrent
