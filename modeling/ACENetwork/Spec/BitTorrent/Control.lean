import Mathlib

/-! The session table of the BitTorrent controller (`BitTorrent_Control_T`): `request`
creates a session for a metainfo file, registers it and asks the tracker for peers,
`notify` removes a session that was cancelled or has completed. A failed `ACE_ASSERT`
is a call without a result. -/

namespace ACENetwork.BitTorrent

open Std

/-- `BitTorrent_Event`. -/
inductive Event where
  | cancelled
  | complete
  | max
  | invalid
  deriving DecidableEq, Repr

/-- A session object, by the order in which the objects were created. -/
abbrev SessionId := ℕ

/-- `sessions_`, together with the objects that were destroyed and the next one to be
created, which the code does not store. -/
structure Control where
  sessions : ExtTreeMap String SessionId := ∅
  deleted : Finset SessionId := ∅
  next : SessionId := 0

/-- How the calls that `request` makes turn out. `metaInfo` is whether the configuration,
which the client owns, still holds a dictionary, and `announce` is the entry of the parsed
dictionary under the announce key: whether it exists, and whether it is a string. -/
structure Outcomes where
  metaInfo : Bool := false
  parseMetaInfoFile : Bool := true
  session : Bool := true
  initialized : Bool := true
  data : Bool := true
  announce : Option Bool := some true
  parseURL : Bool := true
  set : Bool := true
  dataContainer : Bool := true
  message : Bool := true
  connection : Bool := true
  streamConnection : Bool := true
  send : Bool := true
  deriving DecidableEq, Repr

/-- The locals of `request` that its `error:` label reads. -/
structure Locals where
  removeSession : Bool := false
  isession : Option SessionId := none

inductive Exit where
  | returned
  | error
  deriving DecidableEq, Repr

namespace Control

def error (c : Control) (file : String) (l : Locals) : Control × Exit :=
  let c := if l.removeSession then { c with sessions := c.sessions.erase file } else c
  match l.isession with
  | none => (c, .error)
  | some i => ({ c with deleted := insert i c.deleted }, .error)

def request (c : Control) (file : String) (o : Outcomes) : Option (Control × Exit) :=
  let l : Locals := {}
  -- ACE_ASSERT (!configuration_->metaInfo)
  if o.metaInfo then none else
  if !o.parseMetaInfoFile then some (c.error file l) else
  if !o.session then some (c.error file l) else
  let i := c.next
  let c := { c with next := c.next + 1 }
  let l := { l with isession := some i }
  if !o.initialized then some (c.error file l) else
  let c := { c with sessions := c.sessions.insertIfNew file i }
  let l := { l with removeSession := true }
  if !o.data then some (c.error file l) else
  -- ACE_ASSERT (iterator != configuration_->metaInfo->end ()), and that it is a string
  if o.announce ≠ some true then none else
  if !o.parseURL then some (c.error file l) else
  if !o.set then some (c.error file l) else
  if !o.dataContainer then some (c.error file l) else
  if !o.message then some (c.error file l) else
  if !o.connection then some (c.error file l) else
  let l := { l with removeSession := false }
  if !o.streamConnection then some (c.error file l) else
  if !o.send then some (c.error file l) else
  some (c, .returned)

def notify (c : Control) (file : String) (e : Event) : Option Control :=
  match e with
  | .cancelled | .complete =>
    if file ∈ c.sessions then some { c with sessions := c.sessions.erase file } else none
  | .max | .invalid => some c

end Control

inductive ControlEvent where
  | request (file : String) (o : Outcomes)
  | notify (file : String) (e : Event)

def Control.step (c : Control) : ControlEvent → Option Control
  | .request file o => (c.request file o).map Prod.fst
  | .notify file e => c.notify file e

end ACENetwork.BitTorrent
