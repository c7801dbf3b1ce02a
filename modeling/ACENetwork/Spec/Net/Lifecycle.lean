import Mathlib
import ACENetwork.Spec.Net.Connection

/-! The life cycle of `Net_StreamConnectionBase_T`: `open ()` in one thread, `handle_close ()` in a
thread of the reactor, and `close ()` in those of the application. A step is one access to what they
share. -/

namespace ACENetwork.Net

/-- The session messages that the connection notifies its stream of. -/
inductive SessionMessage where
  | connect
  | disconnect
  deriving DecidableEq, Repr

inductive Opening where
  -- the base classes, the socket and the stream, to `stream_.start ()`
  | startStream
  | registerWithReactor
  | register_
  | setRegistered (result : Bool)
  | setStatus
  | notifyConnect
  -- from the label `error`
  | deregisterFromReactor
  | stopStream
  | setFailed
  -- `open ()` has returned 0, or -1
  | returned (ok : Bool)
  deriving DecidableEq, Repr

/-- `open ()` has returned, with 0 or -1. -/
def Opening.Returned (o : Opening) : Prop := o = .returned true ∨ o = .returned false

/-- `open ()` has set the status, to NET_CONNECTION_STATUS_OK or
NET_CONNECTION_STATUS_INITIALIZATION_FAILED. -/
def Opening.Settled (o : Opening) : Prop := o = .notifyConnect ∨ o.Returned

instance (o : Opening) : Decidable o.Returned := inferInstanceAs (Decidable (_ ∨ _))

instance (o : Opening) : Decidable o.Settled := inferInstanceAs (Decidable (_ ∨ _))

inductive Closing where
  | idle
  | testStatus
  | setStatus
  | testNotify
  | clearNotify
  | notifyDisconnect
  | stopStream
  | readRegistered
  -- `handle_close ()` of the base class
  | closeHandler (deregister : Bool)
  -- in `deregister ()`
  | testRegistered
  | clearRegistered
  | deregister
  | finish
  deriving DecidableEq, Repr

/-- The members that the threads share, where the threads are, and what they have done. -/
structure Lifecycle where
  isManaged : Bool
  status : Status := .invalid
  notify : Bool := true
  isRegistered : Bool := false
  -- the connection is in the list of the manager
  registered : Bool := false
  reactor : Bool := false
  messages : List SessionMessage := []
  opening : Opening := .startStream
  closing : Closing := .idle
  closed : Bool := false
  -- a thread in `close ()` holds `state_.lock` and has read NET_CONNECTION_STATUS_OK
  leaving : Bool := false
  deriving DecidableEq, Repr

namespace Lifecycle

inductive Event where
  -- `open ()` goes on. `ok` is what the call returns that may fail
  | openOn (ok : Bool)
  | dispatch
  | handleCloseOn
  -- a thread calls `close ()`: it takes the lock and reads the status
  | close
  -- the same thread sets the status
  | closeOn
  deriving DecidableEq, Repr

def openOn (s : Lifecycle) (ok : Bool) : Option Lifecycle :=
  match s.opening with
  | .startStream => some { s with opening := if ok then .registerWithReactor else .setFailed }
  | .registerWithReactor =>
    if ok then
      some { s with reactor := true, opening := if s.isManaged then .register_ else .setStatus }
    else some { s with opening := .stopStream }
  | .register_ =>
    -- ACE_ASSERT (!isRegistered_)
    if s.isRegistered then none
    else some { s with registered := s.registered || ok, opening := .setRegistered ok }
  | .setRegistered result =>
    some { s with
      isRegistered := result
      opening := if result then .setStatus else .deregisterFromReactor }
  | .setStatus => some { s with status := .ok, opening := .notifyConnect }
  | .notifyConnect => some { s with messages := s.messages ++ [.connect], opening := .returned true }
  | .deregisterFromReactor => some { s with reactor := false, opening := .stopStream }
  | .stopStream => some { s with opening := .setFailed }
  | .setFailed => some { s with status := .initializationFailed, opening := .returned false }
  | .returned _ => none

def handleCloseOn (s : Lifecycle) : Option Lifecycle :=
  match s.closing with
  | .idle => none
  | .testStatus =>
    some { s with
      closing :=
        if s.status ≠ .initializationFailed ∧ s.status ≠ .closed then .setStatus else .testNotify }
  | .setStatus => some { s with status := .peerClosed, closing := .testNotify }
  | .testNotify =>
    some { s with
      closing :=
        if s.notify = true ∧ s.status ≠ .initializationFailed then .clearNotify else .stopStream }
  | .clearNotify => some { s with notify := false, closing := .notifyDisconnect }
  | .notifyDisconnect =>
    some { s with messages := s.messages ++ [.disconnect], closing := .stopStream }
  | .stopStream => some { s with closing := .readRegistered }
  | .readRegistered => some { s with closing := .closeHandler s.isRegistered }
  | .closeHandler deregister =>
    some { s with closing := if deregister then .testRegistered else .finish }
  | .testRegistered => some { s with closing := if s.isRegistered then .clearRegistered else .finish }
  | .clearRegistered => some { s with isRegistered := false, closing := .deregister }
  | .deregister => some { s with registered := false, closing := .finish }
  | .finish => some { s with closed := true, closing := .idle }

def step (s : Lifecycle) : Event → Option Lifecycle
  | .openOn ok => s.openOn ok
  | .dispatch =>
    if s.reactor = true ∧ s.closing = .idle then some { s with closing := .testStatus } else none
  | .handleCloseOn => s.handleCloseOn
  | .close =>
    if s.leaving then none else some { s with leaving := s.status = .ok }
  | .closeOn => if s.leaving then some { s with status := .closed, leaving := false } else none

/-- CONNECT comes before DISCONNECT and both at most once, the connection is not ok again when
`handle_close ()` has returned, and not registered when `open ()` has returned as well. -/
structure WellOrdered (s : Lifecycle) : Prop where
  messages : s.messages <+: [.connect, .disconnect]
  status : s.closed = true → s.status ≠ .ok
  registered : ∀ ok, s.opening = .returned ok → s.closed = true → s.closing = .idle →
    s.registered = false

/-- Wherever `open ()` was when the reactor called it, `handle_close ()` takes its first step when
`open ()` has set the status, and notifies the stream when `open ()` has returned. -/
def InTime (s : Lifecycle) (e : Event) (_ : Lifecycle) : Prop :=
  match e with
  | .handleCloseOn => s.opening.Settled ∧ (s.closing = .notifyDisconnect → s.opening.Returned)
  | .openOn _ | .dispatch | .close | .closeOn => True

instance (s : Lifecycle) : ∀ (e : Event) (s' : Lifecycle), Decidable (InTime s e s')
  | .handleCloseOn, _ => inferInstanceAs (Decidable (_ ∧ (_ → _)))
  | .openOn _, _ | .dispatch, _ | .close, _ | .closeOn, _ => inferInstanceAs (Decidable True)

end Lifecycle

end ACENetwork.Net
