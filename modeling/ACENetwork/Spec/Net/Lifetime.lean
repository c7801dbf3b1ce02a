import Mathlib
import ACENetwork.Spec.Net.Input

/-! The reference count of a `Net_AsynchTCPConnectionBase_T`: `open ()` in one thread, and the read
operation that it starts, whose completions come in any thread. The connection starts with one
reference, and the manager has another one while the connection is registered. -/

namespace ACENetwork.Net

/-- What is left to do of `Net_AsynchStreamConnectionBase_T::handle_close` and of the `decrease ()`
behind it. -/
inductive Leaving where
  | setStatus
  | testRegistered
  | clearRegistered
  | deregister
  | decrease
  deriving DecidableEq, Repr

/-- What `Net_AsynchTCPConnectionBase_T::open` is to do next. -/
inductive AsynchOpening where
  -- `open ()` of the handler: when it fails, `isInitialized_` stays as it is
  | openHandler
  | register_
  | setRegistered (result : Bool)
  | startStream
  | setOk
  | notifyConnect
  -- the label `error` of the base class
  | setFailed
  | testRegistered
  | clearRegistered
  | deregister
  -- behind `open ()` of the base class
  | testStatus
  | startRead
  | duplicate
  | createResult
  -- in `complete ()` of the faked result
  | faked
  | assertCount
  | leave (l : Leaving)
  -- `open ()` has returned, from its end or behind `error`
  | returned (ok : Bool)
  deriving DecidableEq, Repr

inductive Reading where
  | none
  | pending
  | handling (r : Received)
  | rearm
  | leave (l : Leaving)
  | ended
  deriving DecidableEq, Repr

structure Lifetime where
  isManaged : Bool
  -- `messageBlock_in.length ()`
  length : ℕ
  status : Status := .invalid
  count : ℕ := 1
  isRegistered : Bool := false
  -- the connection is in the list of the manager, with a reference
  registered : Bool := false
  opening : AsynchOpening := .openHandler
  reading : Reading := .none
  -- how often `decrease ()` has come to 0
  freed : ℕ := 0
  -- `open ()` has used the connection behind that
  misused : Bool := false
  failed : Bool := false
  deriving DecidableEq, Repr

namespace Lifetime

/-- The count does not go below 0: it is gone with the connection. -/
def decrease (s : Lifetime) : Lifetime :=
  { s with count := s.count - 1, freed := s.freed + if s.count = 1 then 1 else 0 }

/-- One access of `handle_close ()`, or the `decrease ()` behind it: what is left, or nothing. -/
def leaveOn (s : Lifetime) : Leaving → Option Leaving × Lifetime
  | .setStatus =>
    (some .testRegistered,
      if s.status ≠ .initializationFailed ∧ s.status ≠ .closed then { s with status := .peerClosed } else s)
  | .testRegistered => (some (if s.isRegistered then .clearRegistered else .decrease), s)
  | .clearRegistered => (some .deregister, { s with isRegistered := false })
  | .deregister => (some .decrease, if s.registered then { s with registered := false }.decrease else s)
  | .decrease => (none, s.decrease)

/-- The bytes that the faked result reports: the length of the duplicate, behind the move of its
write pointer. -/
def fakedLength (s : Lifetime) : ℕ :=
  let bytes_transferred := s.length
  s.length - bytes_transferred

/-- The next access of `open ()`, whether the connection is there or not. `ok` is what the call
returns that may fail. -/
def openOn (s : Lifetime) (ok : Bool) : Option Lifetime :=
  match s.opening with
  | .openHandler => some { s with opening := if s.isManaged then .register_ else .startStream }
  | .register_ =>
    -- ACE_ASSERT (!isRegistered_)
    if s.isRegistered then none
    else
      some { s with
        registered := s.registered || ok
        count := s.count + if ok then 1 else 0
        opening := .setRegistered ok }
  | .setRegistered result =>
    some { s with isRegistered := result, opening := if result then .startStream else .setFailed }
  | .startStream => some { s with opening := if ok then .setOk else .setFailed }
  | .setOk => some { s with status := .ok, opening := .notifyConnect }
  | .notifyConnect => some { s with opening := .testStatus }
  | .setFailed => some { s with status := .initializationFailed, opening := .testRegistered }
  | .testRegistered => some { s with opening := if s.isRegistered then .clearRegistered else .testStatus }
  | .clearRegistered => some { s with isRegistered := false, opening := .deregister }
  | .deregister =>
    some { (if s.registered then { s with registered := false }.decrease else s) with opening := .testStatus }
  | .testStatus =>
    some { s with
      opening :=
        if s.status ≠ .ok then .leave .setStatus
        else if s.length = 0 then .startRead
        else .duplicate }
  | .startRead =>
    if ok then some { s with reading := .pending, opening := .assertCount }
    else some { s with opening := .leave .setStatus }
  | .duplicate => some { s with opening := if ok then .createResult else .leave .setStatus }
  | .createResult =>
    if ok then
      some { s with
        reading := .handling (if s.fakedLength = 0 then .closed else .data s.fakedLength)
        opening := .faked }
    else some { s with opening := .leave .setStatus }
  | .faked =>
    -- handle_read_stream () is called by complete ()
    match s.reading with
    | .ended => some { s with opening := .assertCount }
    | .pending => some { s with opening := .assertCount }
    | _ => none
  | .assertCount => some { s with failed := s.failed || s.count < 2, opening := .returned true }
  | .leave l =>
    match s.leaveOn l with
    | (some l, s) => some { s with opening := .leave l }
    | (none, s) => some { s with opening := .returned false }
  | .returned _ => none

/-- The next access of `handle_read_stream ()`. `ok` is what `stream_.put ()` or `initiate_read ()`
returns. -/
def readOn (s : Lifetime) (ok : Bool) : Option Lifetime :=
  match s.reading with
  | .handling (.data _) =>
    some { s with
      reading := if ok = false ∨ s.status = .closed then .leave .setStatus else .rearm }
  | .handling _ => some { s with reading := .leave .setStatus }
  | .rearm => some { s with reading := if ok then .pending else .leave .setStatus }
  | .leave l =>
    match s.leaveOn l with
    | (some l, s) => some { s with reading := .leave l }
    | (none, s) => some { s with reading := .ended }
  | _ => none

inductive Event where
  | openOn (ok : Bool)
  | complete (r : Received)
  | readOn (ok : Bool)
  | close
  deriving DecidableEq, Repr

def step (s : Lifetime) : Event → Option Lifetime
  | .openOn ok => { s with misused := s.misused || 0 < s.freed }.openOn ok
  | .complete r =>
    match s.reading with
    | .pending => some { s with reading := .handling r }
    | _ => none
  | .readOn ok => s.readOn ok
  | .close => if s.freed = 0 then some { s with status := s.status.leave .closed } else none

/-- `open ()`, the read operation and the registration are finished. -/
def Finished (s : Lifetime) : Prop :=
  (∃ ok, s.opening = .returned ok) ∧ (s.reading = .none ∨ s.reading = .ended) ∧ s.registered = false

/-- The count has come to 0 once when all is finished and not before, and `open ()` has done
nothing wrong. -/
structure Released (s : Lifetime) : Prop where
  finished : s.Finished → s.freed = 1
  unfinished : ¬ s.Finished → s.freed = 0
  misused : s.misused = false
  failed : s.failed = false

/-- The connection is managed and has no initial data when it starts to read, and the read
operation does not deregister it before `open ()` has come to its end. -/
def InTime (s : Lifetime) (e : Event) (_ : Lifetime) : Prop :=
  match e with
  | .openOn ok =>
    (s.opening = .startRead → ok = true → s.isManaged = true) ∧ (s.opening = .createResult → ok = false)
  | .readOn _ => s.reading = .leave .deregister → s.opening = .returned true
  | _ => True

instance (s : Lifetime) : ∀ (e : Event) (s' : Lifetime), Decidable (InTime s e s')
  | .openOn _, _ => inferInstanceAs (Decidable ((_ → _ → _) ∧ (_ → _)))
  | .complete _, _ => inferInstanceAs (Decidable True)
  | .readOn _, _ => inferInstanceAs (Decidable (_ → _))
  | .close, _ => inferInstanceAs (Decidable True)

end Lifetime

end ACENetwork.Net
