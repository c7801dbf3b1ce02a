import Mathlib
import ACENetwork.Library.Transition

/-! `Net_Server_Listener_T`: an `ACE_Acceptor` that is opened, suspended, resumed and closed by
`start ()` and `stop ()`. `Net_Server_SSL_Listener_T` has the same functions. -/

namespace ACENetwork.Net

/-- What `start ()` reads of the configuration of a connection. -/
structure ListenerConfiguration where
  port : UInt16
  address : UInt32
  useLoopBackDevice : Bool
  deriving DecidableEq, Repr

def inaddrLoopback : UInt32 := 0x7F000001

def ListenerConfiguration.setLoopback (c : ListenerConfiguration) : ListenerConfiguration :=
  { c with address := inaddrLoopback }

/-- The socket of an `ACE_Acceptor`, which its reactor accepts from unless it is suspended. -/
structure AcceptorSocket where
  port : UInt16
  address : UInt32
  suspended : Bool := false
  deriving DecidableEq, Repr

/-- What the calls of `start ()` return: `close ()`, `resume ()`, `set ()` and `open ()`. -/
structure StartResults where
  close : Bool := true
  resume : Bool := true
  set : Bool := true
  open_ : Bool := true
  deriving DecidableEq, Repr

structure Listener where
  configuration : Option ListenerConfiguration := none
  hasChanged : Bool := false
  isInitialized : Bool := false
  isListening : Bool := false
  isOpen : Bool := false
  isSuspended : Bool := false
  socket : Option AcceptorSocket := none
  unclosed : List AcceptorSocket := []
  deriving DecidableEq, Repr

namespace Listener

def initialize_ (s : Listener) (configuration : ListenerConfiguration) : Listener :=
  { s with configuration := some configuration, hasChanged := true, isInitialized := true }

/-- A failed assertion is a call without a result. -/
def stop (s : Listener) (suspend : Bool) : Option Listener :=
  if !s.isListening then some s else
  -- ACE_ASSERT (isOpen_)
  if !s.isOpen then none else
  if !suspend then some s else
  some { s with
    socket := s.socket.map fun k => { k with suspended := true }
    isSuspended := true
    isListening := false }

/-- What `start ()` does about a configuration that has changed, and whether it goes on. It only
comes here when the listener does not listen, where `stop ()` does nothing. -/
def change (s : Listener) (close : Bool) : Bool × Listener :=
  if !s.hasChanged then (true, s) else
  let s := { s with hasChanged := false }
  if !s.isOpen then (true, s) else
  if !close then
    (false, { s with
      unclosed := s.unclosed ++ s.socket.toList, socket := none, isOpen := false, isListening := false })
  else (true, { s with socket := none, isOpen := false })

/-- The rest of `start ()`, for an acceptor that is open and for one that is not. -/
def resume (s : Listener) (resumed : Bool) : Option Listener :=
  -- ACE_ASSERT (isSuspended_)
  if !s.isSuspended then none else
  if !resumed then some s else
  some { s with
    socket := s.socket.map fun k => { k with suspended := false }
    isSuspended := false
    isListening := true }

def openAcceptor (s : Listener) (set opened : Bool) : Option Listener :=
  match s.configuration with
  -- ACE_ASSERT (configuration_)
  | none => none
  | some c =>
    if c.useLoopBackDevice && !set then some s else
    let c := if c.useLoopBackDevice then c.setLoopback else c
    let s := { s with configuration := some c }
    if !opened then some s else
    some { s with socket := some ⟨c.port, c.address, false⟩, isOpen := true, isListening := true }

def start (s : Listener) (r : StartResults) : Option Listener :=
  if !s.isInitialized then some s else
  if s.isListening then some s else
  match s.change r.close with
  | (false, s) => some s
  | (true, s) => if s.isOpen then s.resume r.resume else s.openAcceptor r.set r.open_

inductive Event where
  | initialize_ (configuration : ListenerConfiguration)
  | start (r : StartResults)
  | stop (suspend : Bool)
  deriving DecidableEq, Repr

def step (s : Listener) : Event → Option Listener
  | .initialize_ configuration => some (s.initialize_ configuration)
  | .start r => s.start r
  | .stop suspend => s.stop suspend

end Listener

/-- The address that it should accept connections at, and the one that it does accept them at. -/
structure Service where
  configured : Option (UInt16 × UInt32) := none
  serving : Option (UInt16 × UInt32) := none
  deriving DecidableEq, Repr

namespace Service

def bound (c : ListenerConfiguration) : UInt16 × UInt32 :=
  (c.port, if c.useLoopBackDevice then inaddrLoopback else c.address)

def start (t : Service) : Service := if t.serving.isSome then t else { t with serving := t.configured }

def stop (t : Service) : Service := { t with serving := none }

/-- Without a call that fails, every event has its effect; else a call may have none. -/
def Step (t : Service) (e : Listener.Event) (t' : Service) : Prop :=
  match e with
  | .initialize_ c => t' = { t with configured := some (bound c) }
  | .start r => t' = t.start ∨ (r ≠ {} ∧ t' = t)
  | .stop suspend => t' = t.stop ∨ (suspend = false ∧ t' = t)

end Service

def AcceptorSocket.accepts (k : AcceptorSocket) : Option (UInt16 × UInt32) :=
  if k.suspended then none else some (k.port, k.address)

namespace Listener

def service (s : Listener) : Service where
  configured := s.configuration.map Service.bound
  serving := s.socket.bind AcceptorSocket.accepts

/-- A step is one of the service, `isRunning ()` says whether connections are accepted behind it,
and no socket is left behind unless `close ()` fails. -/
structure Agrees (s : Listener) (e : Event) (s' : Listener) : Prop where
  step : s.service.Step e s'.service
  running : s'.isListening = true ↔ s'.service.serving.isSome = true
  closed : s'.unclosed = s.unclosed ∨ ∃ r, e = .start r ∧ r.close = false

/-- No assertion fails, and every step is one of the service. -/
def Serves (es : List Event) : Prop :=
  (∃ s, Transition.exec step {} es = some s) ∧ Transition.Always step Agrees {} es

end Listener

end ACENetwork.Net
