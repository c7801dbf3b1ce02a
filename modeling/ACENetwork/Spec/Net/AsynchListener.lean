import Mathlib
import ACENetwork.Library.Transition

/-! `Net_Server_AsynchListener_T`. One thread calls `start ()` and `stop ()`; the proactor completes
the accepts that it has and dispatches `handle_accept ()` for each of them, by any of its threads. -/

namespace ACENetwork.Net

/-- What a call of `accept ()` meets: no memory, an `ACE_Asynch_Accept` that returns -1, or one that
takes the accept. -/
inductive AcceptResult where
  | noMemory
  | refused
  | accepted
  deriving DecidableEq, Repr

/-- `ACE_Asynch_Accept::cancel ()` returns -1, and leaves the accepts where they are, or it posts
them. -/
inductive CancelResult where
  | failed
  | canceled
  deriving DecidableEq, Repr

/-- What `stop ()` meets: an implementation that is no `ACE_POSIX_Asynch_Accept`, or the two ways in
which `close ()` of one returns. -/
inductive CloseResult where
  | noAccept
  | failed
  | closed
  deriving DecidableEq, Repr

/-- `ACE_Asynch_Accept::Result`, with the number of its connection in the order of the kernel. -/
structure AcceptCompletion where
  success : Bool
  acceptHandle : Option ℕ
  -- `error ()` is ECANCELED
  canceled : Bool
  deriving DecidableEq, Repr

/-- What the calls of `open ()` return, up to the accepts, and `cancel ()` behind them. -/
structure OpenResults where
  socket : Bool := true
  setsockopt : Bool := true
  -- no port is given
  sapAny : Bool := false
  bindPort : Bool := true
  bind : Bool := true
  listen : Bool := true
  cancel : CancelResult := .canceled
  deriving DecidableEq, Repr

structure AsynchListener where
  isInitialized : Bool := false
  isListening : Bool := false
  -- `handle ()` is not ACE_INVALID_HANDLE
  handle : Bool := false
  validateNewConnection : Bool := false
  reissueAccept : Bool := true
  -- how many accepts `open ()` has still to make, while it runs
  opening : Option ℕ := none
  -- the message blocks of the accepts that the proactor has, and those that are complete, before
  -- `handle_accept ()`
  accepting : List ℕ := []
  posted : List (ℕ × AcceptCompletion) := []
  -- the `ACE_Asynch_Accept` takes accepts
  isOpen : Bool := false
  -- how many message blocks have been allocated
  blocks : ℕ := 0
  released : List ℕ := []
  -- how many connections the kernel has accepted, and what has become of them
  connections : ℕ := 0
  opened : List ℕ := []
  closed : List ℕ := []
  -- how many accepts could not be made again since the last `open ()`
  lost : ℕ := 0
  deriving DecidableEq, Repr

namespace AsynchListener

def accept (s : AsynchListener) (r : AcceptResult) : Bool × AsynchListener :=
  let block := s.blocks
  match r with
  | .noMemory => (false, s)
  | .refused => (false, { s with blocks := block + 1, released := s.released ++ [block] })
  | .accepted =>
    let s := { s with blocks := block + 1 }
    if s.isOpen then (true, { s with accepting := s.accepting ++ [block] })
    else (false, { s with released := s.released ++ [block] })

def canceledAccept (block : ℕ) : ℕ × AcceptCompletion :=
  (block, { success := false, acceptHandle := none, canceled := true })

def post (s : AsynchListener) : AsynchListener :=
  { s with posted := s.posted ++ s.accepting.map canceledAccept, accepting := [] }

def cancel (s : AsynchListener) : CancelResult → AsynchListener
  | .failed => s
  | .canceled => s.post

/-- Behind the label `close`, where what `closesocket ()` returns is only logged. -/
def closeAccept (s : AsynchListener) (c : CancelResult) : AsynchListener :=
  { s.cancel c with handle := false, opening := none }

/-- `start ()`, up to the accepts. `address` is whether the loopback address could be set where it
is asked for. -/
def start (s : AsynchListener) (backLog : ℕ) (address : Bool) (e : OpenResults) : AsynchListener :=
  if !s.isInitialized then s else
  if s.isListening then s else
  if !address then s else
  let s := { s with validateNewConnection := true, reissueAccept := true }
  if !e.socket then s else
  let s := { s with handle := true, isOpen := true, lost := 0, opening := some backLog }
  if !e.setsockopt then s.closeAccept e.cancel else
  if e.sapAny && !e.bindPort then s.closeAccept e.cancel else
  if !e.bind then s.closeAccept e.cancel else
  if !e.listen then s.closeAccept e.cancel else s

def initialAccept (s : AsynchListener) (r : AcceptResult) (c : CancelResult) : Option AsynchListener :=
  match s.opening with
  | none => none
  | some 0 => some { s with opening := none, isListening := true }
  | some (left + 1) =>
    match s.accept r with
    | (true, s) => some { s with opening := some left }
    | (false, s) => some (s.closeAccept c)

/-- `stop ()`. `close ()` cancels the accepts and closes the socket; `handle ()` stays as it is. -/
def stop (s : AsynchListener) (c : CloseResult) : AsynchListener :=
  if !s.isListening then s else
  match c with
  | .noAccept => s
  | .failed => { s with isListening := false }
  | .closed => { s.post with isOpen := false, isListening := false }

def validateConnection (c : AcceptCompletion) : Bool := c.success

/-- A handler is opened with the connection, or it is closed, if there is one; and the end of the
message block. -/
def dispatch (s : AsynchListener) (block : ℕ) (c : AcceptCompletion) (error : Bool) : AsynchListener :=
  { s with
    opened := s.opened ++ (if error then [] else c.acceptHandle.toList)
    closed := s.closed ++ (if error then c.acceptHandle.toList else [])
    released := s.released ++ [block] }

/-- `handle_accept ()`. `makeHandler` is whether there was memory for a handler. -/
def handleAccept (s : AsynchListener) (block : ℕ) (c : AcceptCompletion) (makeHandler : Bool)
    (r : AcceptResult) : AsynchListener :=
  let error := !c.success || c.acceptHandle.isNone
  let error := error || s.validateNewConnection && !validateConnection c
  let error := error || !makeHandler
  let s := s.dispatch block c error
  if s.reissueAccept && s.handle && !c.canceled then
    match s.accept r with
    | (true, s) => s
    | (false, s) => { s with lost := s.lost + 1 }
  else s

inductive Event where
  | initialize_
  | start (address : Bool) (e : OpenResults)
  | initialAccept (r : AcceptResult) (c : CancelResult)
  | stop (c : CloseResult)
  -- the proactor completes one of its accepts, with a connection or without
  | complete (k : ℕ) (success connected : Bool)
  -- it dispatches one of those that are complete
  | handleAccept (k : ℕ) (makeHandler : Bool) (r : AcceptResult)
  deriving DecidableEq, Repr

def step (backLog : ℕ) (s : AsynchListener) : Event → Option AsynchListener
  | .initialize_ => if s.opening = none then some { s with isInitialized := true } else none
  | .start address e => if s.opening = none then some (s.start backLog address e) else none
  | .initialAccept r c => s.initialAccept r c
  | .stop c => if s.opening = none then some (s.stop c) else none
  | .complete k success connected =>
    match s.accepting[k]? with
    | none => none
    | some block =>
      some { s with
        accepting := s.accepting.eraseIdx k
        posted := s.posted ++ [(block, {
          success := success
          acceptHandle := if connected then some s.connections else none
          canceled := false })]
        connections := if connected then s.connections + 1 else s.connections }
  | .handleAccept k makeHandler r =>
    match s.posted[k]? with
    | none => none
    | some (block, c) =>
      some (({ s with posted := s.posted.eraseIdx k } : AsynchListener).handleAccept block c makeHandler r)

def arrived (s : AsynchListener) : List ℕ := s.posted.filterMap fun p => p.2.acceptHandle

def live (s : AsynchListener) : List (ℕ × AcceptCompletion) := s.posted.filter fun p => !p.2.canceled

/-- `open ()` is under way or has returned 0, and nobody has stopped it. -/
def Serving (s : AsynchListener) : Prop := s.opening ≠ none ∨ s.isListening = true

/-- While it serves, the accepts that are there for the proactor to complete or to dispatch, with
those that were lost and those that are still to be made, are as many as `open ()` makes. -/
def Pooled (backLog : ℕ) (s : AsynchListener) : Prop :=
  s.Serving → s.accepting.length + s.live.length + s.lost + s.opening.getD 0 = backLog

/-- Every connection was given to one handler or was closed, once, or waits to be; every message
block was released once, or belongs to an accept that is under way. -/
structure Sound (s : AsynchListener) : Prop where
  connections : (s.arrived ++ s.opened ++ s.closed).Perm (List.range s.connections)
  blocks : (s.accepting ++ s.posted.map Prod.fst ++ s.released).Perm (List.range s.blocks)

/-- `start ()` is called when all accepts that `stop ()` has left have been dispatched. -/
def Drained (s : AsynchListener) (e : Event) (_ : AsynchListener) : Prop :=
  match e with
  | .start _ _ => s.isListening = false → s.accepting = [] ∧ s.live = []
  | _ => True

instance (s : AsynchListener) : ∀ (e : Event) (s' : AsynchListener), Decidable (Drained s e s')
  | .start _ _, _ => inferInstanceAs (Decidable (s.isListening = false → s.accepting = [] ∧ s.live = []))
  | .initialize_, _ | .initialAccept _ _, _ | .stop _, _ | .complete _ _ _, _ | .handleAccept _ _ _, _ =>
    inferInstanceAs (Decidable True)

def Cancels (_ : AsynchListener) (e : Event) (_ : AsynchListener) : Prop :=
  match e with
  | .start _ e => e.cancel = .canceled
  | .initialAccept _ c => c = .canceled
  | .stop c => c ≠ .failed
  | _ => True

instance (s : AsynchListener) : ∀ (e : Event) (s' : AsynchListener), Decidable (Cancels s e s')
  | .start _ e, _ => inferInstanceAs (Decidable (e.cancel = .canceled))
  | .initialAccept _ c, _ => inferInstanceAs (Decidable (c = .canceled))
  | .stop c, _ => inferInstanceAs (Decidable (c ≠ .failed))
  | .initialize_, _ | .complete _ _ _, _ | .handleAccept _ _ _, _ => inferInstanceAs (Decidable True)

end AsynchListener

end ACENetwork.Net
