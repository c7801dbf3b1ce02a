import Mathlib
import ACENetwork.Library.Loop

/-! `HTTP_ParserDriver_T::waitBuffer`: the parser's thread takes messages from its queue until one
has data or ends the session. -/

namespace ACENetwork.Http.WaitBuffer

/-- `Stream_SessionMessageType`, as far as it matters here. -/
inductive SessionMessageType where
  | end_ | other
  deriving DecidableEq, Repr

/-- `ACE_Message_Block::msg_type`, for `MB_USER` with the type of a session message. -/
inductive MessageType where
  | data | proto
  | user (session : Option SessionMessageType)
  | other
  deriving DecidableEq, Repr

structure Message where
  address : ℕ
  type : MessageType
  deriving DecidableEq, Repr

def Message.isData (m : Message) : Bool :=
  match m.type with
  | .data | .proto => true
  | _ => false

def Message.isEnd (m : Message) : Bool := decide (m.type = .user (some .end_))

/-- The queue, and the fragment with its continuations. -/
structure State where
  queue : List Message
  fragment : Message
  continuations : List Message := []
  deriving DecidableEq, Repr

/-- The body of the loop, and what comes after it. The thread sleeps while the queue is empty. -/
def body (s : State) : Loop.Next State State :=
  match s.queue with
  | [] => .again s
  | m :: queue =>
    if m.isData then .done { s with queue := queue, continuations := s.continuations ++ [m] } else
    let s := { s with queue := queue ++ [m] }
    if m.isEnd then .done s else .again s

/-- The parser has nothing to do with a message. -/
def Message.Skipped (m : Message) : Prop := m.isData = false ∧ m.isEnd = false

instance : DecidablePred Message.Skipped := fun _ => inferInstanceAs (Decidable (_ ∧ _))

/-- `m` is the message that the parser waits for, with `before` in front of it. -/
structure Awaited (queue before : List Message) (m : Message) (after : List Message) : Prop where
  queue : queue = before ++ m :: after
  skipped : ∀ x ∈ before, x.Skipped
  awaited : ¬ m.Skipped

/-- A message with data goes to the end of the fragments, and the others stay where they are. -/
def State.waited (s : State) (before : List Message) (m : Message) (after : List Message) : State :=
  if m.isData then { s with queue := before ++ after, continuations := s.continuations ++ [m] } else s

def KeepsQueue (s : State) (before : List Message) (m : Message) (after : List Message) : Prop :=
  Loop.Returns body s (s.waited before m after)

end ACENetwork.Http.WaitBuffer
