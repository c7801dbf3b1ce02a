import Mathlib
import ACENetwork.Spec.Irc.ModuleParser
import ACENetwork.Spec.Irc.Bisector

/-! The exits of `IRC_Module_Parser_T::handleDataMessage`, with the two messages that it may have: the
chain that it receives from the bisector, and the copy that it makes in order to crunch it. -/

namespace ACENetwork.Irc.ModuleExits

open ModuleParser (flexBufferBoundarySize)

/-- What the calls in `handleDataMessage` do. `allocated` is the capacity of the message that is
allocated for `IRC_MAXIMUM_FRAME_SIZE` octets, and `copied` is asked for each block of the chain. -/
structure Outcomes where
  allocated : Option ℕ := some 512
  copied : ℕ → Bool := fun _ => true
  recordAllocated : Bool := true
  parsed : Bool := true
  put : Bool := true

inductive Message where
  | received
  | copy
  deriving DecidableEq, Repr

/-- The local variables, and what was released and passed on to the next module. -/
structure State where
  message_inout : Option Message := some .received
  message_p : Option Message := some .received
  passMessageDownstream_out : Bool
  made : List Message := [.received]
  released : List Message := []
  passed : List Message := []
  deriving DecidableEq, Repr

/-- How the call ends: it returns, an assertion fails, or a pointer that is NULL is used. -/
inductive Exit where
  | returned (s : State)
  | assertion
  | null
  deriving DecidableEq, Repr

def State.error (s : State) : Exit :=
  match s.message_p with
  | none => .null
  | some m =>
    .returned { s with
      message_p := none
      passMessageDownstream_out := false
      released := s.released ++ [m] }

inductive Copied where
  | all (message_p : MessageBlock)
  | failed
  | assertion

def copyBlocks (copied : ℕ → Bool) : ℕ → List (List UInt8) → MessageBlock → Copied
  | _, [], message_p => .all message_p
  | i, block :: cont, message_p =>
    if message_p.space < block.length then .assertion else
    match copied i, message_p.copy block with
    | true, some message_p => copyBlocks copied (i + 1) cont message_p
    | _, _ => .failed

def crunch (o : Outcomes) (chain : List (List UInt8)) (s : State) : Except Exit State :=
  match o.allocated with
  | none => .error { s with message_p := none }.error
  | some capacity =>
    let s := { s with message_p := some .copy, made := s.made ++ [Message.copy] }
    match copyBlocks o.copied 0 chain (MessageBlock.allocate capacity) with
    | .assertion => .error .assertion
    | .failed => .error { s with released := s.released ++ [Message.copy] }.error
    | .all message_p =>
      if message_p.capacity - message_p.length < flexBufferBoundarySize then .error .assertion
      else .ok { s with
        message_inout := none
        passMessageDownstream_out := false
        released := s.released ++ s.message_inout.toList }

/-- The message gets a record, is parsed, and goes to the next module, unless the caller passes it
on. -/
def parse (o : Outcomes) (s : State) : Exit :=
  if o.recordAllocated = false then s.error else
  match s.message_p with
  | none => .null
  | some m =>
    if o.parsed = false then s.error
    else if s.passMessageDownstream_out then .returned s
    else if o.put = false then s.error
    else .returned { s with passed := s.passed ++ [m] }

def handleDataMessage (crunchMessages_ passMessageDownstream_out : Bool) (o : Outcomes)
    (chain : List (List UInt8)) : Exit :=
  let s := { passMessageDownstream_out := passMessageDownstream_out }
  if crunchMessages_ then
    match crunch o chain s with
    | .error exit => exit
    | .ok s => parse o s
  else parse o s

/-- How often a message was released or passed on. The caller passes on what `message_inout` stands
for, if it is told so. -/
def State.disposals (s : State) (m : Message) : ℕ :=
  s.released.count m + s.passed.count m +
    if s.passMessageDownstream_out = true ∧ s.message_inout = some m then 1 else 0

/-- No assertion fails, no pointer that is NULL is used, and every message that there is is released
or passed on once. -/
def Survives (exit : Exit) : Prop :=
  ∃ s, exit = .returned s ∧ .received ∈ s.made ∧ ∀ m ∈ s.made, s.disposals m = 1

/-- A message is allocated, which has room for the frame and the boundary, and all is copied. -/
def Crunches (o : Outcomes) (chain : List (List UInt8)) : Prop :=
  ∃ capacity, o.allocated = some capacity ∧ chain.flatten.length + flexBufferBoundarySize ≤ capacity ∧
    ∀ i < chain.length, o.copied i = true

/-- The chains that the bisector has put to the next module in some run. -/
def Pushed (chain : List (List UInt8)) : Prop :=
  ∃ fs m, Transition.exec Bisector.Module.step {} fs = some m ∧ chain ∈ m.pushed

end ACENetwork.Irc.ModuleExits
