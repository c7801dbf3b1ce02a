import Mathlib
import ACENetwork.Spec.Irc.Parser

/-! `IRC_Module_Parser_T::handleDataMessage`, for a frame that comes as a chain of message blocks.
It copies the chain to one buffer that the scanner works in, or it lets the scanner copy the
first block. -/

namespace ACENetwork.Irc.ModuleParser

/-- The two octets of the value `YY_END_OF_BUFFER_CHAR` that flex wants behind a buffer. -/
def flexBufferBoundarySize : ℕ := 2

/-- What ends the program: one of the assertions of the module, or what does so in the parser. -/
inductive Fault where
  | space
  | boundary
  | parse (f : Irc.Fault)
  deriving DecidableEq, Repr

def copyBlocks : List (List UInt8) → MessageBlock → Except Fault MessageBlock
  | [], message_p => .ok message_p
  | block :: cont, message_p =>
    match message_p.copy block with
    | some message_p => copyBlocks cont message_p
    | none => .error .space

/-- What the scanner is given. `capacity` is that of the message which is allocated for
`IRC_MAXIMUM_FRAME_SIZE` octets. -/
def scanned (capacity : ℕ) (crunchMessages_ : Bool) (block : List UInt8) (cont : List (List UInt8)) :
    Except Fault (List UInt8) :=
  if crunchMessages_ then
    match copyBlocks (block :: cont) (MessageBlock.allocate capacity) with
    | .error f => .error f
    | .ok message_p =>
      if message_p.capacity - message_p.length < flexBufferBoundarySize then .error .boundary
      else .ok message_p.content
  else .ok block

inductive Handled where
  | passed (records : List Record)
  | fault (f : Fault)
  deriving DecidableEq, Repr

def handled : Parsed → Handled
  | .returned true record => .passed [record]
  | .returned false _ => .passed []
  | .fault f => .fault (.parse f)

def Handles (capacity : ℕ) (crunchMessages_ : Bool) (block : List UInt8) (cont : List (List UInt8))
    (h : Handled) : Prop :=
  match scanned capacity crunchMessages_ block cont with
  | .error f => h = .fault f
  | .ok fragment => ∃ p, Parses fragment p ∧ h = handled p

def PassesOnce (capacity : ℕ) (crunchMessages_ : Bool) (block : List UInt8) (cont : List (List UInt8))
    (record : Record) : Prop :=
  ∀ h, Handles capacity crunchMessages_ block cont h ↔ h = .passed [record]

def isWord : Token → Bool
  | .origin | .user | .host | .cmdString | .cmdNumeric | .param => true
  | _ => false

/-- How many octets stand behind the last word that the scanner finds in a text, in front of its
first token for the end; `n` if there is none. It finds a token in as many calls of `scan` as
there are octets. -/
def behindWords : ℕ → Start → List UInt8 → ℕ → ℕ
  | 0, _, _, n => n
  | calls + 1, c, b, n =>
    match scan { start := c, buffer := b } with
    | .more s => behindWords calls s.start s.buffer n
    | .token k _ s =>
      if k = .end_ then n
      else behindWords calls s.start s.buffer (if isWord k then s.buffer.length else n)
    | .fault _ => n

/-- The first block has all the words of the frame. -/
def HasWords (block : List UInt8) (cont : List (List UInt8)) : Prop :=
  let frame := block ++ cont.flatten
  cont.flatten.length ≤ behindWords frame.length .initial frame frame.length

/-- With crunching, the frame and the boundary fit the buffer; without, the first block has all
the words. -/
def Arrives (capacity : ℕ) (crunchMessages_ : Bool) (block : List UInt8) (cont : List (List UInt8)) :
    Prop :=
  if crunchMessages_ then (block ++ cont.flatten).length + flexBufferBoundarySize ≤ capacity
  else HasWords block cont

instance (block : List UInt8) (cont : List (List UInt8)) : Decidable (HasWords block cont) :=
  inferInstanceAs (Decidable (_ ≤ _))

instance (capacity : ℕ) (crunchMessages_ : Bool) (block : List UInt8) (cont : List (List UInt8)) :
    Decidable (Arrives capacity crunchMessages_ block cont) :=
  inferInstanceAs (Decidable (if crunchMessages_ then
    (block ++ cont.flatten).length + flexBufferBoundarySize ≤ capacity else HasWords block cont))

end ACENetwork.Irc.ModuleParser
