import Mathlib
import ACENetwork.Library.Scanner
import ACENetwork.Library.Loop
import ACENetwork.Library.Transition
import ACENetwork.Spec.Irc.Record

/-! `IRC_Module_Bisector_T`, which cuts what comes from a socket into frames, with the scanner of
`bisector.l`. The second part says what it is for: a `Framing` has the frames that the scanner
finds in the fragments, without the counters that the module cuts by. -/

namespace ACENetwork.Irc.Bisector

open Flex

inductive Start where
  | initial | endOfFrame
  deriving DecidableEq, Repr

inductive RuleName where
  | carriageReturn | message | char | frameEnd | endOfFrameChar
  deriving DecidableEq, Repr

def isMessage (a : UInt8) : Bool := decide (a ≠ 13 ∧ a ≠ 10)

def on (c : Start) : Start → Bool := fun c' => decide (c' = c)

def rules : List (Rule Start UInt8 RuleName) :=
  [⟨on .initial, Pattern.literal [13], .carriageReturn⟩,
    ⟨on .initial, Pattern.plus isMessage, .message⟩,
    ⟨on .initial, Pattern.any, .char⟩,
    ⟨on .endOfFrame, Pattern.literal [10], .frameEnd⟩,
    ⟨on .endOfFrame, Pattern.any, .endOfFrameChar⟩]

/-- The scanner: its start condition, the rest of the scan buffer, and the length of the text that
`yymore` keeps in front of the next match. -/
structure Scanner where
  start : Start
  buffer : List UInt8
  more : ℕ := 0
  deriving DecidableEq, Repr

/-- What `IRC_Bisector_lex` returns: 0 at the end of the buffer, -1 at the end of a frame, and
otherwise the length of the text. -/
inductive Chunk where
  | endOfBuffer
  | frameEnd
  | bytes (n : ℕ)
  deriving DecidableEq, Repr

/-- One rule either returns, or the scanner takes another one. -/
inductive Lexed where
  | next (s : Scanner)
  | chunk (c : Chunk) (s : Scanner)
  | jammed

def act (name : RuleName) (yyleng : ℕ) (s : Scanner) : Lexed :=
  match name with
  | .carriageReturn => .next { s with start := .endOfFrame }
  | .message => .chunk (.bytes yyleng) s
  | .char => .chunk (.bytes yyleng) { s with more := yyleng }
  | .frameEnd => .chunk .frameEnd { s with start := .initial }
  | .endOfFrameChar => .chunk (.bytes yyleng) { s with start := .initial, more := yyleng }

def lex (s : Scanner) : Lexed :=
  if s.buffer = [] then .chunk .endOfBuffer { s with more := 0 } else
  match select rules s.start s.buffer with
  | some (name, n) => act name (s.more + n) { s with buffer := s.buffer.drop n, more := 0 }
  | none => .jammed

/-- A message block with something in it. Its length is an `int` for the scanner. -/
structure Fragment where
  bytes : List UInt8
  nonempty : bytes ≠ []
  fits : bytes.length < 2 ^ 31

abbrev Chain := List (List UInt8)

def totalLength (c : Chain) : ℕ := c.flatten.length

/-- The module: `buffer_`, `messageLength_`, the start condition of its scanner, and what it has
put to the next module. -/
structure Module where
  buffer : Chain := []
  messageLength : UInt32 := 0
  start : Start := .initial
  pushed : List Chain := []
  deriving DecidableEq, Repr

inductive Outcome where
  | returned (m : Module)
  | assertion
  | jammed
  deriving DecidableEq, Repr

/-- The loop of `handleDataMessage`. `block` is the last one of the chain `buffer_`; the numbers
are 32 bits wide and wrap around. -/
structure Scan where
  earlier : Chain
  block : List UInt8
  scannedBytes : UInt32 := 0
  messageLength : UInt32
  scanner : Scanner
  pushed : List Chain

def Scan.cut (s : Scan) (scannedBytes messageLength : UInt32) (scanner : Scanner) :
    Loop.Next Scan Outcome :=
  if messageLength.toNat < totalLength (s.earlier ++ [s.block]) then
    -- ACE_ASSERT (messageLength_ == message_p->total_length ()), behind the new write position
    if messageLength.toNat = totalLength s.earlier + scannedBytes.toNat then
      .again
        { earlier := []
          block := s.block.drop scannedBytes.toNat
          messageLength := 0
          scanner := scanner
          pushed := s.pushed ++ [s.earlier ++ [s.block.take scannedBytes.toNat]] }
    else .done .assertion
  else
    -- ACE_ASSERT (messageLength_ == message_p->total_length ())
    if messageLength.toNat = totalLength (s.earlier ++ [s.block]) then
      .done (.returned
        { start := scanner.start
          pushed := s.pushed ++ [s.earlier ++ [s.block]] })
    else .done .assertion

def Scan.body (s : Scan) : Loop.Next Scan Outcome :=
  match lex s.scanner with
  | .next scanner => .again { s with scanner := scanner }
  | .jammed => .done .jammed
  | .chunk .endOfBuffer scanner =>
    .done (.returned
      { buffer := s.earlier ++ [s.block]
        messageLength := s.messageLength + s.scannedBytes
        start := scanner.start
        pushed := s.pushed })
  | .chunk .frameEnd scanner =>
    if s.scannedBytes = 0 ∧ s.block.head? = some 10 then
      s.cut 1 (s.messageLength + 2) scanner
    else s.cut (s.scannedBytes + 2) (s.messageLength + (s.scannedBytes + 2)) scanner
  | .chunk (.bytes n) scanner =>
    .again { s with scannedBytes := s.scannedBytes + UInt32.ofNat n, scanner := scanner }

namespace Module

/-- `handleDataMessage`. Every iteration but the last one takes a byte from the scan buffer. -/
def handleDataMessage (m : Module) (f : Fragment) : Option Outcome :=
  if totalLength (m.buffer ++ [f.bytes]) < 2 then
    some (.returned { m with buffer := m.buffer ++ [f.bytes] })
  else Loop.run Scan.body (f.bytes.length + 1)
    { earlier := m.buffer
      block := f.bytes
      messageLength := m.messageLength
      scanner := { start := m.start, buffer := f.bytes }
      pushed := m.pushed }

/-- The module behind a call, unless the program ended. -/
def step (m : Module) (f : Fragment) : Option Module :=
  match m.handleDataMessage f with
  | some (.returned m') => some m'
  | _ => none

end Module

def bytes (fs : List Fragment) : List UInt8 := (fs.map Fragment.bytes).flatten

def Clean (w : List UInt8) : Prop := ∀ a ∈ w, isMessage a = true

/-- A frame, and whether its first byte came alone. -/
structure Frame where
  alone : Bool
  bytes : List UInt8
  deriving DecidableEq, Repr

/-- A line that the module can count: it has no other CR or LF than those at its end, it is not too
long for the counter, and its first byte did not come alone. -/
def Frame.Regular (x : Frame) : Prop :=
  x.alone = false ∧ x.bytes.length < 2 ^ 32 ∧ ∃ w, Clean w ∧ x.bytes = w ++ frameBoundary

/-- The frames found so far, the start condition, the bytes behind the last frame, and whether the
first one of these came alone, when it is not scanned. -/
structure Framing where
  frames : List Frame := []
  start : Start := .initial
  pending : List UInt8 := []
  alone : Bool := false
  deriving DecidableEq, Repr

namespace Framing

def byte (x : Framing) (a : UInt8) : Framing :=
  match x.start with
  | .initial =>
    { x with
      start := if a = 13 then .endOfFrame else .initial
      pending := x.pending ++ [a] }
  | .endOfFrame =>
    if a = 10 then { frames := x.frames ++ [⟨x.alone, x.pending ++ [a]⟩] }
    else { x with start := .initial, pending := x.pending ++ [a] }

def fragment (x : Framing) (f : Fragment) : Framing :=
  if (x.pending ++ f.bytes).length < 2 then { x with pending := x.pending ++ f.bytes, alone := true }
  else f.bytes.foldl byte x

end Framing

def framing (fs : List Fragment) : Framing := fs.foldl Framing.fragment {}

/-- After every call, no assertion has failed, and what was put to the next module and what is in
the buffer are the bytes received. -/
def Conserves (fs : List Fragment) : Prop :=
  ∀ gs, gs <+: fs → ∃ m, Transition.exec Module.step {} gs = some m ∧
    m.pushed.flatten.flatten ++ m.buffer.flatten = bytes gs

def joined (lines : List (List UInt8)) : List UInt8 := (lines.map (· ++ frameBoundary)).flatten

def Partial (b : List UInt8) : Prop := ∃ w, Clean w ∧ (b = w ∨ b = w ++ [13])

/-- The line behind the first `i` ones begins with a fragment of one byte. -/
def BegunAlone (fs : List Fragment) (lines : List (List UInt8)) (i : ℕ) : Prop :=
  ∃ gs f hs, fs = gs ++ f :: hs ∧ bytes gs = joined (lines.take i) ∧ f.bytes.length = 1

/-- After every call, no assertion has failed, the complete lines were put to the next module, one
in each chain, and the rest is in the buffer. -/
def Splits (fs : List Fragment) : Prop :=
  ∀ gs, gs <+: fs → ∃ m lines rest, Transition.exec Module.step {} gs = some m ∧
    (∀ w ∈ lines, Clean w) ∧ Partial rest ∧ bytes gs = joined lines ++ rest ∧
    m.pushed.map List.flatten = lines.map (· ++ frameBoundary) ∧ m.buffer.flatten = rest

end ACENetwork.Irc.Bisector
