import Mathlib
import ACENetwork.Spec.Irc.Parser

/-! Frames as they stand on the wire, the messages that the grammar of the protocol allows,
and what a receiver makes of their parameters. -/

namespace ACENetwork.Irc

/-- A part of the prefix behind the character that introduces it, if it is there. -/
def optional (mark : UInt8) (part : List UInt8) : List UInt8 :=
  if part = [] then [] else mark :: part

def prefixFrame (p : Prefix) : List UInt8 :=
  if p.origin = [] then []
  else colon :: (p.origin ++ (optional bang p.user ++ (optional commercialAt p.host ++ [space])))

def gap (k : ℕ) : List UInt8 := List.replicate (k + 1) space

def prefixText (p : Prefix) (k : ℕ) : List UInt8 :=
  if p.origin = [] then []
  else colon :: (p.origin ++ (optional bang p.user ++ (optional commercialAt p.host ++ gap k)))

def commandFrame : Command → List UInt8
  | .numeric n => Streamer.decimal n.toNat
  | .string s => s
  | .invalid => []

def lastFrame (p : List UInt8) : List UInt8 := if space ∈ p then colon :: p else p

def parametersFrame : List (List UInt8) → List UInt8
  | [] => []
  | [p] => lastFrame p
  | p :: q :: ps => p ++ space :: parametersFrame (q :: ps)

def separated (ps : List (List UInt8)) : List UInt8 :=
  if ps = [] then [] else space :: parametersFrame ps

def frame (r : Record) : List UInt8 :=
  prefixFrame r.prefix_ ++ (commandFrame r.command ++ (separated r.parameters ++ frameBoundary))

/-- There is no prefix, or an origin with an optional user and an optional host. -/
def Prefix.Valid (p : Prefix) : Prop :=
  p = {} ∨ p.origin ∈ (Flex.Pattern.alt nick Irc.host).lang ∧
    (p.user = [] ∨ p.user ∈ Irc.user.lang) ∧ (p.host = [] ∨ p.host ∈ Irc.host.lang)

def Command.Valid : Command → Prop
  | .numeric n => n.toNat ≤ 999
  | .string s => s ≠ [] ∧ ∀ a ∈ s, isAlpha a = true
  | .invalid => False

/-- All parameters but the last are words without a SPACE that do not start with a colon;
the last one is any text without NUL, CR and LF. -/
def ValidParameters : List (List UInt8) → Prop
  | [] => True
  | [p] => ∀ a ∈ p, isTrailing a = true
  | p :: q :: ps =>
    (p ≠ [] ∧ (∀ a ∈ p, isMiddle a = true) ∧ p.head? ≠ some colon) ∧ ValidParameters (q :: ps)

/-- The texts that the grammar of the protocol has for parameters, and what the parser makes of
them: it does not store an empty last parameter. -/
inductive ParametersText : List UInt8 → List (List UInt8) → Prop where
  | none : ParametersText [] []
  | gap (k : ℕ) : ParametersText (Irc.gap k) []
  | middle (k : ℕ) {w b : List UInt8} {ps : List (List UInt8)} (hw : w ∈ param.lang)
    (hb : ParametersText b ps) : ParametersText (Irc.gap k ++ (w ++ b)) (w :: ps)
  | trailing (k : ℕ) {w : List UInt8} (hw : ∀ a ∈ w, isTrailing a = true) :
    ParametersText (Irc.gap k ++ colon :: w) (if w = [] then [] else [w])

/-- The well-formed frames: an optional prefix, a command, parameters, and CR LF. -/
inductive FrameText : List UInt8 → Record → Prop where
  | mk (k : ℕ) {p : Prefix} {command : Command} {b : List UInt8} {ps : List (List UInt8)}
    (hp : p.Valid) (hcommand : command.Valid) (hb : ParametersText b ps) :
    FrameText (prefixText p k ++ (commandFrame command ++ (b ++ frameBoundary))) ⟨p, command, ps, []⟩

structure Record.Valid (r : Record) : Prop where
  prefix_ : r.prefix_.Valid
  command : r.command.Valid
  ranges : r.parameterRanges = []
  parameters : ValidParameters r.parameters

/-- What is read from the frame of a last parameter. -/
def receivedLast (p : List UInt8) : List (List UInt8) :=
  if space ∈ p then [p] else
  match p with
  | [] => []
  | a :: q => if a = colon then (if q = [] then [] else [q]) else [a :: q]

def received : List (List UInt8) → List (List UInt8)
  | [] => []
  | [p] => receivedLast p
  | p :: q :: ps => p :: received (q :: ps)

/-- A last parameter that needs the colon contains a SPACE too. -/
def Marked (r : Record) : Prop :=
  ∀ p ∈ r.parameters.getLast?, space ∈ p ∨ (p ≠ [] ∧ p.head? ≠ some colon)

instance (r : Record) : Decidable (Marked r) :=
  match h : r.parameters.getLast? with
  | none => isTrue (by simp [Marked, h])
  | some p => decidable_of_iff (space ∈ p ∨ (p ≠ [] ∧ p.head? ≠ some colon)) (by simp [Marked, h])

/-- What is written for the message is parsed to a record with the same parts. -/
def RoundTrips (capacity : ℕ) (r : Record) : Prop :=
  ∃ m, Streamer.handleDataMessage r (MessageBlock.allocate capacity) = .ok m ∧
    ∃ r', Parses m.content (.returned true r') ∧ r'.prefix_ = r.prefix_ ∧ r'.command = r.command ∧
      r'.parameters = r.parameters

end ACENetwork.Irc
