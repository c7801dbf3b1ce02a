import Mathlib
import ACENetwork.Spec.Ace

/-! IRC messages (`IRC_Record`) and the module that writes them to the wire
(`IRC_Module_Streamer_T`). Strings are lists of octets. -/

namespace ACENetwork.Irc

structure Prefix where
  origin : List UInt8 := []
  user : List UInt8 := []
  host : List UInt8 := []
  deriving DecidableEq, Repr

/-- The union of a command, with its discriminator. -/
inductive Command where
  | numeric (n : UInt32)
  | string (s : List UInt8)
  | invalid
  deriving DecidableEq, Repr

structure Record where
  prefix_ : Prefix := {}
  command : Command := .invalid
  parameters : List (List UInt8) := []
  parameterRanges : List (ℕ × ℕ) := []
  deriving DecidableEq, Repr

def maximumFrameSize : ℕ := 512

def frameBoundary : List UInt8 := [13, 10]

def space : UInt8 := 32
def comma : UInt8 := 44
def colon : UInt8 := 58
def bang : UInt8 := 33
def commercialAt : UInt8 := 64

namespace Streamer

/-- Why `handleDataMessage` does not leave a message: one of its assertions failed, or it
released the message because the buffer is too small, the number does not have three digits,
or there is no command. -/
inductive Failure where
  | assertion
  | noSpace
  | digits
  | invalidCommand
  deriving DecidableEq, Repr

def copy (m : MessageBlock) (bytes : List UInt8) : Except Failure MessageBlock :=
  match m.copy bytes with
  | some m => .ok m
  | none => .error .noSpace

/-- The conversion `%.3u`: the decimal digits of a number, three at least. -/
def decimal (n : ℕ) : List UInt8 :=
  let digits := Nat.digits 10 n
  ((digits ++ List.replicate (3 - digits.length) 0).map fun d => 48 + UInt8.ofNat d).reverse

/-- A part of the prefix behind the character that introduces it, unless it is empty. -/
def copyOptional (mark : UInt8) (part : List UInt8) (m : MessageBlock) : Except Failure MessageBlock :=
  if part = [] then .ok m else do
    let m ← copy m [mark]
    copy m part

def copyPrefix (p : Prefix) (m : MessageBlock) : Except Failure MessageBlock :=
  if p.origin = [] then .ok m else do
    let m ← copy m [colon]
    let m ← copy m p.origin
    let m ← copyOptional bang p.user m
    let m ← copyOptional commercialAt p.host m
    copy m [space]

/-- A number is written with the NUL that `snprintf` puts behind it, which needs room too. -/
def copyCommand (c : Command) (m : MessageBlock) : Except Failure MessageBlock :=
  match c with
  | .numeric n =>
    if m.space < 4 then .error .noSpace else
    if (decimal n.toNat).length ≠ 3 then .error .digits else
    copy m (decimal n.toNat)
  | .string s => copy m s
  | .invalid => .error .invalidCommand

/-- The range iterator moves by one range at most for each parameter. -/
def advance (forward : ℕ) : List (ℕ × ℕ) → List (ℕ × ℕ)
  | [] => []
  | range :: ranges => if range.2 < forward then ranges else range :: ranges

def separator (forward : ℕ) : List (ℕ × ℕ) → UInt8
  | [] => space
  | range :: _ => if range.1 ≤ forward ∧ forward ≤ range.2 then comma else space

/-- The loop over the parameters. The last one is marked if it contains a SPACE. -/
def copyParameters (ranges : List (ℕ × ℕ)) (forward : ℕ) :
    List (List UInt8) → MessageBlock → Except Failure MessageBlock
  | [], m => .ok m
  | [p], m =>
    if space ∈ p then do
      if separator forward (advance forward ranges) ≠ space then throw .assertion
      let m ← copy m [colon]
      copy m p
    else copy m p
  | p :: q :: ps, m => do
    let ranges := advance forward ranges
    let m ← copy m p
    let m ← copy m [separator forward ranges]
    copyParameters ranges (forward + 1) (q :: ps) m

def copySeparator (ps : List (List UInt8)) (m : MessageBlock) : Except Failure MessageBlock :=
  if ps = [] then .ok m else copy m [space]

/-- `IRC_Module_Streamer_T::handleDataMessage`. -/
def handleDataMessage (r : Record) (m : MessageBlock) : Except Failure MessageBlock := do
  if m.length ≠ 0 then throw .assertion
  if m.space < maximumFrameSize then throw .assertion
  let m ← copyPrefix r.prefix_ m
  let m ← copyCommand r.command m
  let m ← copySeparator r.parameters m
  let m ← copyParameters r.parameterRanges 0 r.parameters m
  copy m frameBoundary

end Streamer

end ACENetwork.Irc
