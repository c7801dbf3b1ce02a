import Mathlib
import ACENetwork.Spec.Irc.Wire

/-! `IRC_Module_Streamer_T::handleDataMessage` with each write that it makes by itself, at the write
pointer of the block, beside the check of the space in front of it if there is one; and what stands
between the parameters that it writes. -/

namespace ACENetwork.Irc.RawStreamer

/-- How the function does not leave a message: an assertion fails, it writes behind the end of the
block, or it releases the message. -/
inductive Failure where
  | assertion
  | overrun
  | released
  deriving DecidableEq, Repr

def outcome : Streamer.Failure → Failure
  | .assertion => .assertion
  | .noSpace | .digits | .invalidCommand => .released

def check (n : ℕ) (m : MessageBlock) : Except Failure Unit :=
  if m.space < n then .error .released else .ok ()

/-- Octets at the write pointer, which moves behind them. Nothing keeps them inside the block. -/
def put (bytes : List UInt8) (m : MessageBlock) : Except Failure MessageBlock :=
  match m.copy bytes with
  | some m => .ok m
  | none => .error .overrun

/-- `ACE_Message_Block::copy`, which refuses what does not fit. -/
def copy (m : MessageBlock) (bytes : List UInt8) : Except Failure MessageBlock :=
  match m.copy bytes with
  | some m => .ok m
  | none => .error .released

def putChecked (a : UInt8) (m : MessageBlock) : Except Failure MessageBlock := do
  check 1 m
  put [a] m

def copyOptional (mark : UInt8) (part : List UInt8) (m : MessageBlock) : Except Failure MessageBlock :=
  if part = [] then .ok m else do
    let m ← putChecked mark m
    copy m part

/-- The first octet of the message is written without a check. -/
def copyPrefix (p : Prefix) (m : MessageBlock) : Except Failure MessageBlock :=
  if p.origin = [] then .ok m else do
    let m ← put [colon] m
    let m ← copy m p.origin
    let m ← copyOptional bang p.user m
    let m ← copyOptional commercialAt p.host m
    putChecked space m

/-- `snprintf` writes three digits of the number, which has no fewer, and a NUL. -/
def copyCommand (c : Command) (m : MessageBlock) : Except Failure MessageBlock :=
  match c with
  | .numeric n => do
    check 4 m
    let digits := Streamer.decimal n.toNat
    let _ ← put (digits.take 3 ++ [0]) m
    if digits.length ≠ 3 then .error .released else put digits m
  | .string s => copy m s
  | .invalid => .error .released

def copyParameters (ranges : List (ℕ × ℕ)) (forward : ℕ) :
    List (List UInt8) → MessageBlock → Except Failure MessageBlock
  | [], m => .ok m
  | [p], m =>
    if space ∈ p then do
      if Streamer.separator forward (Streamer.advance forward ranges) ≠ space then throw .assertion
      let m ← putChecked colon m
      copy m p
    else copy m p
  | p :: q :: ps, m => do
    let ranges := Streamer.advance forward ranges
    let m ← copy m p
    let m ← putChecked (Streamer.separator forward ranges) m
    copyParameters ranges (forward + 1) (q :: ps) m

def copySeparator (ps : List (List UInt8)) (m : MessageBlock) : Except Failure MessageBlock :=
  if ps = [] then .ok m else putChecked space m

def handleDataMessage (r : Record) (m : MessageBlock) : Except Failure MessageBlock := do
  if m.length ≠ 0 then throw .assertion
  if m.space < maximumFrameSize then throw .assertion
  let m ← copyPrefix r.prefix_ m
  let m ← copyCommand r.command m
  let m ← copySeparator r.parameters m
  let m ← copyParameters r.parameterRanges 0 r.parameters m
  check 2 m
  put frameBoundary m

end RawStreamer

/-- Ranges of a list of `n` parameters that ascend and do not overlap. -/
structure ValidRanges (n : ℕ) (ranges : List (ℕ × ℕ)) : Prop where
  inside : ∀ range ∈ ranges, range.1 ≤ range.2 ∧ range.2 < n
  ascending : ranges.Pairwise fun a b => a.2 < b.1

def InRange (ranges : List (ℕ × ℕ)) (i : ℕ) : Prop := ∃ range ∈ ranges, range.1 ≤ i ∧ i ≤ range.2

/-- A parameter and the next one are in the same list. -/
def SameRange (ranges : List (ℕ × ℕ)) (i : ℕ) : Prop := ∃ range ∈ ranges, range.1 ≤ i ∧ i + 1 ≤ range.2

instance (ranges : List (ℕ × ℕ)) (i : ℕ) : Decidable (InRange ranges i) :=
  inferInstanceAs (Decidable (∃ range ∈ ranges, _))

instance (ranges : List (ℕ × ℕ)) (i : ℕ) : Decidable (SameRange ranges i) :=
  inferInstanceAs (Decidable (∃ range ∈ ranges, _))

instance (n : ℕ) (ranges : List (ℕ × ℕ)) : Decidable (ValidRanges n ranges) :=
  decidable_of_iff ((∀ range ∈ ranges, range.1 ≤ range.2 ∧ range.2 < n) ∧
    ranges.Pairwise fun a b => a.2 < b.1) ⟨fun h => ⟨h.1, h.2⟩, fun h => ⟨h.1, h.2⟩⟩

/-- A parameter that may be an item of a list. -/
structure IsItem (p : List UInt8) : Prop where
  nonempty : p ≠ []
  octets : ∀ a ∈ p, a ∉ [space, comma, 0, 13, 10]
  head : p.head? ≠ some colon

instance (p : List UInt8) : Decidable (IsItem p) :=
  decidable_of_iff (p ≠ [] ∧ (∀ a ∈ p, a ∉ [space, comma, 0, 13, 10]) ∧ p.head? ≠ some colon)
    ⟨fun h => ⟨h.1, h.2.1, h.2.2⟩, fun h => ⟨h.1, h.2, h.3⟩⟩

/-- The last parameter has no SPACE if it is in a list. -/
def PlainListEnd (r : Record) : Prop :=
  ∀ p ∈ r.parameters.getLast?, space ∈ p → ¬ InRange r.parameterRanges (r.parameters.length - 1)

def joined (separator : ℕ → UInt8) : ℕ → List (List UInt8) → List UInt8
  | _, [] => []
  | _, [p] => p
  | i, p :: q :: ps => p ++ separator i :: joined separator (i + 1) (q :: ps)

def listSeparator (ranges : List (ℕ × ℕ)) (i : ℕ) : UInt8 :=
  if SameRange ranges i then comma else space

/-- The frame with commas between the items of a list, and SPACEs between all other parameters. -/
def listFrame (r : Record) : List UInt8 :=
  prefixFrame r.prefix_ ++ (commandFrame r.command ++
    ((if r.parameters = [] then [] else
      space :: joined (listSeparator r.parameterRanges) 0 r.parameters) ++ frameBoundary))

/-- The parameters as they are written, with the mark of the last one. -/
def writtenParameters (ranges : List (ℕ × ℕ)) (forward : ℕ) : List (List UInt8) → List UInt8
  | [] => []
  | [p] => lastFrame p
  | p :: q :: ps =>
    let ranges := Streamer.advance forward ranges
    p ++ Streamer.separator forward ranges :: writtenParameters ranges (forward + 1) (q :: ps)

def writtenFrame (r : Record) : List UInt8 :=
  prefixFrame r.prefix_ ++ (commandFrame r.command ++
    ((if r.parameters = [] then [] else
      space :: writtenParameters r.parameterRanges 0 r.parameters) ++ frameBoundary))

end ACENetwork.Irc
