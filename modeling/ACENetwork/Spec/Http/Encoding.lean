import Mathlib
import ACENetwork.Spec.Http.Message

/-! The call of `encoding` that the grammar makes for a header line, and what it is to say. -/

namespace ACENetwork.Http

open Flex Bison Parser

/-- The argument of the call for a header line, which is compared by letter case. -/
def encodingCall (header : List UInt8) : Option (List UInt8) :=
  match matchHeader header with
  | some (name, _) => if name = headerContentEncoding then some name else none
  | none => none

section

variable (tools : StringTools)

def Record.storeLine (r : Record) (line : List UInt8) : Record :=
  match matchHeader line with
  | some (name, value) => { r with headers := r.headers.insert (tools.tolower name) value }
  | none => r

def State.storeLine (s : State) (line : List UInt8) : State :=
  { s with record := s.record.storeLine tools line }

/-- The header lines that the scanner takes one after the other, the first one of which it has just
taken, with each stored before the scanner is called for the next one. -/
inductive Takes : State → List (List UInt8) → State → Prop where
  | last (s : State) (line : List UInt8) : Takes s [line] (s.storeLine tools line)
  | more {s s₁ s' : State} {line next : List UInt8} {lines : List (List UInt8)}
    (hlex : Lexes (scan tools) (enter (s.storeLine tools line)) .header (.sval next) s₁)
    (h : Takes s₁ (next :: lines) s') : Takes s (line :: next :: lines) s'

/-- The grammar comes back from the action of every line. -/
inductive GoesOn : State → List (List UInt8) → State → Prop where
  | last {s s' : State} {line : List UInt8} {v : Value}
    (hv : semantics tools .headers [.none, .sval line] s = .value v s') : GoesOn s [line] s'
  | more {s s₁ s₂ s' : State} {line next : List UInt8} {lines : List (List UInt8)} {v : Value}
    (hv : semantics tools .headers [.none, .sval line] s = .value v s₁)
    (hlex : Lexes (scan tools) (enter s₁) .header (.sval next) s₂)
    (h : GoesOn s₂ (next :: lines) s') : GoesOn s (line :: next :: lines) s'

end

/-- The stacks of the parser behind the header lines that it has read so far: those of a request, of
a response and of the trailer of a chunked body. -/
inductive InLines : List (ℕ × Value) → Prop where
  | request (method : Value) : InLines [(15, .none), (7, .none), (1, method)]
  | response (version : Value) : InLines [(18, .none), (10, .none), (2, version)]
  | trailer (chunk delimiter : Value) :
    InLines [(27, .none), (25, .none), (20, chunk), (12, delimiter), (4, .none)]

def lineName (line : List UInt8) : List UInt8 := line.takeWhile fun a => decide (a ≠ 58)

def lineValue (line : List UInt8) : List UInt8 :=
  match line.dropWhile fun a => decide (a ≠ 58) with
  | _ :: a :: value => if isSpace a then value else a :: value
  | _ => []

/-- The header line is named `Content-Encoding`, in any letter case. -/
def NamesEncoding (line : List UInt8) : Prop := compareNames (lineName line) headerContentEncoding = .eq

instance (line : List UInt8) : Decidable (NamesEncoding line) := inferInstanceAs (Decidable (_ = _))

def Record.encoding (r : Record) : Option (List UInt8) := r.headers[headerContentEncoding]?

/-- The parser gets through the header lines, there is one call for each of them with the name, with
its value, and the last of these is what `record` finds. -/
structure Reports (tools : StringTools) (stack : List (ℕ × Value)) (s : State)
    (lines : List (List UInt8)) (s' : State) : Prop where
  goesOn : GoesOn tools s lines s'
  path : Path (parser tools) (fun _ => True) ⟨stack, .token .header (.sval (lines.headD [])), s⟩
    ⟨stack, .empty, s'⟩
  values : lines.filterMap encodingCall = (lines.filter NamesEncoding).map lineValue
  found : ∀ value ∈ ((lines.filter NamesEncoding).map lineValue).getLast?, s'.record.encoding = some value

end ACENetwork.Http
