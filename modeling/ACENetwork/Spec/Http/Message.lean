import Mathlib
import ACENetwork.Spec.Http.Parser

/-! HTTP messages as they stand on the wire, in one or more fragments, and what a parser is to
make of them. -/

namespace ACENetwork.Http

open Flex Bison

/-- The text of a method and of a version, where the codes have one. -/
def Method.text : Method → List UInt8
  | .get => ascii "GET"
  | .post => ascii "POST"
  | .head => ascii "HEAD"
  | .invalid => []

def Version.text : Version → List UInt8
  | .v0_9 => ascii "HTTP/0.9"
  | .v1_0 => ascii "HTTP/1.0"
  | .v1_1 => ascii "HTTP/1.1"
  | .v2 => ascii "HTTP/2"
  | .invalid => []

/-- The first line of a message, without the CR LF that ends it. -/
inductive StartLine where
  | request (method uri version : List UInt8) (hmethod : method ∈ Http.method.lang)
    (huri : uri ∈ requestUri.lang) (hversion : version ∈ Http.version.lang)
  | status (version code reason : List UInt8) (hversion : version ∈ Http.version.lang)
    (hcode : code ∈ (digits 3).lang) (hreason : reason ∈ Http.reason.lang)

namespace StartLine

def text : StartLine → List UInt8
  | .request method uri version _ _ _ => method ++ [32] ++ uri ++ [32] ++ version
  | .status version code reason _ _ _ => version ++ [32] ++ code ++ [32] ++ reason

def version : StartLine → List UInt8
  | .request _ _ version .. => version
  | .status version .. => version

def isStatus : StartLine → Bool
  | .request .. => false
  | .status .. => true

def headersStart : StartLine → Start
  | .request .. => .requestHeaders
  | .status .. => .responseHeaders

end StartLine

/-- A header line, without the CR LF that ends it. -/
structure Field where
  name : List UInt8
  value : List UInt8
  name_ne : name ≠ []
  colon : 58 ∉ name
  value_ne : value ≠ []

namespace Field

def text (f : Field) : List UInt8 := f.name ++ ascii ": " ++ f.value

/-- The value has neither CR nor LF; that of a quoted string may have them. -/
def Plain (f : Field) : Prop := f.value.all isLine = true

instance (f : Field) : Decidable f.Plain := inferInstanceAs (Decidable (_ = true))

def Names (f : Field) (name : List UInt8) : Prop := compareNames f.name name = .eq

instance (f : Field) (name : List UInt8) : Decidable (f.Names name) :=
  inferInstanceAs (Decidable (_ = _))

def isNamed (tools : StringTools) (key : List UInt8) (f : Field) : Bool :=
  compareNames (tools.tolower f.name) key == .eq

end Field

def fieldsText (fs : List Field) : List UInt8 := fs.flatMap fun f => f.text ++ crlf

/-- The scanner takes every header line as one, with `rest` behind the empty line. -/
def Accepts (start : Start) : List Field → List UInt8 → Prop
  | [], _ => True
  | f :: fs, rest =>
    select rules start (f.text ++ (crlf ++ (fieldsText fs ++ (crlf ++ rest)))) =
        some (.header, f.text.length + 2) ∧
      Accepts start fs rest

structure Head where
  line : StartLine
  fields : List Field

def Head.text (h : Head) : List UInt8 := h.line.text ++ crlf ++ (fieldsText h.fields ++ crlf)

def Head.Accepted (h : Head) (rest : List UInt8) : Prop := Accepts h.line.headersStart h.fields rest

/-- No header line is one for which the grammar calls `encoding`. -/
def Head.Unencoded (h : Head) : Prop := ∀ f ∈ h.fields, f.name ≠ headerContentEncoding

instance (h : Head) : Decidable h.Unencoded := inferInstanceAs (Decidable (∀ f ∈ h.fields, _))

section

variable (tools : StringTools)

def lastValue (fields : List Field) (key : List UInt8) : Option (List UInt8) :=
  ((fields.filter (Field.isNamed tools key)).getLast?).map Field.value

/-- The last `Content-Length` is the number `n` in decimal digits. -/
def Announces (fields : List Field) (n : ℕ) : Prop :=
  ∃ v, lastValue tools fields (tools.tolower headerContentLength) = some v ∧ v ≠ [] ∧
    v.all isDigit = true ∧ number 10 v = n

def Record.Decodes (r : Record) (h : Head) : Prop :=
  r.version.text = h.line.version ∧
    (match h.line with
    | .request method uri _ _ _ _ => r.method.text = method ∧ r.uri = uri
    | .status _ code reason _ _ _ => r.status = number 10 code ∧ r.reason = reason) ∧
    ∀ key, r.headers[key]? = lastValue tools h.fields key

/-- A message in one buffer is parsed to one record that has what the head says. -/
def Decodes (blocking : Bool) (h : Head) (body : List UInt8) : Prop :=
  ∃ code s r, Parses tools { blocking := blocking } (h.text ++ body) [] [] (.returned code s) ∧
    s.records = [r] ∧ r.Decodes tools h

end

/-- The contents of the fragments that come after the one at hand. -/
def State.Upcoming (s : State) (buffers : List (List UInt8)) : Prop :=
  ∃ b blocks, s.heap.Chain s.fragment (b :: blocks) ∧ buffers = blocks.map Block.content ++ s.queue

def State.Remains (s : State) (bytes : List UInt8) : Prop :=
  ∃ buffers, s.Upcoming buffers ∧ bytes = s.buffer ++ buffers.flatten

section

variable (tools : StringTools)

/-- The parser that starts in `s` calls the scanner in `s₀` for what comes behind the empty line. -/
def EntityAt (s s₀ : State) : Prop :=
  ∃ stack, (parser tools).Enters 12 (Parser.start s) ⟨stack, .empty, s₀⟩

/-- The scanner takes the first `n` octets behind the head as the entity and counts them down
without a wrap-around, and the parser delivers one record. -/
def Framed (h : Head) (n : ℕ) (first : List UInt8) (conts queue : List (List UInt8))
    (tail : List UInt8) : Prop :=
  let s := Driver.begin { blocking := true } (h.text ++ first) conts queue
  ∃ s₀ s₁, EntityAt tools s s₀ ∧
    Lexes (scan tools) (enter s₀) .body (.ival (UInt32.ofNat n)) s₁ ∧
    s₁.start = .initial ∧ s₁.Remains tail ∧
    (∀ t, Within (scan tools) (enter s₀) t → t.chunkSize ≠ 0 →
      ∃ bytes, t.Remains bytes ∧ t.missing.toNat + tail.length = bytes.length) ∧
    ∃ code s' r, (parser tools).Halts (Parser.start s) (.returned code s') ∧ s'.records = [r]

/-- The scanner goes on with a chunked body behind the head. -/
def GoesOnChunked (blocking : Bool) (h : Head) (first : List UInt8) (conts queue : List (List UInt8)) :
    Prop :=
  ∃ s₀, EntityAt tools (Driver.begin { blocking := blocking } (h.text ++ first) conts queue) s₀ ∧
    s₀.start = .chunkedBody

/-- A message that ends with its head is delivered as one record, and what comes behind the head
is left alone. -/
def Completes (blocking : Bool) (h : Head) (first : List UInt8) (conts queue : List (List UInt8)) :
    Prop :=
  ∃ code s r, Parses tools { blocking := blocking } (h.text ++ first) conts queue
    (.returned code s) ∧ s.records = [r] ∧ s.Remains (first ++ conts.flatten ++ queue.flatten)

end

/-- A chunk with its size in hexadecimal digits, its extensions and its data. -/
structure Chunk where
  size : List UInt8
  extensions : List UInt8
  data : List UInt8
  size_ne : size ≠ []
  size_hex : size.all isXdigit = true
  extensions_start : ∀ a ∈ extensions.head?, a = 59
  extensions_line : extensions.all isLine = true
  size_eq : number 16 size = data.length
  size_lt : data.length < 2 ^ 32

namespace Chunk

def line (c : Chunk) : List UInt8 := c.size ++ c.extensions ++ crlf

/-- The last chunk has no data, and the empty line behind it is that of the trailer. -/
def text (c : Chunk) : List UInt8 := if c.data = [] then c.line else c.line ++ c.data ++ crlf

end Chunk

section

variable (tools : StringTools)

/-- Calls of the scanner in which every chunk is one token. -/
inductive Chunks : State → List Chunk → State → Prop where
  | nil (s : State) : Chunks s [] s
  | cons {s s₁ s' : State} {c : Chunk} {cs : List Chunk} {v : Value} {bytes : List UInt8}
    (h : Lexes (scan tools) (enter s) .chunk v s₁) (hs : s.Remains (c.text ++ bytes))
    (hs₁ : s₁.Remains bytes) (hcs : Chunks s₁ cs s') : Chunks s (c :: cs) s'

/-- The chunked body is parsed to one token for each chunk and to one record, what lies between
the positions of the blocks is the data, and the offset grows by what is consumed. -/
def ChunkedFramed (blocking : Bool) (h : Head) (chunks : List Chunk) (last : Chunk)
    (first : List UInt8) (conts queue : List (List UInt8)) : Prop :=
  let s := Driver.begin { blocking := blocking } (h.text ++ first) conts queue
  ∃ s₀ s₁ s₂ v, EntityAt tools s s₀ ∧
    Chunks tools s₀ (chunks ++ [last]) s₁ ∧ s₁.Remains crlf ∧
    Lexes (scan tools) (enter s₁) .delimiter v s₂ ∧ s₂.Remains [] ∧
    (∃ blocks, s₂.heap.Chain 0 blocks ∧
      (blocks.map Block.content).flatten = (chunks.map Chunk.data).flatten) ∧
    s₂.offset = s₀.offset + UInt32.ofNat (first ++ conts.flatten ++ queue.flatten).length ∧
    ∃ s' r, (parser tools).Halts (Parser.start s) (.returned .accepted s') ∧ s'.records = [r]

end

/-- A message with a body, in the fragments that a driver is given. -/
structure Message (tools : StringTools) where
  head : Head
  first : List UInt8
  conts : List (List UInt8)
  queue : List (List UInt8)
  body_ne : first ++ conts.flatten ++ queue.flatten ≠ []
  -- the length is read into an `unsigned int`
  body_lt : (first ++ conts.flatten ++ queue.flatten).length < 2 ^ 32
  announces : Announces tools head.fields (first ++ conts.flatten ++ queue.flatten).length
  accepted : head.Accepted first

section

variable {tools : StringTools}

namespace Message

def begin (m : Message tools) (d : Driver) : State := d.begin (m.head.text ++ m.first) m.conts m.queue

/-- The driver does not say that it has finished before it has delivered a record. -/
def Unfinished (m : Message tools) (d : Driver) : Prop :=
  ∀ c, Parser.Path (parser tools) (fun _ => True) (Parser.start (m.begin d)) c →
    c.state.records = [] → c.state.finished = false

end Message

def outcome : Result Fault State → Option (Bool × List Record)
  | .returned code s => some (decide (code = .accepted), s.records)
  | .fault _ => none

/-- A driver returns from each message like a new one does. -/
def Reusable : Driver → List (Message tools) → Prop
  | _, [] => True
  | d, m :: ms =>
    ∃ code s r', (parser tools).Halts (Parser.start (m.begin d)) (.returned code s) ∧
      (parser tools).Halts (Parser.start (m.begin { blocking := true })) r' ∧
      outcome (.returned code s) = outcome r' ∧ m.Unfinished d ∧ Reusable s.driver ms

end

end ACENetwork.Http
