import Mathlib
import ACENetwork.Library.Bison
import ACENetwork.Spec.Http.Scanner
import ACENetwork.Spec.Http.Fragments

/-! The HTTP parser: the actions of `scanner.l`, `HTTP_Scanner_wrap`, the grammar of `parser.y`
with the automaton that Bison made of it, and `HTTP_ParserDriver_T::parse` with the `record` of
`HTTP_Module_Parser_T`. -/

namespace ACENetwork.Http

open Flex Bison

inductive Token where
  | method | uri | version | header | delimiter | status | reason | body | chunk
  | endOfFragment | end_
  deriving DecidableEq, Repr

/-- The union of semantic values. The lengths that the grammar adds up on its left-hand sides are
read by nobody, so those have no value here. -/
inductive Value where
  | none
  | ival (n : UInt32)
  | sval (s : List UInt8)
  deriving DecidableEq, Repr

/-- What ends the program while it parses: an assertion, among them that of
`HTTP_Module_Parser_T::encoding` with the argument of the call, a match that is put back into a buffer
that the scanner has left, and, outside the code, a value of another type than the grammar
declares and an input without a rule. -/
inductive Fault where
  | assertion
  | encoding (argument : List UInt8)
  | dangling
  | type
  | jammed
  deriving DecidableEq, Repr

/-- The loop over the data of a chunk: the length of the chunk line, the block that the loop is at
and its length. -/
structure Skip where
  line : ℕ
  message : ℕ
  available : UInt32
  deriving DecidableEq, Repr

/-- The scanner and the driver: the start condition, the rest of the scan buffer, the blocks, the
fragment and the block that the scanner took it for when it was called, the data messages that
are still to come in the queue, the flags of the driver, the offset, what the scanner remembers
of an entity while it looks for one token, the record, and those that `record` was called with.
Every message has room for the two octets that mark the end of a scan buffer. -/
structure State where
  start : Start := .initial
  buffer : List UInt8
  heap : Heap
  fragment : ℕ := 0
  held : ℕ := 0
  queue : List (List UInt8) := []
  blocking : Bool
  finished : Bool := false
  offset : UInt32 := 0
  chunkSize : UInt32 := 0
  missing : UInt32 := 0
  skipping : Option Skip := none
  record : Record := {}
  records : List Record := []

namespace State

def begin (s : State) (place : ℕ) : State :=
  { s with fragment := place, buffer := ((s.heap[place]?).map Block.content).getD [] }

/-- `waitBuffer`, for a fragment without a continuation. An empty queue is the end of the
session. -/
def waitBuffer (s : State) : State :=
  match s.queue with
  | [] => s
  | data :: queue =>
    { s with
      heap := Heap.continue_ (s.heap ++ [Block.received data]) s.fragment s.heap.length
      queue := queue }

def cont (s : State) : Option ℕ := (s.heap[s.fragment]?).bind Block.cont

def switchBuffer (s : State) : Option State :=
  match s.cont with
  | some place => some (s.begin place)
  | none => if s.blocking then s.waitBuffer.cont.map s.waitBuffer.begin else none

/-- `rd_ptr` of the block that the scanner holds, and `offset`. -/
def advance (n : ℕ) (s : State) : State :=
  { s with heap := s.heap.advance s.held n, offset := s.offset + UInt32.ofNat n }

def deliver (s : State) : State := { s with finished := true, records := s.records ++ [s.record] }

end State

section

variable (tools : StringTools)

def Record.find (r : Record) (name : List UInt8) : Option (List UInt8) :=
  r.headers[tools.tolower name]?

def textToken (k : Token) (n : ℕ) (next : Start) (yytext : List UInt8) (s : State) :
    Scan Token Value Fault State :=
  .token k (.sval (yytext.take (yytext.length - n))) { s.advance yytext.length with start := next }

def entityStart (r : Record) : Start :=
  if (r.find tools headerContentLength).isSome then .body
  else match r.find tools headerTransferEncoding with
  | some value =>
    if (tools.strip value).map toLower = transferEncodingChunked then .chunkedBody
    else .responseHeaders
  | none => .responseHeaders

/-- The rest of the rule of an entity, with `missing` octets to come. -/
def bodyToken (size missing : UInt32) (s : State) : Scan Token Value Fault State :=
  if missing = 0 then
    .token .body (.ival size) { s with start := .initial, chunkSize := size, missing := missing }
  else .more { s with chunkSize := size, missing := missing }

def bodyAction (n : ℕ) (s : State) : Scan Token Value Fault State :=
  let s := { s with offset := s.offset + UInt32.ofNat n }
  if s.chunkSize = 0 then
    match s.record.find tools headerContentLength with
    | none => .fault .assertion
    | some value => bodyToken (extract value) (extract value - UInt32.ofNat n) s
  else bodyToken s.chunkSize (s.missing - UInt32.ofNat n) s

/-- The actions. `s` is the state behind the match; two of them put the match back
(`yyless (0)`). -/
def act (name : RuleName) (yytext : List UInt8) (s : State) : Scan Token Value Fault State :=
  match name with
  | .responseStart => .more { s with start := .response, buffer := yytext ++ s.buffer }
  | .requestStart => .more { s with start := .request, buffer := yytext ++ s.buffer }
  | .method => textToken .method 1 .uri yytext s
  | .uri => textToken .uri 1 .version yytext s
  | .requestVersion => textToken .version 2 .requestHeaders yytext s
  | .header => textToken .header 2 s.start yytext s
  | .requestDelimiter =>
    .token .delimiter (.ival 2) { s.advance yytext.length with start := .body }
  | .responseVersion => textToken .version 1 .status yytext s
  | .status => textToken .status 1 .reason yytext s
  | .reason => textToken .reason 2 .responseHeaders yytext s
  | .responseDelimiter =>
    .token .delimiter (.ival 2)
      { s.advance yytext.length with start := entityStart tools s.record }
  | .body => bodyAction tools yytext.length s
  | .chunkSize =>
    match matchChunkLine yytext with
    | none => .token .end_ .none s
    | some size =>
      .more { s with
        start := .chunk
        buffer := yytext ++ s.buffer
        chunkSize := extractHex size
        missing := extractHex size }
  | .chunksDelimiter =>
    .token .delimiter (.ival 2) { s.advance yytext.length with start := .initial }
  | .chunk =>
    let s := s.advance yytext.length
    if s.chunkSize = 0 then
      .token .chunk (.ival (UInt32.ofNat yytext.length))
        { s with start := .chunkedBody, offset := s.offset + 3 }
    else
      .more { s with
        skipping := some ⟨yytext.length, s.held, (s.heap.lengthAt s.held).toUInt32⟩ }
  | .octet =>
    if s.blocking then
      match s.switchBuffer with
      | none => .token .endOfFragment .none s
      | some _ => .fault .dangling
    else .token .endOfFragment .none s

/-- Behind the data of a chunk: CR LF, from the position of the fragment and from the scan buffer
(`yyinput`), and the next fragment when there is nothing left of this one. -/
def endChunk (line : ℕ) (s : State) : Scan Token Value Fault State :=
  if s.heap.totalLength s.held < s.chunkSize.toUInt64 then .fault .assertion else
  match s.switchBuffer with
  | none => .token .end_ .none s
  | some s =>
    if s.heap.lengthAt s.fragment < 2 then .fault .assertion else
    match s.buffer with
    | 13 :: 10 :: buffer =>
      let s := { s with
        held := s.fragment
        heap := s.heap.advance s.fragment 2
        buffer := buffer }
      let chunk (s : State) : Scan Token Value Fault State :=
        .token .chunk (.ival (UInt32.ofNat line + (s.chunkSize + 2)))
          { s with start := .chunkedBody, offset := s.offset + (s.chunkSize + 2) }
      if s.heap.lengthAt s.fragment = 0 then
        match s.switchBuffer with
        | none => .token .end_ .none s
        | some s => chunk { s with held := s.fragment }
      else chunk s
    | _ => .fault .assertion

def skipChunk (k : Skip) (s : State) : Scan Token Value Fault State :=
  if k.available < s.missing then
    let s := { s with missing := s.missing - k.available }
    if s.blocking then
      match s.switchBuffer with
      | none => .token .end_ .none s
      | some s =>
        .more { s with
          skipping := some ⟨k.line, s.fragment, (s.heap.lengthAt s.fragment).toUInt32⟩ }
    else .token .endOfFragment .none s
  else
    let skip := s.missing.toNat
    let remainder := k.available - s.missing
    let s := { s with missing := 0, skipping := none }
    if remainder = 0 then endChunk k.line s
    else
      let message := s.heap.length
      let heap := (Heap.continue_ (s.heap.duplicate k.message) k.message message).advance message skip
      if heap.lengthAt message = remainder.toUInt64 then
        endChunk k.line { s with heap := heap.truncate k.message skip }
      else .fault .assertion

def wrap (s : State) : Scan Token Value Fault State :=
  if s.blocking then
    if s.finished then .token .end_ .none { s with start := .initial }
    else
      match s.switchBuffer with
      | none => .token .end_ .none s
      | some s => .more s
  else .token .end_ .none s

def enter (s : State) : State :=
  { s with held := s.fragment, chunkSize := 0, missing := 0, skipping := none }

/-- One rule of `HTTP_Scanner_lex`, or one iteration of the loop in a rule. -/
def scan (s : State) : Scan Token Value Fault State :=
  match s.skipping with
  | some k => skipChunk k s
  | none =>
    if s.buffer = [] then wrap s else
    match select rules s.start s.buffer with
    | some (name, n) => act tools name (s.buffer.take n) { s with buffer := s.buffer.drop n }
    | none => .fault .jammed

inductive GrammarRule where
  | message | headRequest | headResponse | headRest1 | requestLineRest1 | requestLineRest2
  | headRest2 | statusLineRest1 | statusLineRest2 | headers | headersEmpty
  | body | bodyChunk | chunkedBody | chunks | chunksEmpty
  deriving DecidableEq, Repr

def consistent : ℕ → Option GrammarRule
  | 6 => some .headRequest
  | 7 | 10 | 25 => some .headersEmpty
  | 9 => some .headResponse
  | 13 => some .requestLineRest2
  | 14 => some .requestLineRest1
  | 16 => some .statusLineRest2
  | 17 => some .statusLineRest1
  | 19 => some .body
  | 21 => some .message
  | 22 => some .headers
  | 24 => some .bodyChunk
  | 26 => some .chunks
  | 28 => some .chunkedBody
  | _ => none

def action : ℕ → Token → Action GrammarRule
  | 0, .method => .shift 1
  | 0, .version => .shift 2
  | 1, .uri => .shift 5
  | 2, .status => .shift 8
  | 3, .end_ => .shift 11
  | 4, .delimiter => .shift 12
  | 5, .version => .shift 13
  | 8, .reason => .shift 16
  | 12, .body => .shift 19
  | 12, .chunk => .shift 20
  | 15, .header => .shift 22
  | 15, _ => .reduce .headRest1
  | 18, .header => .shift 22
  | 18, _ => .reduce .headRest2
  | 20, .chunk => .shift 23
  | 20, _ => .reduce .chunksEmpty
  | 23, .chunk => .shift 23
  | 23, _ => .reduce .chunksEmpty
  | 27, .header => .shift 22
  | 27, .delimiter => .shift 28
  | _, _ => .error

def arity : GrammarRule → ℕ
  | .message => 3
  | .headRequest | .headResponse => 2
  | .headRest1 => 2
  | .requestLineRest1 => 2
  | .requestLineRest2 => 1
  | .headRest2 => 2
  | .statusLineRest1 => 2
  | .statusLineRest2 => 1
  | .headers => 2
  | .headersEmpty => 0
  | .body => 1
  | .bodyChunk => 2
  | .chunkedBody => 3
  | .chunks => 2
  | .chunksEmpty => 0

def goto : ℕ → GrammarRule → ℕ
  | _, .message => 3
  | _, .headRequest | _, .headResponse => 4
  | _, .headRest1 => 6
  | _, .requestLineRest1 => 7
  | _, .requestLineRest2 => 14
  | _, .headRest2 => 9
  | _, .statusLineRest1 => 10
  | _, .statusLineRest2 => 17
  | 7, .headers | 7, .headersEmpty => 15
  | 10, .headers | 10, .headersEmpty => 18
  | _, .headers | _, .headersEmpty => 27
  | _, .body | _, .bodyChunk => 21
  | _, .chunkedBody => 24
  | 23, .chunks | 23, .chunksEmpty => 26
  | _, .chunks | _, .chunksEmpty => 25

/-- The action for a header line. One that the regular expression does not match is left out, and
`encoding` is called with the first group of the match. -/
def storeHeader (header : List UInt8) (s : State) : Reduce Value Fault State :=
  match matchHeader header with
  | none => .value .none s
  | some (name, value) =>
    let s := { s with record := { s.record with
      headers := s.record.headers.insert (tools.tolower name) value } }
    if name = headerContentEncoding then .fault (.encoding name) else .value .none s

def semantics : GrammarRule → List Value → State → Reduce Value Fault State
  | .headRequest, [.sval method, _], s =>
    .value .none { s with record := { s.record with method := methodToType method } }
  | .headResponse, [.sval version, _], s =>
    match matchVersion version with
    | none => .abort s
    | some version =>
      .value .none { s with record := { s.record with version := versionToType version } }
  | .requestLineRest1, [.sval uri, _], s =>
    .value .none { s with record := { s.record with uri := uri } }
  | .requestLineRest2, [.sval version], s =>
    .value .none { s with record := { s.record with version := versionToType version } }
  | .statusLineRest1, [.sval status, _], s =>
    .value .none { s with record := { s.record with status := number 10 status } }
  | .statusLineRest2, [.sval reason], s =>
    .value .none { s with record := { s.record with reason := reason } }
  | .headers, [_, .sval header], s => storeHeader tools header s
  | .body, [.ival n], s =>
    match s.record.find tools headerContentLength with
    | none => .fault .assertion
    | some value => if n = extract value then .accept s.deliver else .value .none s
  | .chunkedBody, [_, _, _], s => .accept s.deliver
  | .headRequest, _, _ | .headResponse, _, _ | .requestLineRest1, _, _ | .requestLineRest2, _, _
  | .statusLineRest1, _, _ | .statusLineRest2, _, _ | .headers, _, _ | .body, _, _
  | .chunkedBody, _, _ => .fault .type
  | .message, _, s | .headRest1, _, s | .headRest2, _, s | .headersEmpty, _, s
  | .bodyChunk, _, s | .chunks, _, s | .chunksEmpty, _, s => .value .none s

/-- The stack of the generated parser holds at most `YYMAXDEPTH` entries, less its headroom. -/
def maxDepth : ℕ := 9999

def parser : Bison.Parser Token Value GrammarRule Fault State where
  final := 11
  consistent := consistent
  action := action
  arity := arity
  goto := goto
  semantics := semantics tools
  enter := enter
  scan := scan tools
  maxDepth := some maxDepth

/-- What a driver keeps from one message to the next: the start condition of its scanner and
whether it has finished. -/
structure Driver where
  start : Start := .initial
  finished : Bool := false
  blocking : Bool
  deriving DecidableEq, Repr

/-- The state at the start of `parse`, for a message that comes in a chain of fragments, with other
ones still in the queue. -/
def Driver.begin (d : Driver) (fragment : List UInt8) (conts queue : List (List UInt8)) : State where
  start := d.start
  buffer := fragment
  heap := Heap.link 0 ((fragment :: conts).map Block.received)
  queue := queue
  blocking := d.blocking
  finished := d.finished

def State.driver (s : State) : Driver := ⟨s.start, s.finished, s.blocking⟩

/-- `HTTP_ParserDriver_T::parse` -/
def Parses (d : Driver) (fragment : List UInt8) (conts queue : List (List UInt8))
    (r : Result Fault State) : Prop :=
  (parser tools).Halts (Parser.start (d.begin fragment conts queue)) r

end

end ACENetwork.Http
