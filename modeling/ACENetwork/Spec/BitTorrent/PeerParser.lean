import Mathlib
import ACENetwork.Library.Scanner
import ACENetwork.Library.Bison
import ACENetwork.Spec.BitTorrent.Peer

/-! The parser for what a peer sends: the rules of `scanner.l` for a fragment that no other
fragment follows, and the grammar of `parser.yy` with the automaton that Bison made of it. The
grammar takes the scanner as a parameter. -/

namespace ACENetwork.BitTorrent.Peer

open ByteOrder Flex Bison

/-- The start conditions. -/
inductive Start where
  | initial | reserved | hash | peerId | length | type
  | bitfieldPayload | cancelPayload | havePayload | piece | piecePayload | portPayload | requestPayload
  deriving DecidableEq, Repr

inductive Token where
  | handshake | bitfield | cancel | choke | have_ | interested | keepAlive | notInterested
  | piece | port | request | unchoke | endOfFragment | end_
  deriving DecidableEq, Repr

/-- The union of semantic values. -/
inductive Value where
  | none
  | handshake (h : HandShake)
  | record (r : Record)
  | size (n : UInt32)
  deriving DecidableEq, Repr

/-- What ends the program while it parses: a failed assertion, and, outside the code, a value of
another type than the grammar declares and an input without a rule. -/
inductive Fault where
  | assertion
  | type
  | jammed
  deriving DecidableEq, Repr

/-- The start condition, the rest of the scan buffer, the value that the next token will have,
and a local variable of the scanner. -/
structure State where
  start : Start := .initial
  buffer : List UInt8
  yylval : Value := .none
  bitfieldCounter : UInt32 := 0
  deriving DecidableEq, Repr

inductive RuleName where
  | prefix_ | reserved | hash | peerId | length | type
  | havePayload | bitfieldPayload | requestPayload | cancelPayload | piecePayload | piece | octet
  deriving DecidableEq, Repr

def on (c : Start) : Start → Bool := fun c' => decide (c' = c)

def octets (n : ℕ) : Pattern UInt8 := Pattern.exactly (fun _ => true) n

def isType (a : UInt8) : Bool := decide (48 ≤ a ∧ a ≤ 56)

def rules : List (Flex.Rule Start UInt8 RuleName) :=
  [⟨on .initial, Pattern.literal (19 :: pstrString), .prefix_⟩,
    ⟨on .reserved, octets 8, .reserved⟩,
    ⟨on .hash, octets 20, .hash⟩,
    ⟨on .peerId, octets 20, .peerId⟩,
    ⟨on .length, octets 4, .length⟩,
    ⟨on .type, Pattern.cls isType, .type⟩,
    ⟨on .havePayload, octets 4, .havePayload⟩,
    ⟨on .bitfieldPayload, octets 1, .bitfieldPayload⟩,
    ⟨on .requestPayload, octets 12, .requestPayload⟩,
    ⟨on .cancelPayload, octets 12, .cancelPayload⟩,
    ⟨on .piecePayload, octets 9, .piecePayload⟩,
    ⟨on .piece, octets 1, .piece⟩,
    ⟨fun _ => true, Pattern.any, .octet⟩]

def number (e : Endian) (yytext : List UInt8) : UInt32 := swapLong e (load32 e (yytext.take 4))

/-- An action that goes on with the handshake that is being read. -/
def onHandshake (f : HandShake → Scan Token Value Fault State) (s : State) :
    Scan Token Value Fault State :=
  match s.yylval with
  | .handshake h => f h
  | _ => .fault .type

/-- An action that goes on with the record that is being read. -/
def onRecord (f : Record → Scan Token Value Fault State) (s : State) :
    Scan Token Value Fault State :=
  match s.yylval with
  | .record r => f r
  | _ => .fault .type

def finish (k : Token) (r : Record) (s : State) : Scan Token Value Fault State :=
  .token k (.record r) { s with start := .length, yylval := .record r }

def begin_ (next : Start) (r : Record) (s : State) : Scan Token Value Fault State :=
  .more { s with start := next, yylval := .record r }

/-- The type of a message, which the octet that matched is cast to. -/
def actType (yytext : List UInt8) (s : State) : Scan Token Value Fault State :=
  s |> onRecord fun r =>
    let r := { r with type := MessageType.ofOctet (yytext.headD 0) }
    match r.type with
    | .choke => finish .choke r s
    | .unchoke => finish .unchoke r s
    | .interested => finish .interested r s
    | .notInterested => finish .notInterested r s
    | .have_ => begin_ .havePayload r s
    | .bitfield => begin_ .bitfieldPayload r { s with bitfieldCounter := r.length - 1 }
    | .request => begin_ .requestPayload r s
    | .piece => begin_ .piecePayload r s
    | .cancel => begin_ .cancelPayload r s
    | _ => .token .end_ (.record r) { s with yylval := .record r }

/-- The data of a piece. It starts with the octet that matched, and is cut out of the fragment;
if the fragment is too short there is no other one to go on with. -/
def actPiece (yytext : List UInt8) (s : State) : Scan Token Value Fault State :=
  s |> onRecord fun r =>
    let data := yytext ++ s.buffer
    let bytesToSkip := (r.length - 9).toNat
    if bytesToSkip ≤ data.length then
      if (data.drop bytesToSkip).length ≠ data.length then .fault .assertion
      else finish .piece r { s with buffer := data.drop bytesToSkip }
    else .token .end_ s.yylval s

/-- The actions. `s` is the state after the match. -/
def act (e : Endian) (name : RuleName) (yytext : List UInt8) (s : State) :
    Scan Token Value Fault State :=
  match name with
  | .prefix_ =>
    let h : HandShake := {}
    .more { s with
      start := .reserved
      yylval := .handshake { h with pstr := h.pstr ++ (yytext.drop 1).take 19 } }
  | .reserved => s |> onHandshake fun h =>
    if hlen : yytext.length = reservedSize then
      .more { s with start := .hash, yylval := .handshake { h with reserved := ⟨yytext, hlen⟩ } }
    else .fault .assertion
  | .hash => s |> onHandshake fun h =>
    .more { s with
      start := .peerId
      yylval := .handshake { h with infoHash := h.infoHash ++ yytext } }
  | .peerId => s |> onHandshake fun h =>
    let h := { h with peerId := h.peerId ++ yytext }
    .token .handshake (.handshake h) { s with start := .length, yylval := .handshake h }
  | .length =>
    let r : Record := { length := number e yytext }
    let s := { s with yylval := .record r }
    if r.length = 0 then .token .keepAlive (.record r) s else .more { s with start := .type }
  | .type => actType yytext s
  | .havePayload => s |> onRecord fun r =>
    finish .have_ { r with payload := .have_ (number e yytext) } s
  | .bitfieldPayload => s |> onRecord fun r =>
    if s.bitfieldCounter = 0 then .fault .assertion else
    let r := { r with bitfield := r.bitfield ++ yytext }
    let s := { s with bitfieldCounter := s.bitfieldCounter - 1 }
    if s.bitfieldCounter = 0 then finish .bitfield r s else .more { s with yylval := .record r }
  | .requestPayload => s |> onRecord fun r =>
    let request := Payload.request (number e yytext) (number e (yytext.drop 4)) (number e (yytext.drop 8))
    finish .request { r with payload := request } s
  | .cancelPayload => s |> onRecord fun r =>
    let cancel := Payload.cancel (number e yytext) (number e (yytext.drop 4)) (number e (yytext.drop 8))
    finish .cancel { r with payload := cancel } s
  | .piecePayload => s |> onRecord fun r =>
    -- the pattern has one octet more than the assertion allows
    if yytext.length ≠ 8 then .fault .assertion else
    begin_ .piece { r with payload := .piece (number e yytext) (number e (yytext.drop 4)) } s
  | .piece => actPiece yytext s
  | .octet => .token .endOfFragment s.yylval s

def scan (e : Endian) (s : State) : Scan Token Value Fault State :=
  if s.buffer = [] then .token .end_ s.yylval s else
  match select rules s.start s.buffer with
  | some (name, n) => act e name (s.buffer.take n) { s with buffer := s.buffer.drop n }
  | none => .fault .jammed

inductive GrammarRule where
  | session | messages | messagesEmpty
  | bitfield | cancel | choke | have_ | interested | keepAlive | notInterested
  | piece | port | request | unchoke | endOfFragment
  deriving DecidableEq, Repr

def consistent : ℕ → Option GrammarRule
  | 1 => some .messagesEmpty
  | 5 => some .bitfield
  | 6 => some .cancel
  | 7 => some .choke
  | 8 => some .have_
  | 9 => some .interested
  | 10 => some .keepAlive
  | 11 => some .notInterested
  | 12 => some .piece
  | 13 => some .port
  | 14 => some .request
  | 15 => some .unchoke
  | 16 => some .endOfFragment
  | 17 => some .messages
  | _ => none

def action : ℕ → Token → Action GrammarRule
  | 0, .handshake => .shift 1
  | 2, .end_ => .shift 4
  | 3, .bitfield => .shift 5
  | 3, .cancel => .shift 6
  | 3, .choke => .shift 7
  | 3, .have_ => .shift 8
  | 3, .interested => .shift 9
  | 3, .keepAlive => .shift 10
  | 3, .notInterested => .shift 11
  | 3, .piece => .shift 12
  | 3, .port => .shift 13
  | 3, .request => .shift 14
  | 3, .unchoke => .shift 15
  | 3, .endOfFragment => .shift 16
  | 3, _ => .reduce .session
  | _, _ => .error

def arity : GrammarRule → ℕ
  | .session | .messages => 2
  | .messagesEmpty => 0
  | _ => 1

def goto : ℕ → GrammarRule → ℕ
  | _, .session => 2
  | _, .messages | _, .messagesEmpty => 3
  | _, _ => 17

/-- The calls of `BitTorrent_IParser_T`. -/
inductive Call where
  | handshake (h : HandShake)
  | record (r : Record)
  deriving DecidableEq, Repr

/-- A scanner: what a call of it does first, and its rules. -/
structure Scanner (S : Type) where
  enter : S → S
  scan : S → Scan Token Value Fault S

/-- The scanner and the calls so far. -/
structure Driver (S : Type) where
  scanner : S
  calls : List Call := []

variable {S : Type}

def Driver.call (d : Driver S) (c : Call) : Driver S := { d with calls := d.calls ++ [c] }

def messageSemantics : List Value → Driver S → Reduce Value Fault (Driver S)
  | [.record r], d => .value (.size (r.length + 4)) (d.call (.record r))
  | _, _ => .fault .type

def semantics : GrammarRule → List Value → Driver S → Reduce Value Fault (Driver S)
  | .session, [.handshake h, .size n], d => .value (.size (67 + n)) (d.call (.handshake h))
  | .messages, [.size n, .size m], d => .value (.size (n + m)) d
  | .session, _, _ | .messages, _, _ => .fault .type
  | .messagesEmpty, _, d => .value (.size 0) d
  | .endOfFragment, _, d => .accept d
  | .bitfield, args, d | .cancel, args, d | .choke, args, d | .have_, args, d
  | .interested, args, d | .keepAlive, args, d | .notInterested, args, d | .piece, args, d
  | .port, args, d | .request, args, d | .unchoke, args, d => messageSemantics args d

def Scanner.scanDriver (sc : Scanner S) (d : Driver S) : Scan Token Value Fault (Driver S) :=
  match sc.scan d.scanner with
  | .more s => .more { d with scanner := s }
  | .token k v s => .token k v { d with scanner := s }
  | .fault f => .fault f

/-- The stack of this parser grows as it needs to. -/
def Scanner.parser (sc : Scanner S) : Bison.Parser Token Value GrammarRule Fault (Driver S) where
  final := 4
  consistent := consistent
  action := action
  arity := arity
  goto := goto
  semantics := semantics
  enter := fun d => { d with scanner := sc.enter d.scanner }
  scan := sc.scanDriver
  maxDepth := none

def fragmentScanner (e : Endian) : Scanner State where
  enter := fun s => { s with bitfieldCounter := 0 }
  scan := scan e

/-- A parse that returns, with its result, the calls that it made and the scanner at its end. -/
def Scanner.Parses (sc : Scanner S) (s : S) (code : Code) (d : Driver S) : Prop :=
  sc.parser.Halts (Parser.start ⟨s, []⟩) (.returned code d)

end ACENetwork.BitTorrent.Peer
