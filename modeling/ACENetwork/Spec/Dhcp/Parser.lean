import Mathlib
import ACENetwork.Library.ByteOrder
import ACENetwork.Library.Scanner
import ACENetwork.Library.Bison
import ACENetwork.Spec.Dhcp.Dump

/-! The DHCP parser: the rules of `scanner.l`, the grammar of `parser.y` with the automaton
that Bison made of it, and `DHCP_ParserDriver::parse` for a message in one fragment. -/

namespace ACENetwork.Dhcp

open Std ByteOrder Flex Bison

inductive Start where
  | initial | header | op | htype | hlen | hops | xid | secs | flags
  | ciaddr | yiaddr | siaddr | giaddr | chaddr | sname | file | cookie
  | optionTag | optionLength
  deriving DecidableEq, Repr

inductive Token where
  | op | htype | hlen | hops | xid | secs | flags
  | ciaddr | yiaddr | siaddr | giaddr | chaddr | sname | file | cookie
  | optionTag | optionValue | end_
  deriving DecidableEq, Repr

inductive Value where
  | ival (n : UInt32)
  | aval (a : Octets chaddrSize)
  | sval (s : List UInt8)

/-- What ends the program while it parses: a field that must not be zero, a field of
the wrong length, the rule for invalid characters, a read beyond the fragment, the test of
the magic cookie, a report on a block that is no message or on a record that cannot be dumped,
and, outside the code, a value of another type than the grammar declares and an input without a
rule. -/
inductive Fault where
  | zero (k : Token)
  | length (k : Token)
  | invalidCharacter
  | overRead
  | magicCookie
  | noMessage
  | dump (f : Dump.Fault)
  | type
  | jammed
  deriving DecidableEq, Repr

/-- The scanner and the driver: the start condition, the rest of the scan buffer, the fragment
from its read position, and the record. -/
structure State where
  start : Start := .initial
  buffer : List UInt8
  fragment : List UInt8
  record : Record := {}

/-- Every start condition has one rule of its own, for this many octets. -/
def Start.octets : Start → ℕ
  | .initial | .header | .op | .htype | .hlen | .hops => 1
  | .xid => 4
  | .secs | .flags => 2
  | .ciaddr | .yiaddr | .siaddr | .giaddr => 4
  | .chaddr => 16
  | .sname => 64
  | .file => 128
  | .cookie => 4
  | .optionTag | .optionLength => 1

def starts : List Start :=
  [.initial, .header, .op, .htype, .hlen, .hops, .xid, .secs, .flags, .ciaddr, .yiaddr, .siaddr,
    .giaddr, .chaddr, .sname, .file, .cookie, .optionTag, .optionLength]

/-- The rules, each named by its start condition; the last one is the rule for invalid
characters, which is active in all of them. -/
def rules : List (Flex.Rule Start UInt8 (Option Start)) :=
  starts.map (fun c => ⟨fun c' => decide (c' = c), Pattern.exactly (fun _ => true) c.octets, some c⟩)
    ++ [⟨fun _ => true, Pattern.any, none⟩]

/-- A field that the scanner reads as a number of the host. -/
def number (e : Endian) (next : Start) (k : Token) (required : Bool) (yytext : List UInt8)
    (s : State) : Scan Token Value Fault State :=
  let ival := UInt32.ofNat (load e yytext)
  if required = true ∧ ival = 0 then .fault (.zero k)
  else .token k (.ival ival) { s with start := next }

def text (size : ℕ) (next : Start) (k : Token) (yytext : List UInt8) (s : State) :
    Scan Token Value Fault State :=
  if yytext.length ≠ size then .fault (.length k)
  else .token k (.sval (cString yytext)) { s with start := next }

/-- The actions. `s` is the state after the match, with the read position of the fragment moved
by all actions but the first two, which put the octet back (`yyless (0)`). -/
def act (e : Endian) (c : Start) (yytext : List UInt8) (s : State) :
    Scan Token Value Fault State :=
  let s' := { s with fragment := s.fragment.drop yytext.length }
  match c with
  | .initial => .more { s with start := .header, buffer := yytext ++ s.buffer }
  | .header => .more { s with start := .op, buffer := yytext ++ s.buffer }
  | .op => number e .htype .op true yytext s'
  | .htype => number e .hlen .htype true yytext s'
  | .hlen => number e .hops .hlen true yytext s'
  | .hops => number e .xid .hops false yytext s'
  | .xid => number e .secs .xid true yytext s'
  | .secs => number e .flags .secs false yytext s'
  | .flags => number e .ciaddr .flags false yytext s'
  | .ciaddr => number e .yiaddr .ciaddr false yytext s'
  | .yiaddr => number e .siaddr .yiaddr false yytext s'
  | .siaddr => number e .giaddr .siaddr false yytext s'
  | .giaddr => number e .chaddr .giaddr false yytext s'
  | .chaddr =>
    if h : yytext.length = chaddrSize then .token .chaddr (.aval ⟨yytext, h⟩) { s' with start := .sname }
    else .fault (.length .chaddr)
  | .sname => text snameSize .file .sname yytext s'
  | .file => text fileSize .cookie .file yytext s'
  | .cookie =>
    if yytext.length ≠ 4 then .fault (.length .cookie)
    else number e .optionTag .cookie true yytext s'
  | .optionTag =>
    let ival := UInt32.ofNat (load e yytext)
    if ival = 0 ∨ ival = 255 then .token .optionTag (.ival ival) s'
    else .token .optionTag (.ival ival) { s' with start := .optionLength }
  | .optionLength =>
    let optionSize := load e yytext
    if s'.fragment.length < optionSize then .fault .overRead
    else .token .optionValue (.sval (s'.fragment.take optionSize))
      { s' with
        start := .optionTag
        buffer := s'.buffer.drop optionSize
        fragment := s'.fragment.drop optionSize }

def scan (e : Endian) (s : State) : Scan Token Value Fault State :=
  if s.buffer = [] then .token .end_ (.ival 0) s else
  match select rules s.start s.buffer with
  | some (some c, n) => act e c (s.buffer.take n) { s with buffer := s.buffer.drop n }
  | some (none, _) => .fault .invalidCharacter
  | none => .fault .jammed

inductive GrammarRule where
  | message | header | optionsEmpty | options | option | optionWithValue
  deriving DecidableEq, Repr

def consistent : ℕ → Option GrammarRule
  | 9 => some .message
  | 12 => some .optionWithValue
  | 13 => some .options
  | 23 => some .header
  | _ => none

def action : ℕ → Token → Action GrammarRule
  | 0, .op => .shift 1
  | 1, .htype => .shift 4
  | 2, .end_ => .shift 5
  | 3, .cookie => .shift 6
  | 4, .hlen => .shift 7
  | 6, .optionTag => .shift 8
  | 6, _ => .reduce .optionsEmpty
  | 7, .hops => .shift 11
  | 8, .optionValue => .shift 12
  | 8, _ => .reduce .option
  | 10, .optionTag => .shift 8
  | 10, _ => .reduce .optionsEmpty
  | 11, .xid => .shift 14
  | 14, .secs => .shift 15
  | 15, .flags => .shift 16
  | 16, .ciaddr => .shift 17
  | 17, .yiaddr => .shift 18
  | 18, .siaddr => .shift 19
  | 19, .giaddr => .shift 20
  | 20, .chaddr => .shift 21
  | 21, .sname => .shift 22
  | 22, .file => .shift 23
  | _, _ => .error

def arity : GrammarRule → ℕ
  | .message => 3
  | .header => 14
  | .optionsEmpty => 0
  | .options => 2
  | .option => 1
  | .optionWithValue => 2

def goto : ℕ → GrammarRule → ℕ
  | _, .message => 2
  | _, .header => 3
  | 10, .optionsEmpty | 10, .options => 13
  | _, .optionsEmpty | _, .options => 9
  | _, .option | _, .optionWithValue => 10

/-- The actions of the grammar rules. The secs and flags fields are stored as they were read:
the result of the exchange in the source is not used. -/
def semantics (e : Endian) : GrammarRule → List Value → State → Reduce Value Fault State
  | .message, [.ival header, .ival cookie, .ival _], s =>
    let s := { s with record := { s.record with cookie := cookie } }
    if s.record.cookie = magicCookie then .value (.ival (header + 4 + 308)) s else .fault .magicCookie
  | .header, [.ival op, .ival htype, .ival hlen, .ival hops, .ival xid, .ival secs, .ival flags,
      .ival ciaddr, .ival yiaddr, .ival siaddr, .ival giaddr, .aval chaddr, .sval sname,
      .sval file], s =>
    .value (.ival (op + htype + hlen + hops + xid + secs + flags + ciaddr + yiaddr + siaddr + giaddr
        + 16 + 64 + 128))
      { s with record := { s.record with
        op := op.toUInt8
        htype := htype.toUInt8
        hlen := hlen.toUInt8
        hops := hops.toUInt8
        xid := swapLong e xid
        secs := secs.toUInt16
        flags := flags.toUInt16
        ciaddr := ciaddr
        yiaddr := yiaddr
        siaddr := siaddr
        giaddr := giaddr
        chaddr := chaddr
        sname := sname
        file := file } }
  | .optionsEmpty, [], s => .value (.ival 0) s
  | .options, [.ival option, .ival options], s => .value (.ival (option + options)) s
  | .option, [.ival tag], s => if tag = 255 then .accept s else .value (.ival tag) s
  | .optionWithValue, [.ival tag, .sval value], s =>
    .value (.ival (tag + 1 + UInt32.ofNat value.length))
      { s with record := { s.record with
        options := s.record.options.insertIfNew tag.toUInt8 value } }
  | _, _, _ => .fault .type

/-- The stack of the generated parser holds at most `YYMAXDEPTH` entries, less its headroom. -/
def maxDepth : ℕ := 9999

def parser (e : Endian) : Bison.Parser Token Value GrammarRule Fault State where
  final := 5
  consistent := consistent
  action := action
  arity := arity
  goto := goto
  semantics := semantics e
  enter := id
  scan := scan e
  maxDepth := some maxDepth

inductive Parsed where
  | returned (result : Bool) (record : Record)
  | fault (f : Fault)

def parsed : Result Fault State → Parsed
  | .returned code s => .returned (decide (code = .accepted)) s.record
  | .fault f => .fault f

/-- `yyparse` of a fragment, into a new record, without the report of a refusal. -/
def Yyparses (e : Endian) (fragment : List UInt8) (p : Parsed) : Prop :=
  ∃ r, (parser e).Halts (Parser.start { buffer := fragment, fragment := fragment }) r ∧ p = parsed r

/-- `DHCP_ParserDriver::error`. A refused parse calls it before it returns: the first block must be
a message, and the record of the message, the one that was parsed into, is dumped. -/
def Parsed.error (isMessage : Bool) : Parsed → Parsed
  | .returned false record =>
    if !isMessage then .fault .noMessage else
    match Dump.dump record with
    | .ok _ => .returned false record
    | .error f => .fault (.dump f)
  | p => p

/-- `DHCP_ParserDriver::parse` of a fragment in one block. -/
def ParsesBlock (e : Endian) (isMessage : Bool) (fragment : List UInt8) (p : Parsed) : Prop :=
  ∃ q, Yyparses e fragment q ∧ p = q.error isMessage

def Parses (e : Endian) (fragment : List UInt8) (p : Parsed) : Prop := ParsesBlock e true fragment p

end ACENetwork.Dhcp
