import Mathlib
import ACENetwork.Library.Scanner
import ACENetwork.Library.Bison
import ACENetwork.Spec.Irc.Record

/-! The IRC parser: the rules of `scanner.l`, the grammar of `parser.y` with the automaton
that Bison made of it, and `IRC_ParserDriver::parse`. -/

namespace ACENetwork.Irc

open Flex Bison

/-- The start conditions. -/
inductive Start where
  | initial | prefix_ | user | host | command | params | trailing | endOfFrame
  deriving DecidableEq, Repr

inductive Token where
  | space | origin | user | host | cmdString | cmdNumeric | param | colon | bang | at_ | end_
  deriving DecidableEq, Repr

/-- The union of semantic values; no left-hand side of the grammar has one. -/
inductive Value where
  | none
  | ival (n : ℕ)
  | sval (s : List UInt8)
  deriving DecidableEq, Repr

/-- What ends the program while it parses: the assertion that the record has no command yet,
and, outside the code, a value of another type than the grammar declares and an input
without a rule. -/
inductive Fault where
  | assertion
  | type
  | jammed
  deriving DecidableEq, Repr

/-- The scanner and the driver: the start condition, the rest of the scan buffer, the number of
messages and the record. -/
structure State where
  start : Start := .initial
  buffer : List UInt8
  messageCount : ℕ := 0
  record : Record := {}
  deriving DecidableEq, Repr

def isDigit (a : UInt8) : Bool := decide (48 ≤ a ∧ a ≤ 57)

def isAlpha (a : UInt8) : Bool := decide (65 ≤ a ∧ a ≤ 90 ∨ 97 ≤ a ∧ a ≤ 122)

/-- Letters, digits, the period and the minus sign. -/
def isHost (a : UInt8) : Bool := isAlpha a || isDigit a || decide (a = 46 ∨ a = 45)

/-- Letters, digits and the characters of `-[]\^_{}` with the grave accent. -/
def isNick (a : UInt8) : Bool :=
  isAlpha a || isDigit a || decide (a ∈ [45, 91, 93, 92, 96, 94, 123, 125, 95])

def isUser (a : UInt8) : Bool := decide (a ∉ [32, 9, 0, 13, 10, 64])

def isTrailing (a : UInt8) : Bool := decide (a ∉ [0, 13, 10])

def isMiddle (a : UInt8) : Bool := decide (a ∉ [32, 0, 13, 10])

def spaces : Pattern UInt8 := Pattern.plus fun a => decide (a = space)
def host : Pattern UInt8 := Pattern.plus isHost
def nick : Pattern UInt8 := .seq (.cls isAlpha) (.star (.cls isNick))
def user : Pattern UInt8 := Pattern.plus isUser
def param : Pattern UInt8 := .seq (.cls fun a => isMiddle a && decide (a ≠ colon)) (.star (.cls isMiddle))
def trailingParam : Pattern UInt8 := .star (.cls isTrailing)

/-- The rules by what their actions do. -/
inductive RuleName where
  | prefix_ | blankLine | spaces (next : Start) | user | host
  | origin | userName | hostName | numeric | string
  | trailing | endOfFrame | param | trailingParam | endOfMessage | invalidCharacter
  deriving DecidableEq, Repr

def on (c : Start) : Start → Bool := fun c' => decide (c' = c)

/-- Without a prefix the command is the first thing that the scanner sees. -/
def onCommand : Start → Bool := fun c => decide (c = .initial ∨ c = .command)

def rules : List (Flex.Rule Start UInt8 RuleName) :=
  [⟨on .initial, Pattern.literal [colon], .prefix_⟩,
    ⟨on .initial, Pattern.literal [13], .blankLine⟩,
    ⟨on .prefix_, spaces, .spaces .command⟩,
    ⟨on .prefix_, Pattern.literal [bang], .user⟩,
    ⟨on .prefix_, Pattern.literal [commercialAt], .host⟩,
    ⟨on .prefix_, .alt nick host, .origin⟩,
    ⟨on .user, spaces, .spaces .command⟩,
    ⟨on .user, Pattern.literal [commercialAt], .host⟩,
    ⟨on .user, user, .userName⟩,
    ⟨on .host, spaces, .spaces .command⟩,
    ⟨on .host, host, .hostName⟩,
    ⟨onCommand, spaces, .spaces .params⟩,
    ⟨onCommand, Pattern.exactly isDigit 3, .numeric⟩,
    ⟨onCommand, Pattern.plus isAlpha, .string⟩,
    ⟨on .params, spaces, .spaces .params⟩,
    ⟨on .params, Pattern.literal [colon], .trailing⟩,
    ⟨on .params, Pattern.literal [13], .endOfFrame⟩,
    ⟨on .params, param, .param⟩,
    ⟨on .trailing, Pattern.literal [13], .endOfFrame⟩,
    ⟨on .trailing, trailingParam, .trailingParam⟩,
    ⟨on .endOfFrame, Pattern.literal [10], .endOfMessage⟩,
    ⟨fun _ => true, Pattern.any, .invalidCharacter⟩]

/-- The number that the converter reads from three digits. -/
def number (yytext : List UInt8) : ℕ :=
  Nat.ofDigits 10 (yytext.reverse.map fun a => (a - 48).toNat)

/-- The actions. `s` is the state after the match. -/
def act (name : RuleName) (yytext : List UInt8) (s : State) : Scan Token Value Fault State :=
  match name with
  | .prefix_ => .token .colon (.ival 1) { s with start := .prefix_ }
  | .blankLine => .more { s with start := .endOfFrame }
  | .spaces next => .token .space (.ival yytext.length) { s with start := next }
  | .user => .token .bang (.ival 1) { s with start := .user }
  | .host => .token .at_ (.ival 1) { s with start := .host }
  | .origin => .token .origin (.sval yytext) s
  | .userName => .token .user (.sval yytext) { s with start := .prefix_ }
  | .hostName => .token .host (.sval yytext) { s with start := .prefix_ }
  | .numeric => .token .cmdNumeric (.ival (number yytext)) s
  | .string => .token .cmdString (.sval yytext) s
  | .trailing => .token .colon (.ival 1) { s with start := .trailing }
  | .endOfFrame => .more { s with start := .endOfFrame }
  | .param => .token .param (.sval yytext) s
  | .trailingParam => if 0 < yytext.length then .token .param (.sval yytext) s else .more s
  | .endOfMessage => .more { s with start := .initial, messageCount := s.messageCount + 1 }
  | .invalidCharacter => .token .end_ .none s

/-- One rule of `IRC_Scanner_lex`. -/
def scan (s : State) : Scan Token Value Fault State :=
  if s.buffer = [] then .token .end_ .none s else
  match select rules s.start s.buffer with
  | some (name, n) => act name (s.buffer.take n) { s with buffer := s.buffer.drop n }
  | none => .fault .jammed

inductive GrammarRule where
  | messagePrefix | messageBody | messageEmpty | prefix_
  | extPrefixUser | extPrefixHost | extPrefixSpace | body | commandString | commandNumeric
  | paramsSpace | paramsTrailing | paramsParam | paramsEmpty | trailingParam | trailingEmpty
  deriving DecidableEq, Repr

def consistent : ℕ → Option GrammarRule
  | 1 => some .messageEmpty
  | 2 => some .commandString
  | 3 => some .commandNumeric
  | 7 => some .messageBody
  | 11 => some .messagePrefix
  | 16 => some .extPrefixSpace
  | 19 => some .prefix_
  | 20 => some .paramsSpace
  | 21 => some .paramsParam
  | 22 => some .trailingParam
  | 23 => some .paramsTrailing
  | 24 => some .body
  | 27 => some .extPrefixUser
  | 28 => some .extPrefixHost
  | _ => none

/-- The states in front of parameters have one row. -/
def paramsAction : Token → Action GrammarRule
  | .space => .shift 12
  | .param => .shift 13
  | .colon => .shift 14
  | _ => .reduce .paramsEmpty

/-- And so have the states behind the parts of the origin. -/
def extPrefixAction : Token → Action GrammarRule
  | .space => .shift 16
  | .bang => .shift 17
  | .at_ => .shift 18
  | _ => .error

def action : ℕ → Token → Action GrammarRule
  | 0, .end_ => .shift 1
  | 0, .cmdString => .shift 2
  | 0, .cmdNumeric => .shift 3
  | 0, .colon => .shift 4
  | 4, .origin => .shift 9
  | 5, .end_ => .shift 10
  | 6, .cmdString => .shift 2
  | 6, .cmdNumeric => .shift 3
  | 8, k => paramsAction k
  | 9, k => extPrefixAction k
  | 12, k => paramsAction k
  | 13, k => paramsAction k
  | 14, .param => .shift 22
  | 14, _ => .reduce .trailingEmpty
  | 15, .end_ => .shift 24
  | 17, .user => .shift 25
  | 18, .host => .shift 26
  | 25, k => extPrefixAction k
  | 26, k => extPrefixAction k
  | _, _ => .error

def arity : GrammarRule → ℕ
  | .messagePrefix => 2
  | .messageBody | .messageEmpty => 1
  | .prefix_ | .extPrefixUser | .extPrefixHost => 3
  | .extPrefixSpace => 1
  | .body => 3
  | .commandString | .commandNumeric => 1
  | .paramsSpace | .paramsTrailing | .paramsParam => 2
  | .paramsEmpty => 0
  | .trailingParam => 1
  | .trailingEmpty => 0

def goto : ℕ → GrammarRule → ℕ
  | _, .messagePrefix | _, .messageBody | _, .messageEmpty => 5
  | _, .prefix_ => 6
  | 25, .extPrefixUser | 25, .extPrefixHost | 25, .extPrefixSpace => 27
  | 26, .extPrefixUser | 26, .extPrefixHost | 26, .extPrefixSpace => 28
  | _, .extPrefixUser | _, .extPrefixHost | _, .extPrefixSpace => 19
  | 6, .body => 11
  | _, .body => 7
  | _, .commandString | _, .commandNumeric => 8
  | 12, .paramsSpace | 12, .paramsTrailing | 12, .paramsParam | 12, .paramsEmpty => 20
  | 13, .paramsSpace | 13, .paramsTrailing | 13, .paramsParam | 13, .paramsEmpty => 21
  | _, .paramsSpace | _, .paramsTrailing | _, .paramsParam | _, .paramsEmpty => 15
  | _, .trailingParam | _, .trailingEmpty => 23

def pushParameter (p : List UInt8) (s : State) : State :=
  { s with record := { s.record with parameters := p :: s.record.parameters } }

/-- The actions of the grammar rules. -/
def semantics : GrammarRule → List Value → State → Reduce Value Fault State
  | .prefix_, [_, .sval origin, _], s =>
    .value .none { s with record := { s.record with
      prefix_ := { s.record.prefix_ with origin := origin } } }
  | .extPrefixUser, [_, .sval user, _], s =>
    .value .none { s with record := { s.record with
      prefix_ := { s.record.prefix_ with user := user } } }
  | .extPrefixHost, [_, .sval host, _], s =>
    .value .none { s with record := { s.record with
      prefix_ := { s.record.prefix_ with host := host } } }
  | .commandString, [.sval command], s =>
    if s.record.command = .invalid then
      .value .none { s with record := { s.record with command := .string command } }
    else .fault .assertion
  | .commandNumeric, [.ival command], s =>
    .value .none { s with record := { s.record with command := .numeric (UInt32.ofNat command) } }
  | .paramsParam, [.sval param, _], s => .value .none (pushParameter param s)
  | .trailingParam, [.sval param], s => .value .none (pushParameter param s)
  | .prefix_, _, _ | .extPrefixUser, _, _ | .extPrefixHost, _, _ | .commandString, _, _
  | .commandNumeric, _, _ | .paramsParam, _, _ | .trailingParam, _, _ => .fault .type
  | .messagePrefix, _, s | .messageBody, _, s | .messageEmpty, _, s | .extPrefixSpace, _, s
  | .body, _, s | .paramsSpace, _, s | .paramsTrailing, _, s | .paramsEmpty, _, s
  | .trailingEmpty, _, s => .value .none s

/-- The stack of this parser grows as it needs to. -/
def parser : Bison.Parser Token Value GrammarRule Fault State where
  final := 10
  consistent := consistent
  action := action
  arity := arity
  goto := goto
  semantics := semantics
  enter := id
  scan := scan
  maxDepth := none

inductive Parsed where
  | returned (result : Bool) (record : Record)
  | fault (f : Fault)
  deriving DecidableEq, Repr

def parsed : Result Fault State → Parsed
  | .returned code s => .returned (decide (code = .accepted)) s.record
  | .fault f => .fault f

/-- `IRC_ParserDriver::parse` of a fragment, with a new scanner and into a new record. -/
def Parses (fragment : List UInt8) (p : Parsed) : Prop :=
  ∃ r, parser.Halts (Parser.start { buffer := fragment }) r ∧ p = parsed r

end ACENetwork.Irc
