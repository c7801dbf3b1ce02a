import Mathlib
import ACENetwork.Library.Scanner
import ACENetwork.Library.Bison
import ACENetwork.Spec.Ace
import ACENetwork.Spec.BitTorrent.Bencoding

/-! The parser for metainfo files: the rules of `bencoding_scanner.ll`, the grammar of
`bencoding_parser.yy` with the automaton that Bison made of it, and the parser driver. As
`parseMetaInfoFile` has it, the parser does not block, and the file is all that there is to scan.
Lists and dictionaries are objects, which the grammar actions fill. -/

namespace ACENetwork.BitTorrent.MetaInfo

open Flex Bison

inductive Start where
  | initial | string | integer | list | dictionaryKey | dictionaryValue
  deriving DecidableEq, Repr

inductive Token where
  | endOfDictionary | endOfList | integer | string | list | dictionary | end_
  deriving DecidableEq, Repr

/-- The value of a token. A container is a new one. -/
inductive Lexeme where
  | none
  | integer (i : ℤ)
  | string (s : List UInt8)
  | list
  | dictionary
  deriving DecidableEq, Repr

mutual

def tokens : Bencoding → List (Token × Lexeme)
  | .string s => [(.string, .string s)]
  | .integer i => [(.integer, .integer i)]
  | .list l => (.list, .list) :: (tokensList l ++ [(.endOfList, .none)])
  | .dictionary d => (.dictionary, .dictionary) :: (tokensEntries d ++ [(.endOfDictionary, .none)])

def tokensList : List Bencoding → List (Token × Lexeme)
  | [] => []
  | t :: l => tokens t ++ tokensList l

def tokensEntries : List (List UInt8 × Bencoding) → List (Token × Lexeme)
  | [] => []
  | (k, t) :: d => (.string, .string k) :: (tokens t ++ tokensEntries d)

end

/-- The union of semantic values. Containers are given by their addresses. -/
inductive Value where
  | none
  | ival (i : ℤ)
  | sval (s : List UInt8)
  | lval (p : ℕ)
  | dval (p : ℕ)
  deriving DecidableEq, Repr

/-- What ends the program while it parses: an assertion, the start condition stack without an
element to pop, and, outside the code, the top of an empty stack, a value of another type than
the grammar declares, and an input without a rule. -/
inductive Fault where
  | assertion
  | underflow
  | emptyStack
  | type
  | jammed
  deriving DecidableEq, Repr

inductive Element where
  | string (s : List UInt8)
  | integer (i : ℤ)
  | list (p : ℕ)
  | dictionary (p : ℕ)
  deriving DecidableEq, Repr

inductive Object where
  | list (l : List Element)
  | dictionary (d : List (List UInt8 × Element))
  deriving DecidableEq, Repr

/-- The objects that were created, at their addresses. -/
abbrev Heap := List Object

namespace Heap

def pushBackList (h : Heap) (p : ℕ) (e : Element) : Heap :=
  h.modify p fun
    | .list l => .list (l ++ [e])
    | o => o

def pushBackDictionary (h : Heap) (p : ℕ) (k : List UInt8) (e : Element) : Heap :=
  h.modify p fun
    | .dictionary d => .dictionary (d ++ [(k, e)])
    | o => o

mutual

/-- The element is the root of the tree. -/
def Reads (h : Heap) : Element → Bencoding → Prop
  | e, .string s => e = .string s
  | e, .integer i => e = .integer i
  | e, .list l => ∃ p es, e = .list p ∧ h[p]? = some (.list es) ∧ ReadsAll h es l
  | e, .dictionary d => ∃ p es, e = .dictionary p ∧ h[p]? = some (.dictionary es) ∧ ReadsEntries h es d

def ReadsAll (h : Heap) : List Element → List Bencoding → Prop
  | es, [] => es = []
  | es, t :: l => ∃ e es', es = e :: es' ∧ Reads h e t ∧ ReadsAll h es' l

def ReadsEntries (h : Heap) : List (List UInt8 × Element) → List (List UInt8 × Bencoding) → Prop
  | es, [] => es = []
  | es, (k, t) :: d => ∃ e es', es = (k, e) :: es' ∧ Reads h e t ∧ ReadsEntries h es' d

end

end Heap

/-- The start condition and the stack of those it was pushed on, the rest of the file, and a local
variable of `yylex`. -/
structure Scanner where
  start : Start := .initial
  stack : List Start := []
  buffer : List UInt8
  stringLength : UInt32 := 0
  deriving DecidableEq, Repr

namespace Scanner

def begin_ (s : Scanner) (c : Start) : Scanner := { s with start := c }

def push (s : Scanner) (c : Start) : Scanner := { s with start := c, stack := s.start :: s.stack }

def pop (s : Scanner) : Option Scanner :=
  match s.stack with
  | [] => none
  | c :: stack => some { s with start := c, stack := stack }

def less (s : Scanner) (yytext : List UInt8) : Scanner := { s with buffer := yytext ++ s.buffer }

end Scanner

/-- The digits that a `std::stringstream` reads a number from, and whether they follow a minus
sign. -/
def stringstream (yytext : List UInt8) : Bool × ℕ :=
  let unsigned := if yytext.head? = some 45 then yytext.tail else yytext
  let ds := unsigned.takeWhile fun a => decide (48 ≤ a ∧ a ≤ 57)
  (decide (yytext.head? = some 45), Nat.ofDigits 10 (ds.reverse.map fun a => (a - 48).toNat))

/-- `converter >> string_length`. A number that does not fit gives the largest one that does. -/
def toLength (yytext : List UInt8) : UInt32 :=
  let (negative, n) := stringstream yytext
  if 2 ^ 32 ≤ n then 0xFFFFFFFF else if negative then - UInt32.ofNat n else UInt32.ofNat n

def toInt64 (yytext : List UInt8) : ℤ :=
  let (negative, n) := stringstream yytext
  if negative then max (-2 ^ 63) (- (n : ℤ)) else min (2 ^ 63 - 1) (n : ℤ)

inductive RuleName where
  | initialDictionary
  | stringLength | stringColon | stringContent
  | integerEnd | integerDigits | integerBegin
  | listEnd | listString | listInteger | listList | listDictionary
  | keyEnd | keyString
  | valueString | valueInteger | valueList | valueDictionary
  | octet
  deriving DecidableEq, Repr

def on (c : Start) : Start → Bool := fun c' => decide (c' = c)

def char (a : UInt8) : Pattern UInt8 := Pattern.cls fun b => decide (b = a)

/-- The start conditions are inclusive, but no rule is without one. -/
def rules : List (Flex.Rule Start UInt8 RuleName) :=
  [⟨on .initial, char 100, .initialDictionary⟩,
    ⟨on .string, Pattern.plus isDigit, .stringLength⟩,
    ⟨on .string, char 58, .stringColon⟩,
    ⟨on .string, Pattern.any, .stringContent⟩,
    ⟨on .integer, char 101, .integerEnd⟩,
    ⟨on .integer, Pattern.plus isDigit, .integerDigits⟩,
    ⟨on .integer, char 105, .integerBegin⟩,
    ⟨on .list, char 101, .listEnd⟩,
    ⟨on .list, Pattern.cls isDigit, .listString⟩,
    ⟨on .list, char 105, .listInteger⟩,
    ⟨on .list, char 108, .listList⟩,
    ⟨on .list, char 100, .listDictionary⟩,
    ⟨on .dictionaryKey, char 101, .keyEnd⟩,
    ⟨on .dictionaryKey, Pattern.cls isDigit, .keyString⟩,
    ⟨on .dictionaryValue, Pattern.cls isDigit, .valueString⟩,
    ⟨on .dictionaryValue, char 105, .valueInteger⟩,
    ⟨on .dictionaryValue, char 108, .valueList⟩,
    ⟨on .dictionaryValue, char 100, .valueDictionary⟩,
    ⟨fun _ => true, Pattern.any, .octet⟩]

/-- A token behind which the start condition is popped. -/
def popAnd (k : Token) (x : Lexeme) (s : Scanner) : Scan Token Lexeme Fault Scanner :=
  match s.pop with
  | none => .fault .underflow
  | some s => .token k x s

/-- The content of a string that starts with the octet that matched. `yyinput ()` returns 0
behind the end of the file, unless `yywrap ()` fails its assertion. -/
def content (debug : Bool) (yytext : List UInt8) (s : Scanner) : Scan Token Lexeme Fault Scanner :=
  if debug = true ∧ s.stringLength = 0 then .fault .assertion else
  let n := (s.stringLength - 1).toNat
  if debug = true ∧ s.buffer.length < n then .fault .assertion else
  let rest := s.buffer.take n ++ List.replicate (n - s.buffer.length) 0
  popAnd .string (.string (yytext.take 1 ++ rest)) { s with buffer := s.buffer.drop n }

/-- The actions. `s` is the state after the match, and `debug` tells that `ACE_NDEBUG` is not
defined. -/
def act (debug : Bool) (name : RuleName) (yytext : List UInt8) (s : Scanner) :
    Scan Token Lexeme Fault Scanner :=
  match name with
  | .initialDictionary =>
    .token .dictionary .dictionary ((s.begin_ .dictionaryKey).push .dictionaryKey)
  | .stringLength => .more { s with stringLength := toLength yytext }
  | .stringColon => if s.stringLength = 0 then popAnd .string (.string []) s else .more s
  | .stringContent => content debug yytext s
  | .integerEnd =>
    match s.pop with
    | none => .fault .underflow
    | some s => .more s
  | .integerDigits => .token .integer (.integer (toInt64 yytext)) s
  | .integerBegin => .more s
  | .listEnd => popAnd .endOfList .none s
  | .listString => .more ((s.less yytext).push .string)
  | .listInteger => .more ((s.less yytext).push .integer)
  | .listList => .token .list .list s
  | .listDictionary => .token .dictionary .dictionary (s.push .dictionaryKey)
  | .keyEnd => popAnd .endOfDictionary .none s
  | .keyString => .more (((s.less yytext).begin_ .dictionaryValue).push .string)
  | .valueString => .more (((s.less yytext).begin_ .dictionaryKey).push .string)
  | .valueInteger => .more (((s.less yytext).begin_ .dictionaryKey).push .integer)
  | .valueList => .token .list .list ((s.begin_ .dictionaryKey).push .list)
  | .valueDictionary =>
    .token .dictionary .dictionary ((s.begin_ .dictionaryKey).push .dictionaryKey)
  | .octet => .token .end_ .none s

/-- One rule of `yylex`. At the end of the file, `yywrap ()` asserts that it is not called. -/
def scan (debug : Bool) (s : Scanner) : Scan Token Lexeme Fault Scanner :=
  if s.buffer = [] then
    if debug then .fault .assertion else .token .end_ .none s
  else
    match select rules s.start s.buffer with
    | some (name, n) => act debug name (s.buffer.take n) { s with buffer := s.buffer.drop n }
    | none => .fault .jammed

def enter (s : Scanner) : Scanner := { s with stringLength := 0 }

/-- The start conditions in which a string can begin, and the one behind it. -/
def Start.next : Start → Option Start
  | .list => some .list
  | .dictionaryKey => some .dictionaryValue
  | .dictionaryValue => some .dictionaryKey
  | _ => none

/-- The next token is the string `w`, and the scanner is behind it, in the condition that follows. -/
def ReadsString (debug : Bool) (c c' : Start) (stack : List Start) (w rest : List UInt8) : Prop :=
  ∀ n, ∃ n', Lexes (scan debug) (enter ⟨c, stack, encodeString w ++ rest, n⟩) .string (.string w)
    ⟨c', stack, rest, n'⟩

/-- The rules, and `pushX` for the actions in the middle of a rule. -/
inductive GrammarRule where
  | pushBencoding | bencoding
  | listItems | listItemsEmpty
  | itemString | itemInteger | itemPushList | itemList | itemPushDictionary | itemDictionary
  | dictionaryItems | dictionaryItemsEmpty
  | pushKey | dictionaryItem
  | valueString | valueInteger | valuePushList | valueList | valuePushDictionary | valueDictionary
  deriving DecidableEq, Repr

def consistent : ℕ → Option GrammarRule
  | 1 => some .pushBencoding
  | 3 => some .dictionaryItemsEmpty
  | 6 => some .bencoding
  | 7 => some .pushKey
  | 8 => some .dictionaryItems
  | 10 => some .valueInteger
  | 11 => some .valueString
  | 12 => some .valuePushList
  | 13 => some .valuePushDictionary
  | 14 => some .dictionaryItem
  | 15 => some .listItemsEmpty
  | 16 => some .dictionaryItemsEmpty
  | 19 => some .valueList
  | 20 => some .itemInteger
  | 21 => some .itemString
  | 22 => some .itemPushList
  | 23 => some .itemPushDictionary
  | 24 => some .listItems
  | 25 => some .valueDictionary
  | 26 => some .listItemsEmpty
  | 27 => some .dictionaryItemsEmpty
  | 30 => some .itemList
  | 31 => some .itemDictionary
  | _ => none

def action : ℕ → Token → Action GrammarRule
  | 0, .dictionary => .shift 1
  | 2, .end_ => .shift 4
  | 5, .endOfDictionary => .shift 6
  | 5, .string => .shift 7
  | 9, .integer => .shift 10
  | 9, .string => .shift 11
  | 9, .list => .shift 12
  | 9, .dictionary => .shift 13
  | 17, .endOfList => .shift 19
  | 18, .endOfDictionary => .shift 25
  | 18, .string => .shift 7
  | 28, .endOfList => .shift 30
  | 29, .endOfDictionary => .shift 31
  | 29, .string => .shift 7
  | 17, .integer | 28, .integer => .shift 20
  | 17, .string | 28, .string => .shift 21
  | 17, .list | 28, .list => .shift 22
  | 17, .dictionary | 28, .dictionary => .shift 23
  | _, _ => .error

def arity : GrammarRule → ℕ
  | .bencoding | .itemList | .itemDictionary | .valueList | .valueDictionary => 4
  | .dictionaryItem => 3
  | .listItems | .dictionaryItems => 2
  | .itemString | .itemInteger | .valueString | .valueInteger => 1
  | _ => 0

def goto : ℕ → GrammarRule → ℕ
  | _, .bencoding => 2
  | _, .pushBencoding => 3
  | 26, .listItems | 26, .listItemsEmpty => 28
  | _, .listItems | _, .listItemsEmpty => 17
  | _, .itemString | _, .itemInteger | _, .itemList | _, .itemDictionary => 24
  | _, .itemPushList => 26
  | _, .itemPushDictionary => 27
  | 16, .dictionaryItems | 16, .dictionaryItemsEmpty => 18
  | 27, .dictionaryItems | 27, .dictionaryItemsEmpty => 29
  | _, .dictionaryItems | _, .dictionaryItemsEmpty => 5
  | _, .dictionaryItem => 8
  | _, .pushKey => 9
  | _, .valueString | _, .valueInteger | _, .valueList | _, .valueDictionary => 14
  | _, .valuePushList => 15
  | _, .valuePushDictionary => 16

/-- `BitTorrent_Bencoding_ParserDriver`, its scanner, the objects, the value on top of the stack of
the parser, which is that of the symbol pushed last, and the calls of `record` so far. A token is
shifted before anything else is pushed, whatever the state. -/
structure Driver where
  scanner : Scanner
  heap : Heap := []
  top : Value := .none
  bencoding : Option ℕ := none
  dictionaries : List ℕ := []
  keys : List (List UInt8) := []
  lists : List ℕ := []
  records : List ℕ := []
  deriving DecidableEq, Repr

namespace Driver

def pushDictionary (d : Driver) (p : ℕ) : Driver :=
  { d with dictionaries := p :: d.dictionaries, bencoding := d.bencoding <|> some p }

def pushBackItem (d : Driver) (e : Element) : Option Driver :=
  match d.lists with
  | [] => none
  | p :: _ => some { d with heap := d.heap.pushBackList p e }

/-- `getDictionary ().push_back (std::make_pair (key_string_p, element_p))`. -/
def pushBackEntry (d : Driver) (k : List UInt8) (e : Element) : Option Driver :=
  match d.dictionaries with
  | [] => none
  | p :: _ => some { d with heap := d.heap.pushBackDictionary p k e }

/-- The value of a token, with the container that the scanner creates for it. -/
def new (d : Driver) : Lexeme → Value × Heap
  | .none => (.none, d.heap)
  | .integer i => (.ival i, d.heap)
  | .string s => (.sval s, d.heap)
  | .list => (.lval d.heap.length, d.heap ++ [.list []])
  | .dictionary => (.dval d.heap.length, d.heap ++ [.dictionary []])

end Driver

/-- A symbol with the value `v`, which goes to the top of the stack. -/
def yields (v : Value) (d : Driver) : Reduce Value Fault Driver := .value v { d with top := v }

def item (v : Value) (e : Element) (d : Driver) : Reduce Value Fault Driver :=
  match d.pushBackItem e with
  | none => .fault .emptyStack
  | some d => yields v d

/-- The action of a dictionary value: the key is taken first, then comes what pops the container
of the value, if it is one. -/
def entry (v : Value) (e : Element) (popContainer : Driver → Driver) (d : Driver) :
    Reduce Value Fault Driver :=
  match d.keys with
  | [] => .fault .emptyStack
  | k :: keys =>
    match (popContainer { d with keys := keys }).pushBackEntry k e with
    | none => .fault .emptyStack
    | some d => yields v d

def popList (d : Driver) : Driver := { d with lists := d.lists.tail }

def popDictionary (d : Driver) : Driver := { d with dictionaries := d.dictionaries.tail }

/-- The actions of the grammar rules. The value of an empty right-hand side is the one on top of
the stack, and so is `$1` in the actions in the middle of a rule. -/
def semantics : GrammarRule → List Value → Driver → Reduce Value Fault Driver
  | .pushBencoding, _, d | .itemPushDictionary, _, d | .valuePushDictionary, _, d =>
    match d.top with
    | .dval p => yields d.top (d.pushDictionary p)
    | _ => .fault .type
  | .itemPushList, _, d | .valuePushList, _, d =>
    match d.top with
    | .lval p => yields d.top { d with lists := p :: d.lists }
    | _ => .fault .type
  | .pushKey, _, d =>
    match d.top with
    | .sval k => yields d.top { d with keys := k :: d.keys }
    | _ => .fault .type
  | .bencoding, v :: _, d =>
    -- ACE_ASSERT (bencoding_)
    match d.bencoding with
    | none => .fault .assertion
    | some p => yields v { d with records := d.records ++ [p] }
  | .listItemsEmpty, _, d | .dictionaryItemsEmpty, _, d => yields d.top d
  | .listItems, v :: _, d | .dictionaryItems, v :: _, d | .dictionaryItem, v :: _, d => yields v d
  | .itemString, [.sval s], d => item (.sval s) (.string s) d
  | .itemInteger, [.ival i], d => item (.ival i) (.integer i) d
  | .itemList, [v, _, .lval p, _], d => item v (.list p) (popList d)
  | .itemDictionary, [v, _, .dval p, _], d => item v (.dictionary p) (popDictionary d)
  | .valueString, [.sval s], d => entry (.sval s) (.string s) id d
  | .valueInteger, [.ival i], d => entry (.ival i) (.integer i) id d
  | .valueList, [v, _, .lval p, _], d => entry v (.list p) popList d
  | .valueDictionary, [v, _, .dval p, _], d => entry v (.dictionary p) popDictionary d
  | _, _, _ => .fault .type

def scanDriver (debug : Bool) (d : Driver) : Scan Token Value Fault Driver :=
  match scan debug d.scanner with
  | .more s => .more { d with scanner := s }
  | .token k x s =>
    let (v, heap) := d.new x
    .token k v { d with scanner := s, heap := heap, top := v }
  | .fault f => .fault f

def parser (debug : Bool) : Bison.Parser Token Value GrammarRule Fault Driver where
  final := 4
  consistent := consistent
  action := action
  arity := arity
  goto := goto
  semantics := semantics
  enter := fun d => { d with scanner := enter d.scanner }
  scan := scanDriver debug
  maxDepth := none

/-- The file is accepted, with one call of `record`, for the dictionary `t`. -/
def Accepts (debug : Bool) (file : List UInt8) (t : Bencoding) : Prop :=
  ∃ d p, (parser debug).Halts (Parser.start { scanner := { buffer := file } }) (.returned .accepted d) ∧
    d.records = [p] ∧ d.heap.Reads (.dictionary p) t

end ACENetwork.BitTorrent.MetaInfo
