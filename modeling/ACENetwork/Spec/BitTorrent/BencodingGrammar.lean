import Mathlib
import ACENetwork.Spec.BitTorrent.BencodingParser

/-! The productions of `bencoding_parser.yy`, and its parser when it takes the tokens from a list and
not from a file. -/

namespace ACENetwork.BitTorrent.MetaInfo

open Bison

/-- The symbols that are not tokens. -/
inductive Symbol where
  | bencoding | listItems | listItem | dictionaryItems | dictionaryItem | dictionaryValue
  deriving DecidableEq, Repr

/-- The token sequences that a symbol can be derived to, with the values of the tokens. -/
inductive Derives : Symbol → List (Token × Lexeme) → Prop where
  | bencoding {ts : List (Token × Lexeme)} (h : Derives .dictionaryItems ts) :
    Derives .bencoding ((.dictionary, .dictionary) :: (ts ++ [(.endOfDictionary, .none)]))
  | listItems {ts ts' : List (Token × Lexeme)} (h : Derives .listItems ts) (h' : Derives .listItem ts') :
    Derives .listItems (ts ++ ts')
  | listItemsEmpty : Derives .listItems []
  | itemString (s : List UInt8) : Derives .listItem [(.string, .string s)]
  | itemInteger (i : ℤ) : Derives .listItem [(.integer, .integer i)]
  | itemList {ts : List (Token × Lexeme)} (h : Derives .listItems ts) :
    Derives .listItem ((.list, .list) :: (ts ++ [(.endOfList, .none)]))
  | itemDictionary {ts : List (Token × Lexeme)} (h : Derives .dictionaryItems ts) :
    Derives .listItem ((.dictionary, .dictionary) :: (ts ++ [(.endOfDictionary, .none)]))
  | dictionaryItems {ts ts' : List (Token × Lexeme)} (h : Derives .dictionaryItems ts)
    (h' : Derives .dictionaryItem ts') : Derives .dictionaryItems (ts ++ ts')
  | dictionaryItemsEmpty : Derives .dictionaryItems []
  | dictionaryItem (k : List UInt8) {ts : List (Token × Lexeme)} (h : Derives .dictionaryValue ts) :
    Derives .dictionaryItem ((.string, .string k) :: ts)
  | valueString (s : List UInt8) : Derives .dictionaryValue [(.string, .string s)]
  | valueInteger (i : ℤ) : Derives .dictionaryValue [(.integer, .integer i)]
  | valueList {ts : List (Token × Lexeme)} (h : Derives .listItems ts) :
    Derives .dictionaryValue ((.list, .list) :: (ts ++ [(.endOfList, .none)]))
  | valueDictionary {ts : List (Token × Lexeme)} (h : Derives .dictionaryItems ts) :
    Derives .dictionaryValue ((.dictionary, .dictionary) :: (ts ++ [(.endOfDictionary, .none)]))

/-- The next token of the list, with a new container if it is one; behind the list is the end. -/
def readToken (s : Driver × List (Token × Lexeme)) :
    Scan Token Value Fault (Driver × List (Token × Lexeme)) :=
  match s.2 with
  | [] => .token .end_ .none ({ s.1 with top := .none }, [])
  | (k, x) :: ts => .token k (s.1.new x).1 ({ s.1 with heap := (s.1.new x).2, top := (s.1.new x).1 }, ts)

def tokenParser :
    Bison.Parser Token Value GrammarRule Fault (Driver × List (Token × Lexeme)) :=
  (parser true).rescan id readToken

def idle : Driver := { scanner := { buffer := [] } }

end ACENetwork.BitTorrent.MetaInfo
