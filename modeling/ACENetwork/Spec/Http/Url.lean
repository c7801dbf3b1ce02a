import Mathlib
import ACENetwork.Library.Regex
import ACENetwork.Spec.Http.Record

/-! `HTTP_Tools::parseURL` and `HTTP_Tools::URLRequiresSSL`. The anchors of the expressions stand at
their ends only, where `regex_match` begins and ends anyway; the classes are those of the C locale. -/

namespace ACENetwork.Http

open Backtracking

/-- `[[:alnum:]-.]` -/
def hostNameAtoms : List (Atom UInt8) := [.named isAlnum, .symbol 45, .symbol 46]

def schemeRegex : Regex UInt8 :=
  .opt (.seq (.lit (ascii "http"))
    (.seq (.opt (.group 1 (.lit (ascii "s")))) (.lit (ascii "://"))))

/-- `[[:digit:]]{1,5}` -/
def portRegex : Regex UInt8 := .seq (.cls isDigit) (.upTo (.cls isDigit) 4)

/-- `^(?:http(s)?://)?([...]+)(?:\:([[:digit:]]{1,5}))?(.+)?$` with the class in the brackets. -/
def URLRegex (c : UInt8 → Bool) : Regex UInt8 :=
  .seq schemeRegex (.seq (.group 2 (.plus (.cls c)))
    (.seq (.opt (.seq (.lit (ascii ":")) (.group 3 portRegex))) (.opt (.group 4 (.plus (.cls isLine))))))

/-- `^\/([^\/]+\/)*(.*?)$` -/
def URIRegex : Regex UInt8 :=
  .seq (.lit (ascii "/"))
    (.seq (.star true (.group 1 (.seq (.plus (.cls fun c => decide (c ∉ ascii "/"))) (.lit (ascii "/")))))
      (.group 2 (.star false (.cls isLine))))

/-- `^(?:http(s)?://)?(.+)?$` -/
def SSLRegex : Regex UInt8 := .seq schemeRegex (.opt (.group 2 (.plus (.cls isLine))))

structure URLParts where
  hostName : List UInt8
  URI : List UInt8
  useSSL : Bool
  deriving DecidableEq, Repr

/-- What `parseURL` does with the first expression. Group 2 takes part in every match; the number of
the port is not used. -/
def splitURL (regex : Regex UInt8) (url : List UInt8) : Option URLParts :=
  match regex.fullMatch url with
  | none => none
  | some g =>
    match g 2 with
    | none => none
    | some host =>
      let hostName := match g 3 with
        | some port => host ++ 58 :: port
        | none => host
      let uri := (g 4).getD (ascii "/")
      if (URIRegex.fullMatch uri).isSome then some ⟨hostName, uri, (g 1).isSome⟩ else none

/-- The expression is built in every call, and what that throws is not caught. -/
def parseURLWith (atoms : List (Atom UInt8)) (url : List UInt8) : Except Atom.Error (Option URLParts) := do
  let c ← Atom.bracket 45 atoms
  return splitURL (URLRegex c) url

def parseURL : List UInt8 → Except Atom.Error (Option URLParts) := parseURLWith hostNameAtoms

def URLRequiresSSL (url : List UInt8) : Bool :=
  match SSLRegex.fullMatch url with
  | none => false
  | some g => (g 1).isSome

def isHostName (c : UInt8) : Bool := isAlnum c || decide (c ∈ ascii "-.")

/-- `[http[s]://]host[:port][/path]` -/
structure URL where
  -- whether the scheme is `https`, if there is one
  scheme : Option Bool
  host : List UInt8
  port : Option (List UInt8)
  -- what is behind the slash
  path : Option (List UInt8)
  host_ne : host ≠ []
  isHostName : ∀ c ∈ host, isHostName c = true
  isPort : ∀ p ∈ port, 1 ≤ p.length ∧ p.length ≤ 5 ∧ ∀ c ∈ p, isDigit c = true
  isLine : ∀ p ∈ path, ∀ c ∈ p, isLine c = true

def schemeText : Option Bool → List UInt8
  | none => []
  | some false => ascii "http://"
  | some true => ascii "https://"

namespace URL

def hostName (u : URL) : List UInt8 := u.host ++ u.port.elim [] fun p => 58 :: p

def pathText (u : URL) : List UInt8 := u.path.elim [] fun p => 47 :: p

def text (u : URL) : List UInt8 := schemeText u.scheme ++ (u.hostName ++ u.pathText)

def parts (u : URL) : URLParts :=
  ⟨u.hostName, 47 :: u.path.getD [], decide (u.scheme = some true)⟩

end URL

def schemePrefix (s : List UInt8) : List UInt8 :=
  if ascii "https://" <+: s then ascii "https://"
  else if ascii "http://" <+: s then ascii "http://"
  else []

/-- The text without the scheme in front of it. -/
def withoutScheme (s : List UInt8) : List UInt8 := s.drop (schemePrefix s).length

structure SplitsInto (s : List UInt8) (parts : URLParts) : Prop where
  useSSL : parts.useSSL = URLRequiresSSL s
  URI : parts.URI.head? = some 47
  hostName : ∃ host : List UInt8, host ≠ [] ∧ (∀ c ∈ host, isHostName c = true) ∧
    (parts.hostName = host ∨ ∃ port : List UInt8, 1 ≤ port.length ∧ port.length ≤ 5 ∧
      (∀ c ∈ port, isDigit c = true) ∧ parts.hostName = host ++ 58 :: port)
  whole : withoutScheme s = parts.hostName ++ parts.URI ∨
    parts.URI = [47] ∧ withoutScheme s = parts.hostName

/-- What is asked of a function that splits URLs, for one text. -/
structure Splits (parse : List UInt8 → Except Atom.Error (Option URLParts)) (s : List UInt8) : Prop where
  sound : ∀ parts, parse s = .ok (some parts) → SplitsInto s parts
  accepts : ∀ u : URL, u.text = s → ∃ parts, parse s = .ok (some parts)

/-- `[[:alnum:].-]` -/
def dashLast : List (Atom UInt8) := [.named isAlnum, .symbol 46, .symbol 45]

end ACENetwork.Http
