import Mathlib
import ACENetwork.Spec.Ace

/-! HTTP messages (`HTTP_Record`) and the conversions that fill them in: `HTTP_Tools`, the
regular expressions of the parser and the numbers that a `std::istringstream` reads. -/

namespace ACENetwork.Http

open Std

/-- The octets of a text in US-ASCII. -/
def ascii (s : String) : List UInt8 := s.toList.map fun c => UInt8.ofNat c.toNat

def crlf : List UInt8 := [13, 10]

def isDigit (a : UInt8) : Bool := decide (48 ≤ a ∧ a ≤ 57)

def isAlpha (a : UInt8) : Bool := decide (65 ≤ a ∧ a ≤ 90 ∨ 97 ≤ a ∧ a ≤ 122)

def isAlnum (a : UInt8) : Bool := isAlpha a || isDigit a

def isXdigit (a : UInt8) : Bool := isDigit a || decide (65 ≤ a ∧ a ≤ 70 ∨ 97 ≤ a ∧ a ≤ 102)

def isSpace (a : UInt8) : Bool := decide (a = 32 ∨ 9 ≤ a ∧ a ≤ 13)

def toLower (a : UInt8) : UInt8 := if 65 ≤ a ∧ a ≤ 90 then a + 32 else a

/-- What the parser uses of `Common_String_Tools`. -/
structure StringTools where
  tolower : List UInt8 → List UInt8
  strip : List UInt8 → List UInt8

/-- What its documentation says of `tolower`. -/
def StringTools.Lowers (tools : StringTools) : Prop := ∀ s, tools.tolower s = s.map toLower

/-- `HTTP_Codes::MethodType` -/
inductive Method where
  | get | post | head | invalid
  deriving DecidableEq, Repr

/-- `HTTP_Codes::VersionType` -/
inductive Version where
  | v0_9 | v1_0 | v1_1 | v2 | invalid
  deriving DecidableEq, Repr

/-- `strcasecmp`, by which `ci_less` orders the names of headers. -/
def compareNames : List UInt8 → List UInt8 → Ordering := compareOn fun s => (cString s).map toLower

instance : TransCmp compareNames := inferInstanceAs (TransCmp (compareOn _))

abbrev Headers := TreeMap (List UInt8) (List UInt8) compareNames

def statusInvalid : ℕ := 1001

/-- `HTTP_Record`, with the values its constructor gives. -/
structure Record where
  method : Method := .invalid
  uri : List UInt8 := []
  version : Version := .invalid
  status : ℕ := statusInvalid
  reason : List UInt8 := []
  headers : Headers := ∅

def headerContentLength : List UInt8 := ascii "Content-Length"
def headerContentEncoding : List UInt8 := ascii "Content-Encoding"
def headerTransferEncoding : List UInt8 := ascii "Transfer-Encoding"
def transferEncodingChunked : List UInt8 := ascii "chunked"
def versionStringPrefix : List UInt8 := ascii "HTTP/"

def methodToType (method : List UInt8) : Method :=
  if method = ascii "GET" then .get
  else if method = ascii "POST" then .post
  else if method = ascii "HEAD" then .head
  else .invalid

def versionToType (version : List UInt8) : Version :=
  if version = ascii "0.9" then .v0_9
  else if version = ascii "1.0" then .v1_0
  else if version = ascii "1.1" then .v1_1
  else if version = ascii "2" then .v2
  else .invalid

/-- The first group of `^HTTP/([[:digit:]]{1}\.[[:digit:]]{1})$`. -/
def matchVersion (s : List UInt8) : Option (List UInt8) :=
  if s.take 5 = versionStringPrefix then
    match s.drop 5 with
    | [a, b, c] => if isDigit a ∧ b = 46 ∧ isDigit c then some [a, b, c] else none
    | _ => none
  else none

/-- What the period of a regular expression stands for. -/
def isLine (a : UInt8) : Bool := decide (a ≠ 13 ∧ a ≠ 10)

/-- The groups of `^([^:]+):\s(.+)$`. -/
def matchHeader (s : List UInt8) : Option (List UInt8 × List UInt8) :=
  let name := s.takeWhile fun a => decide (a ≠ 58)
  match s.dropWhile fun a => decide (a ≠ 58) with
  | _ :: space :: value =>
    if name ≠ [] ∧ isSpace space ∧ value ≠ [] ∧ value.all isLine then some (name, value) else none
  | _ => none

/-- The first group of `^([[:xdigit:]]+)(?:(;.+)*)(?:\r\n)$`. -/
def matchChunkLine (s : List UInt8) : Option (List UInt8) :=
  let size := s.takeWhile isXdigit
  let tail := s.dropWhile isXdigit
  let extensions := tail.take (tail.length - 2)
  if size ≠ [] ∧ tail.drop (tail.length - 2) = crlf ∧
      (extensions = [] ∨ extensions.head? = some 59 ∧ 2 ≤ extensions.length ∧ extensions.all isLine) then
    some size
  else none

def digit (a : UInt8) : ℕ :=
  if isDigit a then (a - 48).toNat else if a ≤ 70 then (a - 55).toNat else (a - 87).toNat

def number (base : ℕ) (digits : List UInt8) : ℕ := Nat.ofDigits base (digits.reverse.map digit)

/-- An unsigned value is the largest one when the digits say more than that. -/
def saturate (n : ℕ) : UInt32 := if n < 2 ^ 32 then UInt32.ofNat n else 0xFFFFFFFF

/-- An `unsigned int` from decimal text: white space, a sign and digits, or else zero. -/
def extract (text : List UInt8) : UInt32 :=
  match text.dropWhile isSpace with
  | 43 :: digits => saturate (number 10 (digits.takeWhile isDigit))
  | 45 :: digits =>
    let n := number 10 (digits.takeWhile isDigit)
    if n < 2 ^ 32 then 0 - UInt32.ofNat n else 0xFFFFFFFF
  | digits => saturate (number 10 (digits.takeWhile isDigit))

theorem extract_digits {v : List UInt8} (hv : v ≠ []) (hdigits : v.all isDigit = true)
    (hlt : number 10 v < 2 ^ 32) : extract v = UInt32.ofNat (number 10 v) := by
  have htake : v.takeWhile isDigit = v := List.takeWhile_eq_self_iff.2 (List.all_eq_true.1 hdigits)
  obtain ⟨a, v, rfl⟩ := List.exists_cons_of_ne_nil hv
  have ha : isDigit a = true := List.all_eq_true.1 hdigits a List.mem_cons_self
  have hspace : isSpace a = false ∧ a ≠ 43 ∧ a ≠ 45 := by
    simp only [isDigit, isSpace, decide_eq_true_eq, decide_eq_false_iff_not] at *
    grind
  rw [extract, List.dropWhile_cons_of_neg (by simp [hspace.1])]
  split
  · rename_i h
    exact absurd (List.cons.inj h).1 hspace.2.1
  · rename_i h
    exact absurd (List.cons.inj h).1 hspace.2.2
  · rw [htake, saturate, if_pos hlt]

/-- An `unsigned int` from hexadecimal digits. -/
def extractHex (digits : List UInt8) : UInt32 := saturate (number 16 digits)

end ACENetwork.Http
