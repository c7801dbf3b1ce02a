import Mathlib
import ACENetwork.Spec.Ace

/-! Bencoded values (`Bencoding_Element`) and their encoding, which is that of
`Common_Parser_Bencoding_Tools::bencode`: decimal numbers without superfluous digits, and the
entries of a dictionary in the order in which they are stored. -/

namespace ACENetwork.BitTorrent

inductive Bencoding where
  | string (s : List UInt8)
  | integer (i : ℤ)
  | list (l : List Bencoding)
  | dictionary (d : List (List UInt8 × Bencoding))
  deriving Repr

/-- The character class `DIGIT` of the scanner, which has the minus sign as well. -/
def isDigit (a : UInt8) : Bool := decide (a = 45 ∨ 48 ≤ a ∧ a ≤ 57)

/-- The decimal digits of a number. -/
def digits (n : ℕ) : List UInt8 :=
  if n = 0 then [48] else ((Nat.digits 10 n).map fun d => 48 + UInt8.ofNat d).reverse

def decimal (i : ℤ) : List UInt8 := if i < 0 then 45 :: digits i.natAbs else digits i.natAbs

def encodeString (s : List UInt8) : List UInt8 := digits s.length ++ 58 :: s

namespace Bencoding

mutual

def encode : Bencoding → List UInt8
  | .string s => encodeString s
  | .integer i => 105 :: (decimal i ++ [101])
  | .list l => 108 :: (encodeList l ++ [101])
  | .dictionary d => 100 :: (encodeEntries d ++ [101])

def encodeList : List Bencoding → List UInt8
  | [] => []
  | t :: l => t.encode ++ encodeList l

def encodeEntries : List (List UInt8 × Bencoding) → List UInt8
  | [] => []
  | (k, t) :: d => encodeString k ++ (t.encode ++ encodeEntries d)

end

/-- What is true of a value and of everything in it: `string` of the strings and keys, `integer` of
the integers, and `list` of the elements of every list. -/
structure Allowed where
  string : List UInt8 → Prop
  integer : ℤ → Prop
  element : Bencoding → Prop

mutual

def All (p : Allowed) : Bencoding → Prop
  | .string s => p.string s
  | .integer i => p.integer i
  | .list l => AllElements p l
  | .dictionary d => AllEntries p d

def AllElements (p : Allowed) : List Bencoding → Prop
  | [] => True
  | t :: l => (p.element t ∧ All p t) ∧ AllElements p l

def AllEntries (p : Allowed) : List (List UInt8 × Bencoding) → Prop
  | [] => True
  | (k, t) :: d => (p.string k ∧ All p t) ∧ AllEntries p d

end

def isList : Bencoding → Bool
  | .list _ => true
  | _ => false

def isDictionary : Bencoding → Bool
  | .dictionary _ => true
  | _ => false

end Bencoding

/-- The first byte of the string is neither `DIGIT` nor a colon. -/
def Plain (s : List UInt8) : Prop := ∀ a ∈ s.head?, isDigit a = false ∧ a ≠ 58

/-- A length that an `unsigned int` holds. -/
def Short (s : List UInt8) : Prop := s.length < 2 ^ 32

/-- The range of `ACE_INT64`. -/
def Fits (i : ℤ) : Prop := -2 ^ 63 ≤ i ∧ i < 2 ^ 63

/-- The values whose strings start like none of the scanner's numbers and whose numbers and lengths
fit, and that have no list as an element of a list. -/
def Scannable : Bencoding.Allowed where
  string := fun s => Plain s ∧ Short s
  integer := Fits
  element := fun t => t.isList = false

end ACENetwork.BitTorrent
