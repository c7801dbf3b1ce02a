import Mathlib
import ACENetwork.Library.Percent

/-! `HTTP_Tools::URLEncode`, with the conversions of a `std::ostringstream` that it uses. -/

namespace ACENetwork.Http

structure Locale where
  isdigit : UInt8 → Bool
  isalpha : UInt8 → Bool

/-- A character of type `char`, which has a sign, as an `unsigned short`. -/
def toUnsignedShort (c : UInt8) : UInt16 := c.toInt8.toInt16.toUInt16

def hexText (width : ℕ) (n : UInt16) : List UInt8 :=
  let digits := (Nat.toDigits 16 n.toNat).map fun c => UInt8.ofNat c.toNat
  List.replicate (width - digits.length) 48 ++ digits

/-- `std::string::substr`, which throws an exception for a position behind the end. -/
def substr (s : List UInt8) (position : ℕ) : Option (List UInt8) :=
  if position ≤ s.length then some (s.drop position) else none

def encodeCharacter (locale : Locale) (c : UInt8) : Option (List UInt8) :=
  if !locale.isdigit c && !locale.isalpha c && !(c == 46 || c == 45 || c == 95 || c == 126) then
    let converted := hexText 2 (toUnsignedShort c)
    (if converted.length = 2 then some converted else substr converted 2).map (Percent.percent :: ·)
  else some [c]

def urlEncode (locale : Option Locale) (s : List UInt8) : Option (List UInt8) :=
  match locale with
  | none => some []
  | some locale => (s.mapM (encodeCharacter locale)).map List.flatten

/-- Only the letters and the digits of US-ASCII are alphanumeric. -/
def Locale.Ascii (locale : Locale) : Prop :=
  ∀ c, locale.isdigit c = true ∨ locale.isalpha c = true →
    48 ≤ c ∧ c ≤ 57 ∨ 65 ≤ c ∧ c ≤ 90 ∨ 97 ≤ c ∧ c ≤ 122

end ACENetwork.Http
