import Mathlib

/-! Percent encoding: the unreserved characters stand for themselves, and `%` with two hexadecimal
digits stands for any octet. -/

namespace Percent

def percent : UInt8 := 37

def IsUnreserved (a : UInt8) : Prop :=
  65 ≤ a ∧ a ≤ 90 ∨ 97 ≤ a ∧ a ≤ 122 ∨ 48 ≤ a ∧ a ≤ 57 ∨ a = 45 ∨ a = 46 ∨ a = 95 ∨ a = 126

instance : DecidablePred IsUnreserved := fun _ => inferInstanceAs (Decidable (_ ∨ _))

def hexDigit (n : ℕ) : UInt8 := UInt8.ofNat n.digitChar.toNat

def hexValue (a : UInt8) : Option ℕ :=
  if 48 ≤ a ∧ a ≤ 57 then some (a - 48).toNat
  else if 65 ≤ a ∧ a ≤ 70 then some (a - 55).toNat
  else if 97 ≤ a ∧ a ≤ 102 then some (a - 87).toNat
  else none

/-- The texts that an encoder may write. -/
inductive Encoded : List UInt8 → Prop where
  | nil : Encoded []
  | plain {a : UInt8} {text : List UInt8} (ha : IsUnreserved a) (h : Encoded text) :
    Encoded (a :: text)
  | escape {a b : UInt8} {text : List UInt8} (ha : (hexValue a).isSome) (hb : (hexValue b).isSome)
    (h : Encoded text) : Encoded (percent :: a :: b :: text)

def decode : List UInt8 → Option (List UInt8)
  | [] => some []
  | a :: text =>
    if a ≠ percent then (decode text).map (a :: ·) else
    match text with
    | a :: b :: rest =>
      match hexValue a, hexValue b with
      | some x, some y => (decode rest).map (UInt8.ofNat (16 * x + y) :: ·)
      | _, _ => none
    | _ => none

theorem hexValue_hexDigit {n : ℕ} (h : n < 16) : hexValue (hexDigit n) = some n := by
  interval_cases n <;> decide

theorem decode_plain {a : UInt8} (h : IsUnreserved a) (text : List UInt8) :
    decode (a :: text) = (decode text).map (a :: ·) := by
  have hne : a ≠ percent := by
    rintro rfl
    exact absurd h (by decide)
  rw [decode.eq_def]
  exact if_pos hne

theorem decode_escape {x y : ℕ} (hx : x < 16) (hy : y < 16) (text : List UInt8) :
    decode (percent :: hexDigit x :: hexDigit y :: text) =
      (decode text).map (UInt8.ofNat (16 * x + y) :: ·) := by
  rw [decode, if_neg (by decide)]
  simp only [hexValue_hexDigit hx, hexValue_hexDigit hy]

/-- How an octet may be written: an unreserved character as it is, and any other octet with the
digits of its value. -/
def Writes (a : UInt8) (text : List UInt8) : Prop :=
  IsUnreserved a ∧ text = [a] ∨
    text = [percent, hexDigit (a.toNat / 16), hexDigit (a.toNat % 16)]

/-- What is written octet by octet is an encoding, and decodes to the octets. -/
theorem encoded_flatMap {f : UInt8 → List UInt8} (hf : ∀ a, Writes a (f a)) (s : List UInt8) :
    Encoded (s.flatMap f) ∧ decode (s.flatMap f) = some s := by
  induction s with
  | nil => exact ⟨Encoded.nil, rfl⟩
  | cons a s ih =>
    obtain ⟨hencoded, hdecode⟩ := ih
    rw [List.flatMap_cons]
    rcases hf a with ⟨hplain, htext⟩ | htext
    · rw [htext]
      refine ⟨Encoded.plain hplain hencoded, ?_⟩
      rw [List.singleton_append, decode_plain hplain, hdecode, Option.map_some]
    · have ha := a.toNat_lt
      have hx : a.toNat / 16 < 16 := by omega
      have hy : a.toNat % 16 < 16 := by omega
      have hvalue : UInt8.ofNat (16 * (a.toNat / 16) + a.toNat % 16) = a := by
        rw [Nat.div_add_mod, UInt8.ofNat_toNat]
      rw [htext]
      constructor
      · apply Encoded.escape _ _ hencoded
        · rw [hexValue_hexDigit hx, Option.isSome_some]
        · rw [hexValue_hexDigit hy, Option.isSome_some]
      · simp only [List.cons_append, List.nil_append, decode_escape hx hy, hdecode, Option.map_some,
          hvalue]

end Percent
