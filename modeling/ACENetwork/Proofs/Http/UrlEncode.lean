import Mathlib
import ACENetwork.Spec.Http.UrlEncode

/-! Percent encoding by `HTTP_Tools::URLEncode`: the sign of a `char` puts two digits too many in
front of the value of an octet beyond US-ASCII, and these are cut off again. -/

namespace ACENetwork.Http

open Percent

theorem toNat_toUnsignedShort (c : UInt8) :
    (toUnsignedShort c).toNat = if c.toNat < 128 then c.toNat else 65280 + c.toNat := by
  revert c
  decide +kernel

/-- The last two digits of a number that has more. -/
theorem toDigits_two {n : ℕ} (hn : n < 256) {m : ℕ} (hm : 0 < m) :
    Nat.toDigits 16 (256 * m + n) = Nat.toDigits 16 m ++ [(n / 16).digitChar, (n % 16).digitChar] := by
  have hlast : 256 * m + n = 16 * (16 * m + n / 16) + n % 16 := by omega
  have hhigh : Nat.toDigits 16 (n / 16) = [(n / 16).digitChar] := Nat.toDigits_of_lt_base (by omega)
  have hlow : Nat.toDigits 16 (n % 16) = [(n % 16).digitChar] := Nat.toDigits_of_lt_base (by omega)
  rw [hlast, ← Nat.toDigits_append_toDigits (by decide) (by omega) (by omega),
    ← Nat.toDigits_append_toDigits (by decide) hm (by omega), hhigh, hlow, List.append_assoc]
  rfl

theorem hexText_of_lt {n : UInt16} (hn : n.toNat < 256) :
    hexText 2 n = [hexDigit (n.toNat / 16), hexDigit (n.toNat % 16)] := by
  by_cases hlow : n.toNat < 16
  · rw [hexText, Nat.toDigits_of_lt_base hlow, Nat.div_eq_of_lt hlow, Nat.mod_eq_of_lt hlow]
    rfl
  · rw [hexText, Nat.toDigits_of_base_le (by decide) (Nat.not_lt.1 hlow),
      Nat.toDigits_of_lt_base (by omega)]
    rfl

theorem hexText_of_negative {n : UInt16} {m : ℕ} (hn : n.toNat = 65280 + m) (hm : m < 256) :
    hexText 2 n = [hexDigit 15, hexDigit 15, hexDigit (m / 16), hexDigit (m % 16)] := by
  rw [hexText, hn, show 65280 + m = 256 * 255 + m by rfl, toDigits_two hm (m := 255) (by decide)]
  rfl

/-- There are two digits, or four of which the first two come from the sign. -/
theorem digits_eq (c : UInt8) :
    (if (hexText 2 (toUnsignedShort c)).length = 2 then some (hexText 2 (toUnsignedShort c))
      else substr (hexText 2 (toUnsignedShort c)) 2) =
      some [hexDigit (c.toNat / 16), hexDigit (c.toNat % 16)] := by
  have hc := c.toNat_lt
  have hvalue := toNat_toUnsignedShort c
  by_cases hsign : c.toNat < 128
  · rw [if_pos hsign] at hvalue
    rw [hexText_of_lt (by omega), hvalue]
    exact if_pos rfl
  · rw [if_neg hsign] at hvalue
    rw [hexText_of_negative hvalue hc]
    rfl

theorem encodeCharacter_eq {locale : Locale} (h : locale.Ascii) (c : UInt8) :
    ∃ text, encodeCharacter locale c = some text ∧ Writes c text := by
  unfold encodeCharacter
  split_ifs with hmark
  · refine ⟨percent :: [hexDigit (c.toNat / 16), hexDigit (c.toNat % 16)], ?_, Or.inr rfl⟩
    exact congrArg (Option.map (percent :: ·)) (digits_eq c)
  · refine ⟨[c], rfl, Or.inl ⟨?_, rfl⟩⟩
    simp only [Bool.and_eq_true, Bool.not_eq_true', Bool.or_eq_false_iff, beq_eq_false_iff_ne] at hmark
    by_cases halnum : locale.isdigit c = true ∨ locale.isalpha c = true
    · rcases h c halnum with hdigit | hupper | hlower
      · exact Or.inr (Or.inr (Or.inl hdigit))
      · exact Or.inl hupper
      · exact Or.inr (Or.inl hlower)
    · unfold IsUnreserved
      grind

theorem urlEncode_eq_flatMap {locale : Locale} (h : locale.Ascii) (s : List UInt8) :
    ∃ f : UInt8 → List UInt8, (∀ c, Writes c (f c)) ∧ urlEncode (some locale) s = some (s.flatMap f) := by
  choose f hf hwrites using encodeCharacter_eq h
  refine ⟨f, hwrites, ?_⟩
  have hloop : s.mapM (encodeCharacter locale) = some (s.map f) := by
    induction s with
    | nil => rfl
    | cons c s ih =>
      rw [List.mapM_cons, hf, ih]
      rfl
  rw [urlEncode, hloop, Option.map_some, List.flatMap_def]

theorem urlEncode_decodes {locale : Locale} (h : locale.Ascii) (s : List UInt8) :
    ∃ text, urlEncode (some locale) s = some text ∧ Encoded text ∧ decode text = some s := by
  obtain ⟨f, hwrites, hf⟩ := urlEncode_eq_flatMap h s
  exact ⟨s.flatMap f, hf, encoded_flatMap hwrites s⟩

def usAscii : Locale where
  isdigit c := decide (48 ≤ c ∧ c ≤ 57)
  isalpha c := decide (65 ≤ c ∧ c ≤ 90 ∨ 97 ≤ c ∧ c ≤ 122)

theorem usAscii_ascii : usAscii.Ascii := by
  intro c hc
  simpa only [usAscii, decide_eq_true_iff] using hc

example : urlEncode (some usAscii) [97, 32, 200] = some [97, 37, 50, 48, 37, 99, 56] := by decide

theorem urlEncode_decodes_usAscii : ∃ text, urlEncode (some usAscii) [0, 37, 97, 200] = some text ∧
    Encoded text ∧ decode text = some [0, 37, 97, 200] :=
  urlEncode_decodes usAscii_ascii [0, 37, 97, 200]

end ACENetwork.Http
