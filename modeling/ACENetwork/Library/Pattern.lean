import Mathlib

/-! Scanner patterns: regular expressions over classes of symbols, with Brzozowski
derivatives, and the length of the longest prefix of an input that a pattern matches.
The derivatives are only a way to compute that length; every use of it goes through
`longest_eq_some`, which speaks about the language of the pattern. -/

namespace Flex

variable {α : Type}

inductive Pattern (α : Type) where
  | fail
  | empty
  | cls (p : α → Bool)
  | seq (r s : Pattern α)
  | alt (r s : Pattern α)
  | star (r : Pattern α)

namespace Pattern

def clsLang (p : α → Bool) : Language α := {w | ∃ a, p a = true ∧ w = [a]}

theorem mem_clsLang (p : α → Bool) (w : List α) :
    w ∈ clsLang p ↔ ∃ a, p a = true ∧ w = [a] := Iff.rfl

def lang : Pattern α → Language α
  | fail => 0
  | empty => 1
  | cls p => clsLang p
  | seq r s => r.lang * s.lang
  | alt r s => r.lang + s.lang
  | star r => KStar.kstar r.lang

def nullable : Pattern α → Bool
  | fail => false
  | empty => true
  | cls _ => false
  | seq r s => r.nullable && s.nullable
  | alt r s => r.nullable || s.nullable
  | star _ => true

/-- Sequencing that forgets an impossible or an empty first part. -/
def seq' : Pattern α → Pattern α → Pattern α
  | fail, _ => fail
  | empty, s => s
  | r, s => seq r s

def alt' : Pattern α → Pattern α → Pattern α
  | fail, s => s
  | r, fail => r
  | r, s => alt r s

def deriv (a : α) : Pattern α → Pattern α
  | fail => fail
  | empty => fail
  | cls p => if p a then empty else fail
  | seq r s => if r.nullable then alt' (seq' (r.deriv a) s) (s.deriv a) else seq' (r.deriv a) s
  | alt r s => alt' (r.deriv a) (s.deriv a)
  | star r => seq' (r.deriv a) (star r)

/-- Length of the longest prefix that the pattern matches. -/
def longest : Pattern α → List α → Option ℕ
  | r, [] => if r.nullable then some 0 else none
  | r, a :: s =>
    match longest (r.deriv a) s with
    | some n => some (n + 1)
    | none => if r.nullable then some 0 else none

theorem lang_seq' (r s : Pattern α) : (seq' r s).lang = r.lang * s.lang := by
  cases r <;> simp [seq', lang]

theorem lang_alt' (r s : Pattern α) : (alt' r s).lang = r.lang + s.lang := by
  cases r <;> cases s <;> simp [alt', lang]

theorem nullable_iff (r : Pattern α) : r.nullable = true ↔ [] ∈ r.lang := by
  induction r with
  | fail => simp [nullable, lang, Language.notMem_zero]
  | empty => simp [nullable, lang, Language.mem_one]
  | cls p => simp [nullable, lang, mem_clsLang]
  | seq r s ihr ihs =>
    rw [lang, nullable, Bool.and_eq_true, ihr, ihs, Language.mem_mul]
    refine ⟨fun h => ?_, fun h => ?_⟩
    · obtain ⟨hr, hs⟩ := h
      exact ⟨[], hr, [], hs, rfl⟩
    · obtain ⟨a, ha, b, hb, hab⟩ := h
      obtain ⟨rfl, rfl⟩ := List.append_eq_nil_iff.1 hab
      exact ⟨ha, hb⟩
  | alt r s ihr ihs => rw [lang, nullable, Bool.or_eq_true, ihr, ihs, Language.mem_add]
  | star r _ => simp [nullable, lang, Language.nil_mem_kstar]

/-- Splitting a nonempty word of a product at the end of its first factor. -/
theorem cons_mem_mul (l m : Language α) (a : α) (w : List α) :
    a :: w ∈ l * m ↔
      (∃ u v, a :: u ∈ l ∧ v ∈ m ∧ u ++ v = w) ∨ ([] ∈ l ∧ a :: w ∈ m) := by
  rw [Language.mem_mul]
  refine ⟨fun h => ?_, fun h => ?_⟩
  · obtain ⟨u, hu, v, hv, huv⟩ := h
    cases u with
    | nil => exact Or.inr ⟨hu, by simpa [← huv] using hv⟩
    | cons b u =>
      obtain ⟨rfl, rfl⟩ := List.cons_eq_cons.1 huv
      exact Or.inl ⟨u, v, hu, hv, rfl⟩
  · rcases h with ⟨u, v, hu, hv, rfl⟩ | ⟨hn, hw⟩
    · exact ⟨a :: u, hu, v, hv, rfl⟩
    · exact ⟨[], hn, a :: w, hw, rfl⟩

/-- The first nonempty factor of a nonempty word of an iteration. -/
theorem cons_mem_kstar (l : Language α) (a : α) (w : List α) :
    a :: w ∈ KStar.kstar l ↔ ∃ u v, a :: u ∈ l ∧ v ∈ KStar.kstar l ∧ u ++ v = w := by
  constructor
  · rw [Language.mem_kstar_iff_exists_nonempty]
    rintro ⟨S, hS, hne⟩
    cases S with
    | nil => simp at hS
    | cons x S =>
      obtain ⟨hx, hxn⟩ := hne x (by simp)
      cases x with
      | nil => exact absurd rfl hxn
      | cons b u =>
        simp only [List.flatten_cons, List.cons_append, List.cons.injEq] at hS
        obtain ⟨rfl, rfl⟩ := hS
        exact ⟨u, S.flatten, hx,
          Language.mem_kstar.2 ⟨S, rfl, fun y hy => (hne y (by simp [hy])).1⟩, rfl⟩
  · rintro ⟨u, v, hu, hv, rfl⟩
    obtain ⟨S, rfl, hS⟩ := Language.mem_kstar.1 hv
    refine Language.mem_kstar.2 ⟨(a :: u) :: S, by simp, ?_⟩
    intro y hy
    rcases List.mem_cons.1 hy with rfl | hy
    · exact hu
    · exact hS y hy

theorem mem_lang_deriv (a : α) (r : Pattern α) (w : List α) :
    w ∈ (r.deriv a).lang ↔ a :: w ∈ r.lang := by
  induction r generalizing w with
  | fail => simp [deriv, lang, Language.notMem_zero]
  | empty => simp [deriv, lang, Language.notMem_zero, Language.mem_one]
  | cls p =>
    by_cases h : p a = true
    · simp [deriv, h, lang, Language.mem_one, mem_clsLang]
    · simp [deriv, h, lang, Language.notMem_zero, mem_clsLang]
  | seq r s ihr ihs =>
    have hrs : w ∈ (seq' (r.deriv a) s).lang ↔ ∃ u v, a :: u ∈ r.lang ∧ v ∈ s.lang ∧ u ++ v = w := by
      rw [lang_seq', Language.mem_mul]
      refine ⟨fun hw => ?_, fun hw => ?_⟩
      · obtain ⟨u, hu, v, hv, rfl⟩ := hw
        exact ⟨u, v, (ihr u).1 hu, hv, rfl⟩
      · obtain ⟨u, v, hu, hv, rfl⟩ := hw
        exact ⟨u, (ihr u).2 hu, v, hv, rfl⟩
    rw [lang, cons_mem_mul, deriv, ← nullable_iff]
    by_cases hn : r.nullable = true
    · simp only [hn, if_true, lang_alt', Language.mem_add, hrs, ihs, true_and]
    · simp only [hn, Bool.false_eq_true, if_false, hrs, false_and, or_false]
  | alt r s ihr ihs => rw [lang, deriv, lang_alt', Language.mem_add, Language.mem_add, ihr, ihs]
  | star r ih =>
    rw [lang, deriv, lang_seq', lang, cons_mem_kstar, Language.mem_mul]
    refine ⟨fun hm => ?_, fun hm => ?_⟩
    · obtain ⟨u, hu, v, hv, rfl⟩ := hm
      exact ⟨u, v, (ih u).1 hu, hv, rfl⟩
    · obtain ⟨u, v, hu, hv, rfl⟩ := hm
      exact ⟨u, (ih u).2 hu, v, hv, rfl⟩

theorem longest_eq_none (r : Pattern α) (s : List α) :
    r.longest s = none ↔ ∀ n ≤ s.length, s.take n ∉ r.lang := by
  induction s generalizing r with
  | nil => simp [longest, nullable_iff]
  | cons a s ih =>
    have hsplit : (∀ n ≤ (a :: s).length, (a :: s).take n ∉ r.lang) ↔
        [] ∉ r.lang ∧ ∀ n ≤ s.length, s.take n ∉ (r.deriv a).lang := by
      refine ⟨fun h => ?_, fun hw n hn => ?_⟩
      · refine ⟨by simpa using h 0 (by simp), fun n hn => ?_⟩
        rw [mem_lang_deriv]
        simpa using h (n + 1) (by simpa using hn)
      · obtain ⟨h0, h⟩ := hw
        cases n with
        | zero => simpa using h0
        | succ n => simpa [mem_lang_deriv] using h n (by simpa using hn)
    rw [hsplit, ← ih, ← nullable_iff, longest]
    cases (r.deriv a).longest s <;> simp

theorem take_succ_mem (r : Pattern α) (a : α) (s : List α) (n : ℕ) :
    (a :: s).take (n + 1) ∈ r.lang ↔ s.take n ∈ (r.deriv a).lang := by
  rw [List.take_succ_cons, mem_lang_deriv]

theorem longest_sound {r : Pattern α} {s : List α} {n : ℕ} (h : r.longest s = some n) :
    n ≤ s.length ∧ s.take n ∈ r.lang ∧ ∀ m ≤ s.length, n < m → s.take m ∉ r.lang := by
  induction s generalizing r n with
  | nil =>
    rw [longest] at h
    split_ifs at h with hn
    obtain rfl : 0 = n := by simpa using h
    exact ⟨le_rfl, (nullable_iff r).1 hn, fun m hm hlt => absurd hlt (by simpa using hm)⟩
  | cons a s ih =>
    rw [longest] at h
    cases hd : (r.deriv a).longest s with
    | some k =>
      rw [hd] at h
      obtain rfl : k + 1 = n := by simpa using h
      obtain ⟨hk, hm, hmax⟩ := ih hd
      refine ⟨by simpa using hk, (take_succ_mem r a s k).2 hm, fun m hml hlt => ?_⟩
      cases m with
      | zero => omega
      | succ m =>
        rw [take_succ_mem]
        exact hmax m (by simpa using hml) (by omega)
    | none =>
      have hnone := (longest_eq_none _ _).1 hd
      rw [hd] at h
      dsimp only at h
      split_ifs at h with hn
      obtain rfl : 0 = n := by simpa using h
      refine ⟨Nat.zero_le _, (nullable_iff r).1 hn, fun m hml hlt => ?_⟩
      cases m with
      | zero => omega
      | succ m =>
        rw [take_succ_mem]
        exact hnone m (by simpa using hml)

/-- The longest match is a match, and no longer prefix is one. -/
theorem longest_eq_some (r : Pattern α) (s : List α) (n : ℕ) :
    r.longest s = some n ↔ n ≤ s.length ∧ s.take n ∈ r.lang ∧
      ∀ m ≤ s.length, n < m → s.take m ∉ r.lang := by
  refine ⟨longest_sound, fun h => ?_⟩
  obtain ⟨hn, hin, hmax⟩ := h
  cases hl : r.longest s with
  | none => exact absurd hin ((longest_eq_none r s).1 hl n hn)
  | some k =>
    obtain ⟨hk, hkin, hkmax⟩ := longest_sound hl
    have h1 : ¬ n < k := fun hlt => hmax k hk hlt hkin
    have h2 : ¬ k < n := fun hlt => hkmax n hn hlt hin
    rw [Option.some.injEq]
    omega

/-- A longest match is one in every prefix that holds it. -/
theorem longest_take {r : Pattern α} {s : List α} {m : ℕ}
    (h : ∀ n, r.longest s = some n → n ≤ m) : r.longest (s.take m) = r.longest s := by
  cases hl : r.longest s with
  | none =>
    refine (longest_eq_none _ _).2 fun n hn => ?_
    rw [List.length_take, le_min_iff] at hn
    rw [List.take_take, min_eq_left hn.1]
    exact (longest_eq_none _ _).1 hl n hn.2
  | some n =>
    obtain ⟨hn, hmem, hmax⟩ := longest_sound hl
    have hnm := h n hl
    refine (longest_eq_some _ _ _).2 ⟨?_, ?_, fun k hk hlt => ?_⟩
    · rw [List.length_take]
      omega
    · rwa [List.take_take, min_eq_left hnm]
    · rw [List.length_take, le_min_iff] at hk
      rw [List.take_take, min_eq_left hk.1]
      exact hmax k hk.2 hlt

theorem mem_lang_of_longest {r : Pattern α} {s : List α} (h : r.longest s = some s.length) :
    s ∈ r.lang := by
  obtain ⟨-, hmem, -⟩ := longest_sound h
  rwa [List.take_length] at hmem

end Pattern
end Flex
