import Mathlib
import ACENetwork.Library.Pattern

/-! Rule selection of a generated scanner. The rules that are active in a start condition
compete for the input: the longest match wins, and the earlier rule on a tie. -/

namespace Flex

variable {C α N : Type}

namespace Pattern

def any : Pattern α := cls fun _ => true

def exactly (p : α → Bool) : ℕ → Pattern α
  | 0 => empty
  | n + 1 => seq (cls p) (exactly p n)

def plus (p : α → Bool) : Pattern α := seq (cls p) (star (cls p))

def literal [DecidableEq α] : List α → Pattern α
  | [] => empty
  | a :: w => seq (cls fun b => decide (b = a)) (literal w)

theorem mem_lang_any (w : List α) : w ∈ (any : Pattern α).lang ↔ w.length = 1 := by
  rw [any, lang, mem_clsLang, List.length_eq_one_iff]
  simp

theorem mem_lang_cls (p : α → Bool) (w : List α) :
    w ∈ (cls p).lang ↔ ∃ a, p a = true ∧ w = [a] := mem_clsLang p w

theorem mem_lang_exactly (p : α → Bool) (n : ℕ) (w : List α) :
    w ∈ (exactly p n).lang ↔ w.length = n ∧ ∀ a ∈ w, p a = true := by
  induction n generalizing w with
  | zero =>
    rw [exactly, lang, Language.mem_one, List.length_eq_zero_iff]
    constructor
    · rintro rfl
      simp
    · exact And.left
  | succ n ih =>
    rw [exactly, lang, Language.mem_mul]
    refine ⟨fun h => ?_, fun h => ?_⟩
    · obtain ⟨u, hu, v, hv, rfl⟩ := h
      obtain ⟨a, ha, rfl⟩ := (mem_lang_cls p u).1 hu
      obtain ⟨hlen, hall⟩ := (ih v).1 hv
      refine ⟨by simp [hlen], ?_⟩
      rintro b hb
      rcases List.mem_cons.1 hb with rfl | hb
      · exact ha
      · exact hall b hb
    · obtain ⟨hlen, hall⟩ := h
      obtain ⟨a, v, rfl⟩ : ∃ a v, w = a :: v := List.exists_cons_of_length_eq_add_one hlen
      refine ⟨[a], (mem_lang_cls p _).2 ⟨a, hall a List.mem_cons_self, rfl⟩, v, (ih v).2 ⟨?_, ?_⟩, rfl⟩
      · simpa using hlen
      · exact fun b hb => hall b (List.mem_cons_of_mem a hb)

theorem mem_lang_star_cls (p : α → Bool) (w : List α) :
    w ∈ (star (cls p)).lang ↔ ∀ a ∈ w, p a = true := by
  rw [lang, Language.mem_kstar]
  refine ⟨fun hw a ha => ?_, fun h => ?_⟩
  · obtain ⟨S, rfl, hS⟩ := hw
    obtain ⟨u, hu, hau⟩ := List.mem_flatten.1 ha
    obtain ⟨b, hb, rfl⟩ := (mem_lang_cls p u).1 (hS u hu)
    rwa [List.mem_singleton.1 hau]
  · refine ⟨w.map fun a => [a], ?_, ?_⟩
    · induction w with
      | nil => rfl
      | cons a w ih =>
        rw [List.map_cons, List.flatten_cons, ← ih fun b hb => h b (List.mem_cons_of_mem a hb)]
        rfl
    · intro u hu
      obtain ⟨a, ha, rfl⟩ := List.mem_map.1 hu
      exact (mem_lang_cls p _).2 ⟨a, h a ha, rfl⟩

theorem mem_lang_plus (p : α → Bool) (w : List α) :
    w ∈ (plus p).lang ↔ w ≠ [] ∧ ∀ a ∈ w, p a = true := by
  rw [plus, lang, Language.mem_mul]
  refine ⟨fun h => ?_, fun h => ?_⟩
  · obtain ⟨u, hu, v, hv, rfl⟩ := h
    obtain ⟨a, ha, rfl⟩ := (mem_lang_cls p u).1 hu
    refine ⟨by simp, fun b hb => ?_⟩
    rcases List.mem_cons.1 hb with rfl | hb
    · exact ha
    · exact (mem_lang_star_cls p v).1 hv b hb
  · obtain ⟨hne, hall⟩ := h
    obtain ⟨a, v, rfl⟩ := List.exists_cons_of_ne_nil hne
    refine ⟨[a], (mem_lang_cls p _).2 ⟨a, hall a List.mem_cons_self, rfl⟩, v, ?_, rfl⟩
    exact (mem_lang_star_cls p v).2 fun b hb => hall b (List.mem_cons_of_mem a hb)

theorem mem_lang_seq_star (p q : α → Bool) (w : List α) :
    w ∈ (seq (cls p) (star (cls q))).lang ↔ ∃ a v, w = a :: v ∧ p a = true ∧ ∀ b ∈ v, q b = true := by
  rw [lang, Language.mem_mul]
  refine ⟨fun h => ?_, fun h => ?_⟩
  · obtain ⟨u, hu, v, hv, rfl⟩ := h
    obtain ⟨a, ha, rfl⟩ := (mem_lang_cls p u).1 hu
    exact ⟨a, v, rfl, ha, (mem_lang_star_cls q v).1 hv⟩
  · obtain ⟨a, v, rfl, ha, hv⟩ := h
    exact ⟨[a], (mem_lang_cls p _).2 ⟨a, ha, rfl⟩, v, (mem_lang_star_cls q v).2 hv, rfl⟩

theorem mem_lang_literal [DecidableEq α] (w v : List α) : v ∈ (literal w).lang ↔ v = w := by
  induction w generalizing v with
  | nil => rw [literal, lang, Language.mem_one]
  | cons a w ih =>
    rw [literal, lang, Language.mem_mul]
    refine ⟨fun h => ?_, fun h => ?_⟩
    · obtain ⟨u, hu, x, hx, rfl⟩ := h
      obtain ⟨b, hb, rfl⟩ := (mem_lang_cls _ u).1 hu
      obtain rfl := of_decide_eq_true hb
      rw [(ih x).1 hx]
      rfl
    · subst h
      exact ⟨[a], (mem_lang_cls _ _).2 ⟨a, decide_eq_true rfl, rfl⟩, w, (ih w).2 rfl, rfl⟩

/-- A pattern whose words all have one length matches that many symbols or nothing. -/
theorem longest_of_length {r : Pattern α} {s : List α} {n : ℕ}
    (hlen : ∀ w ∈ r.lang, w.length = n) (hn : n ≤ s.length) (hm : s.take n ∈ r.lang) :
    r.longest s = some n := by
  refine (longest_eq_some r s n).2 ⟨hn, hm, fun m hms hlt hmem => ?_⟩
  have := hlen _ hmem
  rw [List.length_take] at this
  omega

theorem longest_none_of_length {r : Pattern α} {s : List α} {n : ℕ}
    (hlen : ∀ w ∈ r.lang, w.length = n) (h : n ≤ s.length → s.take n ∉ r.lang) :
    r.longest s = none := by
  refine (longest_eq_none r s).2 fun m hms hmem => ?_
  have hmn : m = n := by
    have := hlen _ hmem
    rw [List.length_take] at this
    omega
  exact h (hmn ▸ hms) (hmn ▸ hmem)

theorem longest_any (s : List α) :
    (any : Pattern α).longest s = if s = [] then none else some 1 := by
  have hlen : ∀ w ∈ (any : Pattern α).lang, w.length = 1 := fun w hw => (mem_lang_any w).1 hw
  cases s with
  | nil => exact longest_none_of_length hlen (by simp)
  | cons a s =>
    rw [if_neg (by simp)]
    exact longest_of_length hlen (by simp) ((mem_lang_any _).2 (by simp))

theorem longest_exactly (p : α → Bool) (n : ℕ) (s : List α) :
    (exactly p n).longest s =
      if n ≤ s.length ∧ ∀ a ∈ s.take n, p a = true then some n else none := by
  have hlen : ∀ w ∈ (exactly p n).lang, w.length = n := fun w hw => ((mem_lang_exactly p n w).1 hw).1
  split_ifs with h
  · exact longest_of_length hlen h.1 ((mem_lang_exactly p n _).2 ⟨by simp [h.1], h.2⟩)
  · refine longest_none_of_length hlen fun hn hm => h ⟨hn, ((mem_lang_exactly p n _).1 hm).2⟩

/-- A word of a pattern is the longest match in front of a symbol that no word contains. -/
theorem longest_append {r : Pattern α} {w s : List α} {p : α → Bool}
    (honly : ∀ v ∈ r.lang, ∀ a ∈ v, p a = true) (hw : w ∈ r.lang)
    (hs : ∀ a ∈ s.head?, p a = false) : r.longest (w ++ s) = some w.length := by
  refine (longest_eq_some r _ _).2 ⟨by simp, by simpa using hw, fun m hm hlt hmem => ?_⟩
  cases s with
  | nil => simp at hm; omega
  | cons a s =>
    have ha : a ∈ (w ++ a :: s).take m := by
      rw [List.take_append, List.mem_append]
      right
      obtain ⟨k, hk⟩ : ∃ k, m - w.length = k + 1 := ⟨m - w.length - 1, by omega⟩
      rw [hk, List.take_succ_cons]
      exact List.mem_cons_self
    have h1 := honly _ hmem a ha
    have h2 := hs a rfl
    rw [h1] at h2
    exact Bool.noConfusion h2

theorem longest_plus {p : α → Bool} {w s : List α} (hne : w ≠ []) (hw : ∀ a ∈ w, p a = true)
    (hs : ∀ a ∈ s.head?, p a = false) : (plus p).longest (w ++ s) = some w.length :=
  longest_append (fun v hv => ((mem_lang_plus p v).1 hv).2) ((mem_lang_plus p w).2 ⟨hne, hw⟩) hs

theorem longest_star {p : α → Bool} {w s : List α} (hw : ∀ a ∈ w, p a = true)
    (hs : ∀ a ∈ s.head?, p a = false) : (star (cls p)).longest (w ++ s) = some w.length :=
  longest_append (fun v hv => (mem_lang_star_cls p v).1 hv) ((mem_lang_star_cls p w).2 hw) hs

theorem longest_literal [DecidableEq α] (w s : List α) :
    (literal w).longest (w ++ s) = some w.length :=
  longest_of_length (fun v hv => by rw [(mem_lang_literal w v).1 hv]) (by simp)
    (by simp [mem_lang_literal])

def avoids (a : α) : Pattern α → Bool
  | fail | empty => true
  | cls p => !p a
  | seq r s | alt r s => r.avoids a && s.avoids a
  | star r => r.avoids a

theorem notMem_of_avoids {a : α} {r : Pattern α} (h : r.avoids a = true) {w : List α}
    (hw : w ∈ r.lang) : a ∉ w := by
  induction r generalizing w with
  | fail => exact absurd hw (Language.notMem_zero w)
  | empty =>
    rw [lang, Language.mem_one] at hw
    simp [hw]
  | cls p =>
    obtain ⟨b, hb, rfl⟩ := (mem_lang_cls p w).1 hw
    rw [List.mem_singleton]
    rintro rfl
    simp [avoids, hb] at h
  | seq r s ihr ihs =>
    rw [avoids, Bool.and_eq_true] at h
    rw [lang, Language.mem_mul] at hw
    obtain ⟨u, hu, v, hv, rfl⟩ := hw
    rw [List.mem_append, not_or]
    exact ⟨ihr h.1 hu, ihs h.2 hv⟩
  | alt r s ihr ihs =>
    rw [avoids, Bool.and_eq_true] at h
    rw [lang, Language.mem_add] at hw
    exact hw.elim (ihr h.1) (ihs h.2)
  | star r ih =>
    rw [lang, Language.mem_kstar] at hw
    obtain ⟨S, rfl, hS⟩ := hw
    rw [List.mem_flatten]
    rintro ⟨u, hu, ha⟩
    exact ih h (hS u hu) ha

/-- The part of a word in front of the first occurrence of a symbol is unique. -/
theorem append_cons_cancel {a : α} {w w' s s' : List α} (hw : a ∉ w) (hw' : a ∉ w')
    (h : w ++ a :: s = w' ++ a :: s') : w = w' ∧ s = s' := by
  induction w generalizing w' with
  | nil =>
    cases w' with
    | nil => exact ⟨rfl, (List.cons.inj h).2⟩
    | cons b w' =>
      obtain ⟨rfl, -⟩ := List.cons.inj h
      exact absurd List.mem_cons_self hw'
  | cons b w ih =>
    cases w' with
    | nil =>
      obtain ⟨rfl, -⟩ := List.cons.inj h
      exact absurd List.mem_cons_self hw
    | cons b' w' =>
      obtain ⟨rfl, htail⟩ := List.cons.inj h
      obtain ⟨rfl, rfl⟩ := ih (fun ha => hw (List.mem_cons_of_mem _ ha))
        (fun ha => hw' (List.mem_cons_of_mem _ ha)) htail
      exact ⟨rfl, rfl⟩

theorem mem_lang_ended [DecidableEq α] (r : Pattern α) (e v : List α) :
    v ∈ (seq r (literal e)).lang ↔ ∃ w ∈ r.lang, v = w ++ e := by
  rw [lang, Language.mem_mul]
  refine ⟨fun h => ?_, fun h => ?_⟩
  · obtain ⟨w, hw, u, hu, rfl⟩ := h
    exact ⟨w, hw, by rw [(mem_lang_literal e u).1 hu]⟩
  · obtain ⟨w, hw, rfl⟩ := h
    exact ⟨w, hw, e, (mem_lang_literal e e).2 rfl, rfl⟩

/-- A pattern that is ended by what its words cannot contain matches up to the first end. -/
theorem longest_ended [DecidableEq α] {r : Pattern α} {a : α} {e w : List α} (s : List α)
    (hr : r.avoids a = true) (hw : w ∈ r.lang) :
    (seq r (literal (a :: e))).longest (w ++ (a :: e ++ s)) = some (w.length + (e.length + 1)) := by
  refine (longest_eq_some _ _ _).2 ⟨by simp, ?_, fun m hm hlt hmem => ?_⟩
  · rw [mem_lang_ended]
    refine ⟨w, hw, ?_⟩
    rw [← List.append_assoc, List.take_left' (by simp)]
  · obtain ⟨w', hw', h⟩ := (mem_lang_ended r _ _).1 hmem
    have hlen := congrArg List.length h
    have hsplit := List.take_append_drop m (w ++ (a :: e ++ s))
    rw [h, List.append_assoc] at hsplit
    obtain ⟨rfl, -⟩ := append_cons_cancel (notMem_of_avoids hr hw) (notMem_of_avoids hr hw') hsplit.symm
    rw [List.length_take, min_eq_left hm, List.length_append, List.length_cons] at hlen
    omega

/-- In every word of the pattern, the first `a` is behind a `b`. -/
def Guarded (a b : α) (r : Pattern α) : Prop := ∀ w ∈ r.lang, ∀ u v, w = u ++ a :: v → b ∈ u

theorem guarded_of_avoids {a : α} (b : α) {r : Pattern α} (h : r.avoids a = true) : r.Guarded a b := by
  rintro w hw u v rfl
  exact absurd (List.mem_append_right _ List.mem_cons_self) (notMem_of_avoids h hw)

theorem guarded_literal [DecidableEq α] {a b : α} (hab : a ≠ b) (r : Pattern α) :
    (seq (literal [b]) r).Guarded a b := by
  intro w hw u v huv
  rw [lang, Language.mem_mul] at hw
  obtain ⟨x, hx, y, -, rfl⟩ := hw
  obtain rfl := (mem_lang_literal [b] x).1 hx
  cases u with
  | nil => exact absurd (List.cons.inj huv).1.symm hab
  | cons c u =>
    obtain ⟨rfl, -⟩ := List.cons.inj huv
    exact List.mem_cons_self

theorem Guarded.seq {a b : α} {r s : Pattern α} (hr : r.Guarded a b) (hs : s.Guarded a b) :
    (seq r s).Guarded a b := by
  intro w hw u v huv
  rw [lang, Language.mem_mul] at hw
  obtain ⟨x, hx, y, hy, rfl⟩ := hw
  rcases List.append_eq_append_iff.1 huv with ⟨z, rfl, hz⟩ | ⟨z, rfl, hz⟩
  · exact List.mem_append_right _ (hs y hy z v hz)
  · cases z with
    | nil => exact absurd (hs y hy [] v hz.symm) List.not_mem_nil
    | cons c z =>
      obtain ⟨rfl, -⟩ := List.cons.inj hz
      exact hr _ hx u z rfl

theorem Guarded.alt {a b : α} {r s : Pattern α} (hr : r.Guarded a b) (hs : s.Guarded a b) :
    (alt r s).Guarded a b := by
  intro w hw
  rw [lang, Language.mem_add] at hw
  exact hw.elim (hr w) (hs w)

theorem Guarded.star {a b : α} {r : Pattern α} (hr : r.Guarded a b) : (star r).Guarded a b := by
  intro w hw u v huv
  rw [lang, Language.mem_kstar] at hw
  obtain ⟨S, rfl, hS⟩ := hw
  induction S generalizing u with
  | nil => exact absurd (congrArg List.length huv) (by simp)
  | cons x S ih =>
    have hx : x ∈ r.lang := hS x List.mem_cons_self
    have hS' : ∀ y ∈ S, y ∈ r.lang := fun y hy => hS y (List.mem_cons_of_mem x hy)
    rw [List.flatten_cons] at huv
    rcases List.append_eq_append_iff.1 huv with ⟨z, rfl, hz⟩ | ⟨z, rfl, hz⟩
    · exact List.mem_append_right _ (ih z hS' hz)
    · cases z with
      | nil => exact absurd (ih [] hS' hz.symm) List.not_mem_nil
      | cons c z =>
        obtain ⟨rfl, -⟩ := List.cons.inj hz
        exact hr _ hx u z rfl

/-- A match that is ended by `a` goes no further than the first one, when there is no `b` in front
of it. -/
theorem length_of_guarded [DecidableEq α] {r : Pattern α} {a b : α} {e w s : List α} {n : ℕ}
    (hr : r.Guarded a b) (hb : b ∉ w)
    (hn : (seq r (literal (a :: e))).longest (w ++ (a :: e ++ s)) = some n) :
    n ≤ w.length + (e.length + 1) := by
  obtain ⟨hle, hmem, -⟩ := longest_sound hn
  obtain ⟨x, hx, htake⟩ := (mem_lang_ended r _ _).1 hmem
  have hlen := congrArg List.length htake
  rw [List.length_take, min_eq_left hle, List.length_append, List.length_cons] at hlen
  have hsplit := List.take_append_drop n (w ++ (a :: e ++ s))
  rw [htake, List.append_assoc] at hsplit
  by_contra hlt
  rcases List.append_eq_append_iff.1 hsplit with ⟨z, hz, -⟩ | ⟨z, hz, hz'⟩
  · have := congrArg List.length hz
    rw [List.length_append] at this
    omega
  · cases z with
    | nil =>
      rw [hz, List.append_nil] at hlen
      omega
    | cons c z =>
      obtain ⟨rfl, -⟩ := List.cons.inj hz'
      exact hb (hr x hx w z hz)

theorem exists_longest {r : Pattern α} {w : List α} (s : List α) (hw : w ∈ r.lang) :
    ∃ n, r.longest (w ++ s) = some n ∧ w.length ≤ n := by
  cases h : r.longest (w ++ s) with
  | none => exact absurd (by simpa using hw) ((longest_eq_none _ _).1 h w.length (by simp))
  | some n =>
    obtain ⟨-, -, hmax⟩ := longest_sound h
    refine ⟨n, rfl, not_lt.1 fun hlt => hmax w.length (by simp) hlt ?_⟩
    simpa using hw

def isFail : Pattern α → Bool
  | fail => true
  | _ => false

/-- The pattern has the empty word, or it may have a word that starts with the symbol. -/
def begins (r : Pattern α) (a : α) : Bool := r.nullable || !(r.deriv a).isFail

theorem longest_fail (s : List α) : (fail : Pattern α).longest s = none := by
  induction s with
  | nil => rfl
  | cons a s ih => simp [longest, deriv, ih, nullable]

theorem longest_of_not_begins {r : Pattern α} {a : α} (h : r.begins a = false) (s : List α) :
    r.longest (a :: s) = none := by
  obtain ⟨hn, hd⟩ : r.nullable = false ∧ (r.deriv a).isFail = true := by simpa [begins] using h
  have hfail : r.deriv a = fail := by
    cases hr : r.deriv a with
    | fail => rfl
    | _ => rw [hr] at hd; exact Bool.noConfusion hd
  simp [longest, hfail, longest_fail, hn]

@[simp] theorem begins_any (a : α) : (any : Pattern α).begins a = true := rfl

@[simp] theorem begins_star (r : Pattern α) (a : α) : (star r).begins a = true := rfl

@[simp] theorem begins_cls (p : α → Bool) (a : α) : (cls p).begins a = p a := by
  cases h : p a <;> simp [begins, nullable, deriv, h, isFail]

@[simp] theorem begins_seq_cls (p : α → Bool) (r : Pattern α) (a : α) (hr : r.isFail = false) :
    (seq (cls p) r).begins a = p a := by
  cases h : p a with
  | false => simp [begins, nullable, deriv, h, seq', isFail]
  | true => simp [begins, nullable, deriv, h, seq', hr]

@[simp] theorem begins_plus (p : α → Bool) (a : α) : (plus p).begins a = p a :=
  begins_seq_cls p _ a rfl

@[simp] theorem begins_exactly (p : α → Bool) (n : ℕ) (a : α) : (exactly p (n + 1)).begins a = p a :=
  begins_seq_cls p _ a (by cases n <;> rfl)

@[simp] theorem begins_literal [DecidableEq α] (b : α) (w : List α) (a : α) :
    (literal (b :: w)).begins a = decide (a = b) :=
  begins_seq_cls _ _ a (by cases w <;> rfl)

@[simp] theorem begins_alt (r s : Pattern α) (a : α) :
    (alt r s).begins a = (r.begins a || s.begins a) := by
  have h : (alt' (r.deriv a) (s.deriv a)).isFail = ((r.deriv a).isFail && (s.deriv a).isFail) := by
    cases r.deriv a <;> cases s.deriv a <;> rfl
  simp only [begins, nullable, deriv, h]
  cases r.nullable <;> cases s.nullable <;> simp

end Pattern

/-- A rule: the start conditions it is active in, its pattern and the name of its action. -/
structure Rule (C α N : Type) where
  on : C → Bool
  pattern : Pattern α
  name : N

/-- The rule that the scanner takes, and how many symbols it matches. -/
def select : List (Rule C α N) → C → List α → Option (N × ℕ)
  | [], _, _ => none
  | r :: rules, c, s =>
    match if r.on c then r.pattern.longest s else none, select rules c s with
    | none, best => best
    | some n, none => some (r.name, n)
    | some n, some (name, m) => if m ≤ n then some (r.name, n) else some (name, m)

theorem select_cons_off {r : Rule C α N} {rules : List (Rule C α N)} {c : C} {s : List α}
    (h : r.on c = false) : select (r :: rules) c s = select rules c s := by
  simp [select, h]

theorem select_cons_none {r : Rule C α N} {rules : List (Rule C α N)} {c : C} {s : List α}
    (h : r.pattern.longest s = none) : select (r :: rules) c s = select rules c s := by
  simp [select, h]

/-- A rule wins against the rules after it that match no more than it does. -/
theorem select_cons_win {r : Rule C α N} {rules : List (Rule C α N)} {c : C} {s : List α} {n : ℕ}
    (hon : r.on c = true) (hn : r.pattern.longest s = some n)
    (h : ∀ name m, select rules c s = some (name, m) → m ≤ n) :
    select (r :: rules) c s = some (r.name, n) := by
  simp only [select, hon, if_true, hn]
  cases hr : select rules c s with
  | none => rfl
  | some best => simp [h best.1 best.2 hr]

/-- What no single active rule exceeds, the selected one does not exceed. -/
theorem select_le {rules : List (Rule C α N)} {c : C} {s : List α} {b : ℕ}
    (h : ∀ r ∈ rules, r.on c = true → ∀ n, r.pattern.longest s = some n → n ≤ b)
    (name : N) (m : ℕ) (hm : select rules c s = some (name, m)) : m ≤ b := by
  induction rules generalizing name m with
  | nil => simp [select] at hm
  | cons r rules ih =>
    have ih' := ih fun r' hr' => h r' (List.mem_cons_of_mem r hr')
    have hr := h r List.mem_cons_self
    simp only [select] at hm
    split at hm
    · exact ih' name m hm
    · rename_i n hn _
      split_ifs at hn with hon
      obtain ⟨-, rfl⟩ : r.name = name ∧ n = m := by simpa using hm
      exact hr hon n hn
    · rename_i n name' m' hn hsel
      split_ifs at hn with hon
      split_ifs at hm
      · obtain ⟨-, rfl⟩ : r.name = name ∧ n = m := by simpa using hm
        exact hr hon n hn
      · obtain ⟨-, rfl⟩ : name' = name ∧ m' = m := by simpa using hm
        exact ih' name' m' hsel

theorem select_sound {rules : List (Rule C α N)} {c : C} {s : List α} {name : N} {n : ℕ}
    (h : select rules c s = some (name, n)) :
    ∃ r ∈ rules, r.on c = true ∧ r.name = name ∧ r.pattern.longest s = some n := by
  induction rules generalizing name n with
  | nil => simp [select] at h
  | cons r rules ih =>
    have hbehind : ∀ {name n}, select rules c s = some (name, n) →
        ∃ r' ∈ r :: rules, r'.on c = true ∧ r'.name = name ∧ r'.pattern.longest s = some n := by
      intro name n h
      obtain ⟨r', hr', h'⟩ := ih h
      exact ⟨r', List.mem_cons_of_mem r hr', h'⟩
    simp only [select] at h
    split at h
    · exact hbehind h
    · rename_i m hm _
      split_ifs at hm with hon
      obtain ⟨rfl, rfl⟩ : r.name = name ∧ m = n := by simpa using h
      exact ⟨r, List.mem_cons_self, hon, rfl, hm⟩
    · rename_i m name' n' hm hsel
      split_ifs at hm with hon
      split_ifs at h
      · obtain ⟨rfl, rfl⟩ : r.name = name ∧ m = n := by simpa using h
        exact ⟨r, List.mem_cons_self, hon, rfl, hm⟩
      · obtain ⟨rfl, rfl⟩ : name' = name ∧ n' = n := by simpa using h
        exact hbehind hsel

/-- The selected rule matches no less than any other active one. -/
theorem le_select {rules : List (Rule C α N)} {c : C} {s : List α} {r : Rule C α N} {m : ℕ}
    (hr : r ∈ rules) (hon : r.on c = true) (hm : r.pattern.longest s = some m) :
    ∃ name n, select rules c s = some (name, n) ∧ m ≤ n := by
  induction rules with
  | nil => simp at hr
  | cons r' rules ih =>
    rcases List.mem_cons.1 hr with rfl | hr
    · simp only [select, hon, if_true, hm]
      cases hsel : select rules c s with
      | none => exact ⟨_, _, rfl, le_rfl⟩
      | some best =>
        dsimp only
        split_ifs with hle
        · exact ⟨_, _, rfl, le_rfl⟩
        · exact ⟨_, _, rfl, by omega⟩
    · obtain ⟨name, n, hsel, hle⟩ := ih hr
      simp only [select, hsel]
      split
      · exact ⟨_, _, rfl, hle⟩
      · rename_i h
        exact absurd h (by simp)
      · rename_i k name' n' hk h
        obtain ⟨rfl, rfl⟩ : name = name' ∧ n = n' := by simpa using h
        split_ifs with hkn
        · exact ⟨_, _, rfl, by omega⟩
        · exact ⟨_, _, rfl, hle⟩

theorem select_congr {rules : List (Rule C α N)} {c : C} {s s' : List α}
    (h : ∀ r ∈ rules, r.on c = true → r.pattern.longest s = r.pattern.longest s') :
    select rules c s = select rules c s' := by
  induction rules with
  | nil => rfl
  | cons r rules ih =>
    have hrest := ih fun r' hr' => h r' (List.mem_cons_of_mem r hr')
    have hr : (if r.on c then r.pattern.longest s else none) =
        if r.on c then r.pattern.longest s' else none := by
      split_ifs with hon
      · exact h r List.mem_cons_self hon
      · rfl
    simp only [select, hr, hrest]

/-- The scanner takes the same rule with fewer symbols behind the match. -/
theorem select_take {rules : List (Rule C α N)} {c : C} {s : List α} {name : N} {n m : ℕ}
    (h : select rules c s = some (name, n)) (hm : n ≤ m) :
    select rules c (s.take m) = some (name, n) := by
  refine Eq.trans (select_congr fun r hr hon => Pattern.longest_take fun k hk => ?_) h
  obtain ⟨name', n', hsel, hle⟩ := le_select hr hon hk
  obtain ⟨-, rfl⟩ : name = name' ∧ n = n' := by simpa [h] using hsel
  exact hle.trans hm

theorem select_filter (rules : List (Rule C α N)) (c : C) (s : List α) :
    select rules c s = select (rules.filter fun r => r.on c) c s := by
  induction rules with
  | nil => rfl
  | cons r rules ih =>
    by_cases hon : r.on c = true
    · rw [List.filter_cons_of_pos (by simp [hon])]
      simp only [select, ih]
    · rw [List.filter_cons_of_neg (by simp [hon]), ← ih]
      exact select_cons_off (by simpa using hon)

/-- In a start condition with one rule, and the last one of the scanner for any single symbol, it
is the rule that matches if it can. -/
theorem select_rule {rules : List (Rule C α N)} {c : C} {r last : Rule C α N} {s : List α} {n : ℕ}
    (hc : (rules.filter fun r => r.on c) = [r, last]) (hlast : last.pattern = Pattern.any) (hn : 0 < n)
    (hr : r.pattern.longest s = some n) : select rules c s = some (r.name, n) := by
  have hon : r.on c = true := by
    have : r ∈ rules.filter fun r => r.on c := by rw [hc]; exact List.mem_cons_self
    exact (List.mem_filter.1 this).2
  rw [select_filter, hc]
  refine select_cons_win hon hr (select_le ?_)
  intro r' hr' _ m hm
  obtain rfl := List.mem_singleton.1 hr'
  rw [hlast, Pattern.longest_any] at hm
  split_ifs at hm
  obtain rfl := Option.some.inj hm
  exact hn

/-- The active rules that can match at all in front of a symbol. -/
def candidates (rules : List (Rule C α N)) (c : C) (a : α) : List (Rule C α N) :=
  rules.filter fun r => r.on c && r.pattern.begins a

theorem select_candidates (rules : List (Rule C α N)) (c : C) (a : α) (s : List α) :
    select rules c (a :: s) = select (candidates rules c a) c (a :: s) := by
  induction rules with
  | nil => rfl
  | cons r rules ih =>
    unfold candidates at ih ⊢
    by_cases hon : r.on c = true
    · by_cases hb : r.pattern.begins a = true
      · rw [List.filter_cons_of_pos (by simp [hon, hb])]
        simp only [select, ih]
      · rw [List.filter_cons_of_neg (by simp [hb]), ← ih]
        exact select_cons_none (Pattern.longest_of_not_begins (by simpa using hb) s)
    · rw [List.filter_cons_of_neg (by simp [hon]), ← ih]
      exact select_cons_off (by simpa using hon)

/-- Among rules that can match in front of a symbol, the first one wins if the others are for any
single symbol. -/
theorem select_over_any {rules others : List (Rule C α N)} {c : C} {r : Rule C α N} {a : α}
    {s : List α} {n : ℕ} (hc : candidates rules c a = r :: others)
    (hothers : ∀ r' ∈ others, r'.pattern = Pattern.any) (hr : r.pattern.longest (a :: s) = some n)
    (hn : 0 < n) : select rules c (a :: s) = some (r.name, n) := by
  have hon : r.on c = true := by
    have hmem : r ∈ candidates rules c a := by rw [hc]; exact List.mem_cons_self
    unfold candidates at hmem
    have := (List.mem_filter.1 hmem).2
    rw [Bool.and_eq_true] at this
    exact this.1
  rw [select_candidates, hc]
  refine select_cons_win hon hr (select_le ?_)
  intro r' hr' _ m hm
  rw [hothers r' hr', Pattern.longest_any, if_neg (by simp)] at hm
  obtain rfl := Option.some.inj hm
  exact hn

/-- A word that no other rule than the last one of the scanner, for any single symbol, can
match a part of. -/
theorem select_word {rules : List (Rule C α N)} {c : C} {r last : Rule C α N} {w s : List α}
    (hc : ∀ a ∈ w.head?, candidates rules c a = [r, last]) (hw : w ≠ []) (hon : r.on c = true)
    (hlast : last.pattern = Pattern.any) (hr : r.pattern.longest (w ++ s) = some w.length) :
    select rules c (w ++ s) = some (r.name, w.length) := by
  obtain ⟨a, w, rfl⟩ := List.exists_cons_of_ne_nil hw
  rw [List.cons_append, select_candidates, hc a rfl]
  refine select_cons_win hon hr (select_le ?_)
  intro r' hr' _ n hn
  obtain rfl := List.mem_singleton.1 hr'
  rw [hlast, Pattern.longest_any, if_neg (by simp)] at hn
  obtain rfl := Option.some.inj hn
  simp

end Flex
