import Mathlib
import ACENetwork.Proofs.Dhcp.Header
import ACENetwork.Proofs.Dhcp.Dump

/-! What becomes of a datagram, whatever it contains: the parse of its fixed fields and the
walk over its options together decide how `parse` ends. From this follow the inputs on
which the program goes on, and those on which it tests the magic cookie. -/

namespace ACENetwork.Dhcp

open Std ByteOrder Flex Bison Parser

theorem fieldsSafe_iff (tail : List UInt8 → Prop) (fields : List (ℕ × Bool)) (b : List UInt8) :
    FieldsSafe tail fields b ↔ FieldsSafe (fun _ => False) fields b ∨
      FieldsPresent fields b ∧ tail (b.drop (fields.map Prod.fst).sum) := by
  induction fields generalizing b with
  | nil => simp [FieldsSafe, FieldsPresent]
  | cons f fields ih =>
    simp only [FieldsSafe, FieldsPresent, List.map_cons, List.sum_cons, ih (b.drop f.1), List.drop_drop]
    generalize (f.2 = true → ∃ a ∈ b.take f.1, a ≠ 0) = required
    tauto

theorem fieldsSafe_append (tail : List UInt8 → Prop) (fs gs : List (ℕ × Bool)) (b : List UInt8) :
    FieldsSafe tail (fs ++ gs) b ↔ FieldsSafe (FieldsSafe tail gs) fs b := by
  induction fs generalizing b with
  | nil => rfl
  | cons f fs ih => simp only [List.cons_append, FieldsSafe, ih]

theorem fieldsPresent_append (fs gs : List (ℕ × Bool)) (b : List UInt8) :
    FieldsPresent (fs ++ gs) b ↔
      FieldsPresent fs b ∧ FieldsPresent gs (b.drop (fs.map Prod.fst).sum) := by
  induction fs generalizing b with
  | nil => simp [FieldsPresent]
  | cons f fs ih =>
    simp only [List.cons_append, FieldsPresent, ih, List.map_cons, List.sum_cons, List.drop_drop,
      and_assoc]

theorem fieldsPresent_not_safe (fields : List (ℕ × Bool)) (hw : ∀ f ∈ fields, 0 < f.1)
    (b : List UInt8) (h : FieldsPresent fields b) : ¬ FieldsSafe (fun _ => False) fields b := by
  induction fields generalizing b with
  | nil => exact id
  | cons f fields ih =>
    obtain ⟨hlen, -, hrest⟩ := h
    rintro (hb | ⟨-, -, hs⟩)
    · have := hw f List.mem_cons_self
      rw [hb, List.length_nil] at hlen
      omega
    · exact ih (fun g hg => hw g (List.mem_cons_of_mem f hg)) _ hrest hs

theorem headerStarts_spec_width : ((headerStarts.map Start.spec).map Prod.fst).sum = 236 := rfl

/-- How a datagram is parsed whose fixed fields are all there, but for the report. -/
def presentParsed (e : Endian) (b : List UInt8) : Parsed :=
  optionsParsed (field e (cookieOctets b)) (headerRecord e {} (split headerWidths b))
    (walk 0 (optionOctets b))

theorem yyparses_cases (e : Endian) (b : List UInt8) :
    (FieldsPresent layout b ∧ ∀ x, Yyparses e b x ↔ x = presentParsed e b) ∨
    (¬ FieldsPresent layout b ∧ FieldsSafe (fun _ => False) layout b ∧
      ∃ record, record.options = ∅ ∧ ∀ x, Yyparses e b x ↔ x = .returned false record) ∨
    (¬ FieldsPresent layout b ∧ ¬ FieldsSafe (fun _ => False) layout b ∧
      ∃ f, f ≠ .magicCookie ∧ ∀ x, Yyparses e b x ↔ x = .fault f) := by
  have hstart : ∀ x, Yyparses e b x ↔ Ends e ⟨[], .empty, ⟨.op, b, b, {}⟩⟩ x := fun x => ends_start
  simp only [layout_eq, fieldsPresent_append, fieldsSafe_append, headerStarts_spec_width]
  obtain ⟨hp, hx⟩ | ⟨hp, hs, hx⟩ | ⟨hp, hs, f, hf, hx⟩ :=
    ends_fields (e := e) headerStarts [] {} b linked_headerStarts (by decide)
  · obtain ⟨v, hv⟩ := ends_header (e := e) b
      (s := ⟨.cookie, b.drop 236, b.drop 236, {}⟩)
    have hcookie := fun x => (hstart x).trans ((hx x).trans (hv x))
    obtain ⟨hp', hx'⟩ | ⟨hp', hs', hx'⟩ | ⟨hp', hs', f, hf, hx'⟩ :=
      ends_fields (e := e) [.cookie] [(3, .ival v)] (headerRecord e {} (split headerWidths b))
        (b.drop 236) ⟨rfl, Or.inr rfl, rfl, trivial⟩ (by simp [maxDepth])
    · refine Or.inl ⟨⟨hp, hp'⟩, fun x => (hcookie x).trans ((hx' x).trans ?_)⟩
      have hopts := ends_options (e := e) (x := x) v (field e (cookieOctets b))
        0 (optionOctets b) [] (headerRecord e {} (split headerWidths b)) rfl
      simpa [pushed, Start.target, Start.value, optionStack, finish, Start.next, Start.octets,
        split, optionOctets, cookieOctets, presentParsed] using hopts
    · refine Or.inr (Or.inl ⟨fun h => hp' h.2, ?_, _, rfl, fun x => (hcookie x).trans (hx' x)⟩)
      rw [fieldsSafe_iff]
      exact Or.inr ⟨hp, hs'⟩
    · refine Or.inr (Or.inr ⟨fun h => hp' h.2, ?_, f, hf, fun x => (hcookie x).trans (hx' x)⟩)
      rw [fieldsSafe_iff]
      rintro (hs | ⟨-, hs⟩)
      · exact fieldsPresent_not_safe _ (by decide) b hp hs
      · exact hs' hs
  · refine Or.inr (Or.inl ⟨fun h => hp h.1, ?_, {}, rfl, fun x => (hstart x).trans (hx x)⟩)
    rw [fieldsSafe_iff]
    exact Or.inl hs
  · refine Or.inr (Or.inr ⟨fun h => hp h.1, ?_, f, hf, fun x => (hstart x).trans (hx x)⟩)
    rw [fieldsSafe_iff]
    rintro (hs' | ⟨hp', -⟩)
    · exact hs hs'
    · exact hp hp'

theorem parsesBlock_iff {e : Endian} {isMessage : Bool} {b : List UInt8} {q : Parsed}
    (h : ∀ x, Yyparses e b x ↔ x = q) (x : Parsed) :
    ParsesBlock e isMessage b x ↔ x = q.error isMessage := by
  simp [ParsesBlock, h]

theorem parses_present {e : Endian} {b : List UInt8} (h : FieldsPresent layout b) (x : Parsed) :
    Parses e b x ↔ x = (presentParsed e b).error true := by
  obtain ⟨-, hx⟩ | ⟨hp, -⟩ | ⟨hp, -⟩ := yyparses_cases e b
  · exact parsesBlock_iff hx x
  · exact absurd h hp
  · exact absurd h hp

theorem yyparse_total (e : Endian) (b : List UInt8) : ∃ x, Yyparses e b x := by
  obtain ⟨-, hx⟩ | ⟨-, -, record, -, hx⟩ | ⟨-, -, f, -, hx⟩ := yyparses_cases e b
  · exact ⟨_, (hx _).2 rfl⟩
  · exact ⟨_, (hx _).2 rfl⟩
  · exact ⟨_, (hx _).2 rfl⟩

theorem Yyparses.unique {e : Endian} {b : List UInt8} {x y : Parsed} (hx : Yyparses e b x)
    (hy : Yyparses e b y) : x = y := by
  obtain ⟨r, hr, rfl⟩ := hx
  obtain ⟨r', hr', rfl⟩ := hy
  rw [hr.unique hr']

theorem parse_total (e : Endian) (b : List UInt8) : ∃ x, Parses e b x := by
  obtain ⟨q, hq⟩ := yyparse_total e b
  exact ⟨_, q, hq, rfl⟩

theorem Parses.unique {e : Endian} {b : List UInt8} {x y : Parsed} (hx : Parses e b x)
    (hy : Parses e b y) : x = y := by
  obtain ⟨q, hq, rfl⟩ := hx
  obtain ⟨q', hq', rfl⟩ := hy
  rw [hq.unique hq']

/-- The datagram is a message that ends between two fixed fields; or it holds all of them, no
option is longer than what is left, the cookie passes its test if no END tag is found, and if the
stack of the parser is filled, it is a message whose options can be dumped. -/
def SafeInput (e : Endian) (isMessage : Bool) (b : List UInt8) : Prop :=
  (isMessage = true ∧ FieldsSafe (fun _ => False) layout b) ∨
    (FieldsPresent layout b ∧ (walk 0 (optionOctets b)).1 ≠ .overrun ∧
      ((walk 0 (optionOctets b)).1 = .endOfData → field e (cookieOctets b) = magicCookie) ∧
      ((walk 0 (optionOctets b)).1 = .full → isMessage = true ∧ OptionsPrintable b))

theorem storeOptions_walk (b : List UInt8) (tag : UInt8) :
    (storeOptions ∅ (walk 0 (optionOctets b)).2)[tag]? = optionValue b tag := by
  rw [storeOptions_getElem?, ExtTreeMap.getElem?_empty, Option.none_or, optionValue]
  congr 2
  funext v
  by_cases h : v.1 = tag <;> simp [h]

theorem error_returned_iff (isMessage : Bool) (q : Parsed) :
    (∃ ok record, Parsed.returned ok record = q.error isMessage) ↔
      ∃ ok record, q = .returned ok record ∧
        (ok = false → isMessage = true ∧ ∃ text, Dump.dump record = .ok text) := by
  cases q with
  | fault f => simp [Parsed.error]
  | returned ok record =>
    cases ok with
    | true => simp [Parsed.error]
    | false => cases isMessage <;> cases hdump : Dump.dump record <;> simp [Parsed.error, hdump]

theorem presentParsed_returned_iff (e : Endian) (isMessage : Bool) (b : List UInt8) :
    (∃ ok record, Parsed.returned ok record = (presentParsed e b).error isMessage) ↔
      (walk 0 (optionOctets b)).1 ≠ .overrun ∧
        ((walk 0 (optionOctets b)).1 = .endOfData → field e (cookieOctets b) = magicCookie) ∧
        ((walk 0 (optionOctets b)).1 = .full → isMessage = true ∧ OptionsPrintable b) := by
  have hstored := storeOptions_walk b
  have hempty : (headerRecord e {} (split headerWidths b)).options = ∅ := rfl
  rw [error_returned_iff, presentParsed, OptionsPrintable]
  generalize headerRecord e {} (split headerWidths b) = record at hempty
  generalize walk 0 (optionOctets b) = w at hstored ⊢
  obtain ⟨ending, values⟩ := w
  cases ending with
  | endTag | overrun => simp [optionsParsed]
  | endOfData =>
    by_cases h : field e (cookieOctets b) = magicCookie <;> simp [optionsParsed, h]
  | full =>
    simp only [optionsParsed, Parsed.returned.injEq, hempty]
    simp [Dump.dump_ok_iff, hstored]

/-- The parser accepts or refuses a datagram, without a failed assertion and without a read
beyond its end, exactly when the datagram is safe. -/
theorem parse_returns_iff (e : Endian) (isMessage : Bool) (b : List UInt8) :
    (∃ ok record, ParsesBlock e isMessage b (.returned ok record)) ↔ SafeInput e isMessage b := by
  obtain ⟨hp, hx⟩ | ⟨hp, hs, record, hempty, hx⟩ | ⟨hp, hs, f, -, hx⟩ := yyparses_cases e b
  · have hns := fieldsPresent_not_safe layout (by decide) b hp
    simp only [parsesBlock_iff hx, presentParsed_returned_iff, SafeInput, hp, hns, and_false, false_or,
      true_and]
  · simp only [parsesBlock_iff hx, error_returned_iff, SafeInput, hp, hs, and_true, false_and, or_false]
    simp [Dump.dump_ok_iff, hempty]
  · simp only [parsesBlock_iff hx, SafeInput, hp, hs, and_false, false_and, or_false]
    simp [Parsed.error]

def overrunDatagram : List UInt8 := List.replicate 236 1 ++ [99, 130, 83, 99] ++ [53, 5, 1]

theorem parse_overrun :
    ¬ ∀ (e : Endian) (b : List UInt8), ∃ ok record, Parses e b (.returned ok record) := by
  intro h
  obtain ⟨ok, record, hret⟩ := h .little overrunDatagram
  have hp : FieldsPresent layout overrunDatagram := by decide +kernel
  have hw : walk 0 (optionOctets overrunDatagram) = (.overrun, []) := by
    have : optionOctets overrunDatagram = [53, 5, 1] := rfl
    rw [this, walk_value (by decide) (by decide) (by decide), if_pos (by decide)]
  rw [parses_present hp, presentParsed, hw] at hret
  simp [optionsParsed, Parsed.error] at hret

def magicOctets : List UInt8 := [99, 130, 83, 99]

/-- An accepted datagram carries the magic cookie, and so does its record; and a datagram that
carries it, with its fields and its options in order, does not fail the test of the cookie. -/
def CookieEnforced (e : Endian) (b : List UInt8) : Prop :=
  (∀ record, Parses e b (.returned true record) →
    cookieOctets b = magicOctets ∧ record.cookie = magicCookie) ∧
  (cookieOctets b = magicOctets → FieldsPresent layout b → wellFormed (optionOctets b) = true →
    ¬ Parses e b (.fault .magicCookie))

/-- The fields are complete, no END tag is found, and on a little-endian host the octets of the
cookie are not those that its test takes for the cookie by mistake, nor the right ones in
front of a list of options in order. -/
def CookieTested (e : Endian) (b : List UInt8) : Prop :=
  FieldsPresent layout b → (walk 0 (optionOctets b)).1 ≠ .endTag ∧
    (e = .little → (walk 0 (optionOctets b)).1 = .endOfData →
      cookieOctets b ≠ magicOctets.reverse ∧
      (wellFormed (optionOctets b) = true → cookieOctets b ≠ magicOctets))

theorem cookieOctets_length {b : List UInt8} (h : FieldsPresent layout b) :
    (cookieOctets b).length = 4 := by
  rw [layout_eq, fieldsPresent_append] at h
  have hlen : 4 ≤ (b.drop 236).length := h.2.1
  rw [cookieOctets, List.length_take]
  omega

theorem field_eq_magicCookie {e : Endian} {bs : List UInt8} (h : bs.length = 4) :
    field e bs = magicCookie ↔
      bs = match e with
        | .little => magicOctets.reverse
        | .big => magicOctets := by
  refine ⟨fun hf => ?_, fun hw => ?_⟩
  · cases e with
    | little => exact load32_inj (e := .little) h rfl (hf.trans (by decide))
    | big => exact load32_inj (e := .big) h rfl (hf.trans (by decide))
  · subst hw
    cases e <;> decide

theorem presentParsed_cookie (e : Endian) (b : List UInt8) :
    (headerRecord e {} (split headerWidths b)).cookie = 0 := rfl

theorem parses_true_iff (e : Endian) (b : List UInt8) (record : Record) :
    Parses e b (.returned true record) ↔ Yyparses e b (.returned true record) := by
  refine ⟨fun ⟨q, hq, h⟩ => ?_, fun h => ⟨_, h, rfl⟩⟩
  cases q with
  | fault f => cases h
  | returned ok record' =>
    cases ok with
    | true => exact h ▸ hq
    | false =>
      rw [Parsed.error, if_neg (by simp)] at h
      split at h <;> cases h

theorem parses_magicCookie_iff (e : Endian) (b : List UInt8) :
    Parses e b (.fault .magicCookie) ↔ Yyparses e b (.fault .magicCookie) := by
  refine ⟨fun ⟨q, hq, h⟩ => ?_, fun h => ⟨_, h, rfl⟩⟩
  cases q with
  | fault f => exact h ▸ hq
  | returned ok record' =>
    cases ok with
    | true => cases h
    | false =>
      rw [Parsed.error, if_neg (by simp)] at h
      split at h <;> cases h

theorem cookieEnforced_iff (e : Endian) (b : List UInt8) : CookieEnforced e b ↔ CookieTested e b := by
  simp only [CookieEnforced, parses_true_iff, parses_magicCookie_iff]
  obtain ⟨hp, hx⟩ | ⟨hp, hs, record, -, hx⟩ | ⟨hp, hs, f, hf, hx⟩ := yyparses_cases e b
  · have hcookie := presentParsed_cookie e b
    have hlen := cookieOctets_length hp
    have hrev : magicOctets.reverse ≠ magicOctets := by decide
    have hmagic : (0 : UInt32) ≠ magicCookie := by decide
    simp only [CookieTested, hx, hp, presentParsed, forall_const]
    obtain ⟨ending, values⟩ := walk 0 (optionOctets b)
    cases ending with
    | endTag => simp [optionsParsed, hcookie, hmagic]
    | overrun | full => simp [optionsParsed]
    | endOfData =>
      -- the test was made, and its outcome depends on the octets and on the host
      by_cases hc : field e (cookieOctets b) = magicCookie
      · simp only [optionsParsed, hc, if_true]
        have hoctets := (field_eq_magicCookie hlen).1 hc
        cases e with
        | little =>
          refine iff_of_false (fun h => ?_) fun h => (h.2 rfl trivial).1 hoctets
          exact hrev (hoctets.symm.trans (h.1 _ rfl).1)
        | big =>
          refine iff_of_true ⟨fun record hr => ⟨hoctets, ?_⟩, fun _ _ => by simp⟩
            ⟨by simp, fun h => by simp at h⟩
          obtain ⟨-, rfl⟩ := Parsed.returned.inj hr
          rfl
      · simp only [optionsParsed, hc, if_false]
        have hoctets := mt (field_eq_magicCookie hlen).2 hc
        cases e with
        | little =>
          constructor
          · exact fun h => ⟨by simp, fun _ _ => ⟨hoctets, fun hwf hm => h.2 hm hwf trivial⟩⟩
          · exact fun h => ⟨fun record hr => by simp at hr, fun hm hwf => absurd hm ((h.2 rfl trivial).2 hwf)⟩
        | big =>
          exact iff_of_true ⟨fun record hr => by simp at hr, fun hm => absurd hm hoctets⟩
            ⟨by simp, fun h => by simp at h⟩
  · simp [CookieTested, hx, hp]
  · simp [CookieTested, hx, hp]

def endDatagram : List UInt8 := List.replicate 236 1 ++ magicOctets ++ [255]

/-- It is accepted without a test, and its record does not hold the cookie. -/
theorem cookie_not_stored : ¬ ∀ (e : Endian) (b : List UInt8), CookieEnforced e b := by
  intro h
  have hp : FieldsPresent layout endDatagram := by decide +kernel
  have hw : walk 0 (optionOctets endDatagram) = (.endTag, []) := by
    have : optionOctets endDatagram = [optionTagEnd] := rfl
    rw [this, walk_endTag (by decide)]
  have hret : Parses .little endDatagram (.returned true
      (headerRecord .little {} (split headerWidths endDatagram))) := by
    rw [parses_present hp, presentParsed, hw]
    rfl
  have hcookie := ((h .little endDatagram).1 _ hret).2
  rw [presentParsed_cookie] at hcookie
  exact absurd hcookie (by decide)

end ACENetwork.Dhcp
