import Mathlib
import ACENetwork.Proofs.Dhcp.RoundTrip

/-! Option areas in order, with PAD octets anywhere among the options and any octets behind the
END tag. The parser keeps one entry of its stack for every PAD and every option until it meets
the END tag, so how many it can read is bounded. -/

namespace ACENetwork.Dhcp

open Std ByteOrder

/-- The parser accepts, and the map of the record has the first value of every tag that occurs;
the rest of the record is what the header gives. -/
def DecodesArea (e : Endian) (head : List UInt8) (items : List Item) (junk : List UInt8) : Prop :=
  ∃ record, (∀ x, Parses e (head ++ (itemOctets items ++ optionTagEnd :: junk)) x ↔
      x = .returned true record) ∧
    (∀ tag, record.options[tag]? = firstValue items tag) ∧
    { record with options := ∅ } = headerRecord e {} (split headerWidths head)

theorem itemOctets_cons (item : Item) (items : List Item) (b : List UInt8) :
    itemOctets (item :: items) ++ b = item.octets ++ (itemOctets items ++ b) := by
  rw [itemOctets, List.flatMap_cons, List.append_assoc, itemOctets]

theorem walk_option {k : ℕ} {tag : UInt8} {value : List UInt8} (b : List UInt8)
    (tagged : tag ≠ optionTagPad ∧ tag ≠ optionTagEnd) (counted : value.length ≤ 255)
    (h : ¬ maxDepth ≤ k + 4) :
    walk k (tag :: UInt8.ofNat value.length :: (value ++ b)) =
      if maxDepth ≤ k + 5 then (.full, []) else
        ((walk (k + 1) b).1, (tag, value) :: (walk (k + 1) b).2) := by
  have hsize : (UInt8.ofNat value.length).toNat = value.length := by
    rw [UInt8.toNat_ofNat', Nat.mod_eq_of_lt (by omega)]
  have hfits : ¬ (value ++ b).length < (UInt8.ofNat value.length).toNat := by
    rw [hsize, List.length_append]
    omega
  rw [walk_value h tagged.2 tagged.1, if_neg hfits, hsize, List.take_left, List.drop_left]

theorem walk_items (items : List Item) (junk : List UInt8) (k : ℕ)
    (h : k + items.length + 4 < maxDepth) :
    walk k (itemOctets items ++ optionTagEnd :: junk) = (.endTag, items.filterMap Item.entry) := by
  induction items generalizing k with
  | nil => exact walk_endTag (by simpa using h)
  | cons item items ih =>
    rw [List.length_cons] at h
    have hrest := ih (k + 1) (by omega)
    rw [itemOctets_cons]
    cases item with
    | pad => exact (walk_pad (by omega)).trans hrest
    | option tag value tagged counted =>
      rw [Item.octets, List.cons_append, List.cons_append,
        walk_option _ tagged counted (by omega), if_neg (by omega), hrest]
      rfl

theorem walk_items_full (items : List Item) (junk : List UInt8) (k : ℕ)
    (h : maxDepth ≤ k + items.length + 4) :
    (walk k (itemOctets items ++ optionTagEnd :: junk)).1 = .full := by
  induction items generalizing k with
  | nil =>
    rw [itemOctets, List.flatMap_nil, List.nil_append, walk_full (by simpa using h)]
  | cons item items ih =>
    rw [List.length_cons] at h
    have hrest := ih (k + 1) (by omega)
    rw [itemOctets_cons]
    by_cases hk : maxDepth ≤ k + 4
    · cases item with
      | pad => rw [Item.octets, List.cons_append, walk_full hk]
      | option tag value tagged counted => rw [Item.octets, List.cons_append, walk_full hk]
    · cases item with
      | pad =>
        rw [Item.octets, List.cons_append, List.nil_append, walk_pad hk]
        exact hrest
      | option tag value tagged counted =>
        rw [Item.octets, List.cons_append, List.cons_append, walk_option _ tagged counted hk]
        by_cases hk' : maxDepth ≤ k + 5
        · rw [if_pos hk']
        · rw [if_neg hk']
          exact hrest

theorem firstValue_eq_find (items : List Item) (tag : UInt8) :
    ((items.filterMap Item.entry).find? (fun v => compare v.1 tag == .eq)).map Prod.snd =
      firstValue items tag := by
  induction items with
  | nil => rfl
  | cons item items ih =>
    cases item with
    | pad => exact ih
    | option tag' value tagged counted =>
      have hentries : (Item.option tag' value tagged counted :: items).filterMap Item.entry =
          (tag', value) :: items.filterMap Item.entry := rfl
      by_cases ht : tag' = tag
      · subst ht
        simp [hentries, firstValue]
      · have hne : (compare tag' tag == .eq) = false := by
          rw [beq_eq_false_iff_ne]
          exact fun h => ht (compare_eq_iff_eq.1 h)
        have hfirst : firstValue (Item.option tag' value tagged counted :: items) tag =
            firstValue items tag := by simp [firstValue, ht]
        rw [hentries, hfirst, List.find?_cons, hne]
        exact ih

theorem storeOptions_entries (items : List Item) (tag : UInt8) :
    (storeOptions ∅ (items.filterMap Item.entry))[tag]? = firstValue items tag := by
  rw [storeOptions_getElem?, firstValue_eq_find, ExtTreeMap.getElem?_empty, Option.none_or]

theorem FieldsPresent.append {fields : List (ℕ × Bool)} {b : List UInt8} (c : List UInt8)
    (h : FieldsPresent fields b) : FieldsPresent fields (b ++ c) := by
  induction fields generalizing b with
  | nil => trivial
  | cons field fields ih =>
    obtain ⟨width, required⟩ := field
    obtain ⟨hwidth, hne, hrest⟩ := h
    refine ⟨?_, ?_, ?_⟩
    · rw [List.length_append]
      omega
    · rw [List.take_append_of_le_length hwidth]
      exact hne
    · rw [List.drop_append_of_le_length hwidth]
      exact ih hrest

theorem split_append {ws : List ℕ} {b : List UInt8} (c : List UInt8) (h : ws.sum ≤ b.length) :
    split ws (b ++ c) = split ws b := by
  induction ws generalizing b with
  | nil => rfl
  | cons w ws ih =>
    rw [List.sum_cons] at h
    have hw : w ≤ b.length := by omega
    rw [split, split, List.take_append_of_le_length hw, List.drop_append_of_le_length hw,
      ih (by rw [List.length_drop]; omega)]

theorem parses_head {e : Endian} {head : List UInt8} (h : Head head) (area : List UInt8) (x : Parsed) :
    Parses e (head ++ area) x ↔
      x = (optionsParsed (field e (cookieOctets (head ++ area)))
        (headerRecord e {} (split headerWidths head)) (walk 0 area)).error true := by
  obtain ⟨hlen, hpresent⟩ := h
  have hsum : headerWidths.sum ≤ head.length := by
    rw [hlen]
    decide
  have harea : optionOctets (head ++ area) = area := by
    rw [optionOctets, ← hlen, List.drop_left]
  rw [parses_present (hpresent.append area), presentParsed, harea, split_append area hsum]

theorem headerRecord_options (e : Endian) (head : List UInt8) :
    (headerRecord e {} (split headerWidths head)).options = ∅ := rfl

theorem parses_area {e : Endian} {head : List UInt8} (h : Head head) {items : List Item}
    (hroom : items.length + 4 < maxDepth) (junk : List UInt8) (x : Parsed) :
    Parses e (head ++ (itemOctets items ++ optionTagEnd :: junk)) x ↔
      x = .returned true { headerRecord e {} (split headerWidths head) with
        options := storeOptions ∅ (items.filterMap Item.entry) } := by
  rw [parses_head h, walk_items items junk 0 (by omega), optionsParsed, headerRecord_options]
  rfl

theorem not_parses_area {e : Endian} {head : List UInt8} (h : Head head) {items : List Item}
    (hfull : maxDepth ≤ items.length + 4) (junk : List UInt8) (record : Record) :
    ¬ Parses e (head ++ (itemOctets items ++ optionTagEnd :: junk)) (.returned true record) := by
  have hwalk := walk_items_full items junk 0 (by omega)
  rw [parses_head h]
  generalize walk 0 (itemOctets items ++ optionTagEnd :: junk) = w at hwalk
  obtain ⟨ending, values⟩ := w
  cases hwalk
  rw [optionsParsed, Parsed.error, if_neg (by simp)]
  split <;> simp

/-- The options are decoded as they stand exactly when the parser's stack can hold them all. -/
theorem decodesArea_iff_room (e : Endian) (head : List UInt8) (items : List Item) (junk : List UInt8)
    (h : Head head) : DecodesArea e head items junk ↔ items.length ≤ 9994 := by
  by_cases hroom : items.length + 4 < maxDepth
  · refine iff_of_true ⟨_, parses_area h hroom junk, storeOptions_entries items, rfl⟩ ?_
    simp only [maxDepth] at hroom
    omega
  · refine iff_of_false ?_ ?_
    · intro hd
      obtain ⟨record, hparses, -⟩ := hd
      exact not_parses_area h (by omega) junk record ((hparses _).2 rfl)
    · simp only [maxDepth] at hroom
      omega

def plainHead : List UInt8 := List.replicate 236 1 ++ magicOctets

theorem plainHead_head : Head plainHead := ⟨rfl, by decide +kernel⟩

/-- A tag that occurs twice, PAD octets, and a tag behind the END tag. -/
theorem plainHead_decodesArea : DecodesArea .little plainHead
    [.pad, .option 53 [1, 0] (by decide) (by decide), .pad, .option 53 [2] (by decide) (by decide)]
    [12, 1, 7] :=
  (decodesArea_iff_room .little plainHead _ [12, 1, 7] plainHead_head).2 (by decide)

/-- An area of 9995 PAD octets is refused. -/
theorem pads_not_decodesArea : ¬ ∀ (e : Endian) (head : List UInt8) (items : List Item)
    (junk : List UInt8), Head head → DecodesArea e head items junk := by
  intro hall
  obtain ⟨record, hparses, -⟩ := hall .little plainHead (List.replicate 9995 .pad) [] plainHead_head
  refine not_parses_area plainHead_head ?_ [] record ((hparses _).2 rfl)
  rw [List.length_replicate]
  decide

end ACENetwork.Dhcp
