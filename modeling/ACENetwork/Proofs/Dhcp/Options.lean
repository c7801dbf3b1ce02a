import Mathlib
import ACENetwork.Proofs.Dhcp.Scanner
import ACENetwork.Spec.Dhcp.Wire

/-! The parser over the options: from the state behind the magic cookie it does what the
walk over the octets says. The induction is over the walk; the stack holds one entry for
every option that was passed. -/

namespace ACENetwork.Dhcp

open Std ByteOrder Flex Bison Parser

/-- The parser started in `c` ends like `x`. -/
def Ends (e : Endian) (c : Config Token Value State) (x : Parsed) : Prop :=
  ∃ r, (parser e).Halts c r ∧ x = parsed r

variable {e : Endian} {c c' : Config Token Value State} {x : Parsed}

theorem ends_congr (h : ∀ r, (parser e).Halts c r ↔ (parser e).Halts c' r) :
    Ends e c x ↔ Ends e c' x := by
  simp only [Ends, h]

theorem ends_stop {r₀ : Result Fault State} (h : ∀ r, (parser e).Halts c r ↔ r = r₀) :
    Ends e c x ↔ x = parsed r₀ := by
  simp [Ends, h]

theorem ends_enter {stack : List (ℕ × Value)} {s : State}
    (hf : top stack ≠ 5) (hc : consistent (top stack) = none) :
    Ends e ⟨stack, .empty, s⟩ x ↔ Ends e ⟨stack, .scanning, s⟩ x :=
  ends_congr fun _ => halts_enter hf hc

theorem ends_more {stack : List (ℕ × Value)} {s s' : State}
    (hf : top stack ≠ 5) (hc : consistent (top stack) = none) (hs : scan e s = .more s') :
    Ends e ⟨stack, .scanning, s⟩ x ↔ Ends e ⟨stack, .scanning, s'⟩ x :=
  ends_congr fun _ => halts_more hf hc hs

theorem ends_read {stack : List (ℕ × Value)} {k : Token} {v : Value} {s s' : State}
    (hf : top stack ≠ 5) (hc : consistent (top stack) = none) (hs : scan e s = .token k v s') :
    Ends e ⟨stack, .empty, s⟩ x ↔ Ends e ⟨stack, .token k v, s'⟩ x :=
  ends_congr fun _ => halts_read hf hc hs

theorem ends_read_fault {stack : List (ℕ × Value)} {s : State} {f : Fault}
    (hf : top stack ≠ 5) (hc : consistent (top stack) = none) (hs : scan e s = .fault f) :
    Ends e ⟨stack, .empty, s⟩ x ↔ x = .fault f :=
  ends_stop fun _ => halts_read_fault hf hc hs

def storeOptions (options : ExtTreeMap UInt8 (List UInt8)) (values : List (UInt8 × List UInt8)) :
    ExtTreeMap UInt8 (List UInt8) :=
  values.foldl (fun m v => m.insertIfNew v.1 v.2) options

theorem storeOptions_getElem? (m : ExtTreeMap UInt8 (List UInt8)) (values : List (UInt8 × List UInt8))
    (k : UInt8) :
    (storeOptions m values)[k]? = m[k]?.or ((values.find? (fun v => compare v.1 k == .eq)).map Prod.snd) := by
  induction values generalizing m with
  | nil => simp [storeOptions]
  | cons v values ih =>
    rw [storeOptions, List.foldl_cons]
    refine (ih _).trans ?_
    rw [ExtTreeMap.getElem?_insertIfNew, List.find?_cons]
    by_cases hv : compare v.1 k = .eq
    · obtain rfl : v.1 = k := compare_eq_iff_eq.1 hv
      by_cases hm : v.1 ∈ m
      · simp [hm]
      · simp [hm]
    · have hv' : (compare v.1 k == .eq) = false := beq_eq_false_iff_ne.2 hv
      rw [hv', if_neg fun h => hv h.1]

/-- The result of a parse that has read the cookie and walked the options. -/
def optionsParsed (cookie : UInt32) (record : Record) :
    Ending × List (UInt8 × List UInt8) → Parsed
  | (.endTag, values) => .returned true { record with options := storeOptions record.options values }
  | (.endOfData, values) =>
    if cookie = magicCookie then
      .returned true
        { record with options := storeOptions record.options values, cookie := cookie }
    else .fault .magicCookie
  | (.overrun, _) => .fault .overRead
  | (.full, values) => .returned false { record with options := storeOptions record.options values }

/-- The stack after the given options, with the values of their nonterminals. -/
def optionStack (header cookie : UInt32) (vs : List UInt32) : List (ℕ × Value) :=
  vs.map (fun v => (10, .ival v)) ++ [(6, .ival cookie), (3, .ival header)]

variable (header cookie : UInt32) (vs : List UInt32)

theorem length_optionStack : (optionStack header cookie vs).length = vs.length + 2 := by
  simp [optionStack]

theorem top_optionStack :
    top (optionStack header cookie vs) = 6 ∧ vs = [] ∨ top (optionStack header cookie vs) = 10 := by
  cases vs with
  | nil => exact Or.inl ⟨rfl, rfl⟩
  | cons v vs => exact Or.inr rfl

theorem optionStack_final : top (optionStack header cookie vs) ≠ 5 := by
  rcases top_optionStack header cookie vs with ⟨h, -⟩ | h <;> simp [h]

theorem optionStack_consistent : consistent (top (optionStack header cookie vs)) = none := by
  rcases top_optionStack header cookie vs with ⟨h, -⟩ | h <;> simp [h, consistent]

theorem optionStack_tag :
    (parser e).action (top (optionStack header cookie vs)) .optionTag = .shift 8 := by
  rcases top_optionStack header cookie vs with ⟨h, -⟩ | h <;>
    simp [h, parser, action]

theorem optionStack_end :
    (parser e).action (top (optionStack header cookie vs)) .end_ = .reduce .optionsEmpty := by
  rcases top_optionStack header cookie vs with ⟨h, -⟩ | h <;>
    simp [h, parser, action]

theorem full_iff {stack : List (ℕ × Value)} :
    (parser e).full stack = true ↔ maxDepth ≤ stack.length + 1 := by
  simp [Parser.full, parser]

theorem full_false {stack : List (ℕ × Value)} (h : stack.length + 1 < maxDepth) :
    (parser e).full stack = false := by
  rw [Bool.eq_false_iff, ne_eq, full_iff]
  omega

theorem semantics_message {a b d : UInt32} {s : State} :
    (parser e).semantics .message [.ival a, .ival b, .ival d] s =
      if b = magicCookie then
        .value (.ival (a + 4 + 308)) { s with record := { s.record with cookie := b } }
      else .fault .magicCookie := rfl

theorem semantics_option {t : UInt32} {s : State} :
    (parser e).semantics .option [.ival t] s = if t = 255 then .accept s else .value (.ival t) s :=
  rfl

theorem semantics_optionWithValue (t : UInt32) (value : List UInt8) (s : State) :
    (parser e).semantics .optionWithValue [.ival t, .sval value] s =
      .value (.ival (t + 1 + UInt32.ofNat value.length)) { s with record := { s.record with
        options := s.record.options.insertIfNew t.toUInt8 value } } := rfl

theorem goto_options (q : ℕ) :
    (parser e).goto q .options = (parser e).goto q .optionsEmpty := by
  by_cases h : q = 10 <;> simp [parser, goto, h]

/-- The reduction of the whole message, which is where the cookie is tested. -/
theorem ends_message {v w : UInt32} {s : State} :
    Ends e ⟨[(9, .ival v), (6, .ival cookie), (3, .ival header)], .token .end_ (.ival w), s⟩ x ↔
      x = if cookie = magicCookie then .returned true { s.record with cookie := cookie }
        else .fault .magicCookie := by
  have hf : top [(9, Value.ival v), (6, .ival cookie), (3, .ival header)] ≠ (parser e).final := by
    simp [top, parser]
  by_cases h : cookie = magicCookie
  · have hv := (semantics_message (e := e) (a := header) (b := cookie) (d := v) (s := s)).trans
      (if_pos h)
    rw [if_pos h]
    refine (ends_congr fun r => (halts_reduce [(9, .ival v), (6, .ival cookie), (3, .ival header)] []
      hf (Or.inl rfl) rfl hv (full_false (by simp [maxDepth]))).trans
      (halts_shift (q := 5) (by simp [top, parser, goto]) rfl rfl (full_false (by simp [maxDepth])))).trans ?_
    exact ends_stop fun r => halts_final rfl
  · have hv := (semantics_message (e := e) (a := header) (b := cookie) (d := v) (s := s)).trans
      (if_neg h)
    rw [if_neg h]
    exact ends_stop fun r =>
      halts_reduce_fault [(9, .ival v), (6, .ival cookie), (3, .ival header)] []
        hf (Or.inl rfl) rfl hv

/-- The options that were read are folded into one, from the last to the first, and then the
message is reduced. -/
theorem ends_fold {v w : UInt32} {s : State} (hlen : vs.length + 4 < maxDepth) :
    Ends e ⟨((parser e).goto (top (optionStack header cookie vs)) .optionsEmpty, .ival v) ::
        optionStack header cookie vs, .token .end_ (.ival w), s⟩ x ↔
      x = if cookie = magicCookie then .returned true { s.record with cookie := cookie }
        else .fault .magicCookie := by
  induction vs generalizing v with
  | nil => exact ends_message header cookie
  | cons u vs ih =>
    rw [List.length_cons] at hlen
    have hroom : (parser e).full (((parser e).goto (top (optionStack header cookie vs)) .options,
        .ival (u + v)) :: optionStack header cookie vs) = false := by
      refine full_false ?_
      rw [List.length_cons, length_optionStack]
      omega
    refine (ends_congr fun r => halts_reduce [(13, .ival v), (10, .ival u)]
      (optionStack header cookie vs) (by simp [top, parser]) (Or.inl rfl) rfl rfl hroom).trans ?_
    rw [goto_options]
    exact ih (by omega)

/-- The end of the data: the empty list of options is pushed, and everything is reduced. -/
theorem ends_at_end {w : UInt32} {s : State} :
    Ends e ⟨optionStack header cookie vs, .token .end_ (.ival w), s⟩ x ↔
      x = if maxDepth ≤ vs.length + 4 then .returned false s.record
        else if cookie = magicCookie then .returned true { s.record with cookie := cookie }
        else .fault .magicCookie := by
  have hred : Reduces (parser e) (top ([] ++ optionStack header cookie vs)) (.token .end_ (.ival w))
      .optionsEmpty := Or.inr ⟨optionStack_consistent header cookie vs, .end_, .ival w, rfl,
      optionStack_end header cookie vs⟩
  have hf : top ([] ++ optionStack header cookie vs) ≠ (parser e).final :=
    optionStack_final header cookie vs
  by_cases h : maxDepth ≤ vs.length + 4
  · rw [if_pos h]
    refine ends_stop fun r => halts_reduce_full [] (optionStack header cookie vs)
      (v := .ival 0) hf hred rfl rfl ?_
    rw [full_iff, List.length_cons, length_optionStack]
    omega
  · rw [if_neg h]
    refine (ends_congr fun r => halts_reduce [] (optionStack header cookie vs)
      (v := .ival 0) hf hred rfl rfl (full_false ?_)).trans ?_
    · rw [List.length_cons, length_optionStack]
      omega
    · rw [ends_fold header cookie vs (by omega)]

theorem load_singleton (a : UInt8) : load e [a] = a.toNat := by
  cases e <;> simp [load, leNat]

theorem scan_tag {t : UInt8} {b : List UInt8} {record : Record} :
    scan e ⟨.optionTag, t :: b, t :: b, record⟩ =
      .token .optionTag (.ival t.toUInt32)
        ⟨if t = optionTagPad ∨ t = optionTagEnd then .optionTag else .optionLength, b, b, record⟩ := by
  have hv : UInt32.ofNat (load e [t]) = t.toUInt32 := by rw [load_singleton]; simp
  have h0 : t.toUInt32 = 0 ↔ t = optionTagPad := by simp [← UInt32.toNat_inj, ← UInt8.toNat_inj, optionTagPad]
  have h255 : t.toUInt32 = 255 ↔ t = optionTagEnd := by
    simp [← UInt32.toNat_inj, ← UInt8.toNat_inj, optionTagEnd]
  rw [scan_match (by simp [Start.octets])]
  simp only [act, Start.octets, List.take_succ_cons, List.take_zero, List.drop_succ_cons,
    List.drop_zero, hv, h0, h255, List.length_singleton]
  split_ifs <;> rfl

theorem scan_value (n : UInt8) (b : List UInt8) (record : Record) :
    scan e ⟨.optionLength, n :: b, n :: b, record⟩ =
      if b.length < n.toNat then .fault .overRead
      else .token .optionValue (.sval (b.take n.toNat))
        ⟨.optionTag, b.drop n.toNat, b.drop n.toNat, record⟩ := by
  rw [scan_match (by simp [Start.octets])]
  simp only [act, Start.octets, List.take_succ_cons, List.take_zero, List.drop_succ_cons,
    List.drop_zero, load_singleton, List.length_singleton]

theorem scan_optionTag (b : List UInt8) (record : Record) :
    ∃ k v s, scan e ⟨.optionTag, b, b, record⟩ = .token k v s ∧ k ≠ .optionValue ∧
      s.record = record := by
  cases b with
  | nil => exact ⟨_, _, _, scan_nil rfl, by simp, rfl⟩
  | cons t b => exact ⟨_, _, _, scan_tag, by simp, rfl⟩

theorem action_tag {k : Token} (h : k ≠ .optionValue) :
    (parser e).action 8 k = .reduce .option := by
  cases k <;> simp_all [parser, action]

variable {header cookie vs} {record : Record} {b : List UInt8}

theorem ends_no_tag {start : Start} :
    Ends e ⟨optionStack header cookie vs, .empty, ⟨start, [], [], record⟩⟩ x ↔
      x = if maxDepth ≤ vs.length + 4 then .returned false record
        else if cookie = magicCookie then .returned true { record with cookie := cookie }
        else .fault .magicCookie :=
  (ends_congr fun _ => halts_read (optionStack_final header cookie vs)
    (optionStack_consistent header cookie vs) (scan_nil rfl)).trans (ends_at_end header cookie vs)

theorem ends_tag {t : UInt8} :
    Ends e ⟨optionStack header cookie vs, .empty, ⟨.optionTag, t :: b, t :: b, record⟩⟩ x ↔
      if maxDepth ≤ vs.length + 4 then x = .returned false record
      else Ends e ⟨(8, .ival t.toUInt32) :: optionStack header cookie vs, .empty,
        ⟨if t = optionTagPad ∨ t = optionTagEnd then .optionTag else .optionLength, b, b, record⟩⟩ x := by
  refine (ends_read (optionStack_final header cookie vs) (optionStack_consistent header cookie vs)
    scan_tag).trans ?_
  by_cases h : maxDepth ≤ vs.length + 4
  · rw [if_pos h]
    refine ends_stop fun r => halts_shift_full (optionStack_final header cookie vs)
      (optionStack_consistent header cookie vs) (optionStack_tag header cookie vs) ?_
    rw [full_iff, List.length_cons, length_optionStack]
    omega
  · rw [if_neg h]
    refine ends_congr fun r => halts_shift (optionStack_final header cookie vs)
      (optionStack_consistent header cookie vs) (optionStack_tag header cookie vs) (full_false ?_)
    rw [List.length_cons, length_optionStack]
    omega

theorem ends_endTag {t : UInt32} (ht : t = 255) :
    Ends e ⟨(8, .ival t) :: optionStack header cookie vs, .empty, ⟨.optionTag, b, b, record⟩⟩ x ↔
      x = .returned true record := by
  obtain ⟨k, v, s, hscan, hk, rfl⟩ := scan_optionTag (e := e) b record
  refine (ends_read (by simp [top]) rfl hscan).trans ?_
  exact ends_stop fun r => halts_reduce_accept [(8, .ival t)] (optionStack header cookie vs)
    (by simp [top, parser]) (Or.inr ⟨rfl, k, v, rfl, action_tag hk⟩) rfl
    (semantics_option.trans (if_pos ht))

theorem optionStack_room {q : ℕ} {v : Value} (hlen : vs.length + 4 < maxDepth) :
    (parser e).full ((q, v) :: optionStack header cookie vs) = false := by
  refine full_false ?_
  rw [List.length_cons, length_optionStack]
  omega

/-- A tag without a value is an option of its own, whatever follows. -/
theorem ends_plain_tag {t : UInt32} {start : Start} (ht : t ≠ 255) (hlen : vs.length + 4 < maxDepth)
    (hstart : start = .optionTag ∨ b = []) :
    Ends e ⟨(8, .ival t) :: optionStack header cookie vs, .empty, ⟨start, b, b, record⟩⟩ x ↔
      Ends e ⟨optionStack header cookie (t :: vs), .empty, ⟨start, b, b, record⟩⟩ x := by
  have hscan : ∃ k v s, scan e ⟨start, b, b, record⟩ = .token k v s ∧ k ≠ .optionValue := by
    rcases hstart with rfl | rfl
    · obtain ⟨k, v, s, hs, hk, -⟩ := scan_optionTag (e := e) b record
      exact ⟨k, v, s, hs, hk⟩
    · exact ⟨_, _, _, scan_nil rfl, by simp⟩
  obtain ⟨k, v, s, hs, hk⟩ := hscan
  exact ends_congr fun r => halts_reduce_first [(8, .ival t)] (optionStack header cookie vs)
    (by simp [top, parser]) rfl hs (action_tag hk) rfl (semantics_option.trans (if_neg ht))
    (optionStack_room hlen) (optionStack_final header cookie (t :: vs)) rfl

theorem ends_value {t n : UInt8} (hlen : vs.length + 4 < maxDepth) :
    Ends e ⟨(8, .ival t.toUInt32) :: optionStack header cookie vs, .empty,
        ⟨.optionLength, n :: b, n :: b, record⟩⟩ x ↔
      if b.length < n.toNat then x = .fault .overRead
      else if maxDepth ≤ vs.length + 5 then x = .returned false record
      else Ends e ⟨optionStack header cookie
            ((t.toUInt32 + 1 + UInt32.ofNat (b.take n.toNat).length) :: vs), .empty,
        ⟨.optionTag, b.drop n.toNat, b.drop n.toNat,
          { record with options := record.options.insertIfNew t (b.take n.toNat) }⟩⟩ x := by
  have hscan := scan_value (e := e) n b record
  by_cases hn : b.length < n.toNat
  · rw [if_pos hn] at hscan ⊢
    exact ends_read_fault (by simp [top]) rfl hscan
  · rw [if_neg hn] at hscan ⊢
    refine (ends_read (by simp [top]) rfl hscan).trans ?_
    by_cases hfull : maxDepth ≤ vs.length + 5
    · rw [if_pos hfull]
      refine ends_stop fun r => halts_shift_full (q := 12) (by simp [top, parser]) rfl rfl ?_
      rw [full_iff, List.length_cons, List.length_cons, length_optionStack]
      omega
    · rw [if_neg hfull]
      have hroom : (parser e).full ((12, .sval (b.take n.toNat)) :: (8, .ival t.toUInt32) ::
          optionStack header cookie vs) = false := by
        refine full_false ?_
        rw [List.length_cons, List.length_cons, length_optionStack]
        omega
      refine ends_congr fun r => (halts_shift (q := 12) (by simp [top, parser]) rfl rfl hroom).trans ?_
      have hv := semantics_optionWithValue (e := e) t.toUInt32 (b.take n.toNat)
        ⟨.optionTag, b.drop n.toNat, b.drop n.toNat, record⟩
      rw [UInt8.toUInt8_toUInt32] at hv
      exact halts_reduce [(12, .sval (b.take n.toNat)), (8, .ival t.toUInt32)]
        (optionStack header cookie vs) (by simp [top, parser]) (Or.inl rfl) rfl hv
        (optionStack_room hlen)

/-- The parser over the options does what the walk says. -/
theorem ends_options (header cookie : UInt32) (k : ℕ) (b : List UInt8) (vs : List UInt32)
    (record : Record) (hk : vs.length = k) :
    Ends e ⟨optionStack header cookie vs, .empty, ⟨.optionTag, b, b, record⟩⟩ x ↔
      x = optionsParsed cookie record (walk k b) := by
  induction k, b using walk.induct generalizing vs record with
  | case1 k =>
    rw [ends_no_tag, walk_nil, hk]
    by_cases h : maxDepth ≤ k + 4 <;> simp [h, optionsParsed, storeOptions]
  | case2 k tag b hfull =>
    rw [ends_tag, walk_full hfull, hk, if_pos hfull]
    simp [optionsParsed, storeOptions]
  | case3 k b hroom =>
    rw [ends_tag, walk_endTag hroom, hk, if_neg hroom, if_pos (Or.inr rfl), ends_endTag (by decide)]
    simp [optionsParsed, storeOptions]
  | case4 k b hroom hend ih =>
    rw [ends_tag, walk_pad hroom, hk, if_neg hroom, if_pos (Or.inl rfl),
      ends_plain_tag (by decide) (by omega) (Or.inl rfl)]
    exact ih _ _ (by simp [hk])
  | case5 k tag hroom hend hpad ih =>
    have htag : tag.toUInt32 ≠ 255 := fun h => hend (by
      simpa [← UInt32.toNat_inj, ← UInt8.toNat_inj, optionTagEnd] using h)
    have hih := ih (tag.toUInt32 :: vs) record (by simp [hk])
    rw [ends_no_tag] at hih
    rw [ends_tag, walk_last_tag hroom hend hpad, hk, if_neg hroom, if_neg (by tauto),
      ends_plain_tag htag (by omega) (Or.inr rfl), ends_no_tag]
    exact hih
  | case6 k tag hroom hend hpad size b hover =>
    rw [ends_tag, walk_value hroom hend hpad, hk, if_neg hroom, if_neg (by tauto),
      ends_value (by omega), if_pos hover, if_pos hover]
    rfl
  | case7 k tag hroom hend hpad size b hover hfull =>
    rw [ends_tag, walk_value hroom hend hpad, hk, if_neg hroom, if_neg (by tauto),
      ends_value (by omega), if_neg hover, if_neg hover, hk, if_pos hfull, if_pos hfull]
    simp [optionsParsed, storeOptions]
  | case8 k tag hroom hend hpad size b hover hfull ih =>
    rw [ends_tag, walk_value hroom hend hpad, hk, if_neg hroom, if_neg (by tauto),
      ends_value (by omega), if_neg hover, if_neg hover, hk, if_neg hfull, if_neg hfull,
      ih _ _ (by simp [hk])]
    generalize walk (k + 1) (b.drop size.toNat) = rest
    obtain ⟨ending, values⟩ := rest
    cases ending <;> rfl

end ACENetwork.Dhcp
