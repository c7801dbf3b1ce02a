import Mathlib
import ACENetwork.Spec.Irc.Wire

/-! Calls of the IRC scanner, one lemma for each kind of token that a frame is made of. A word
is read as a whole when it stands in front of a symbol that its pattern does not contain. -/

namespace ACENetwork.Irc

open Flex Bison Pattern

variable {c : Start} {w b : List UInt8} {n : ℕ} {record : Record}

/-- The rule for invalid characters. -/
def charRule : Flex.Rule Start UInt8 RuleName := ⟨fun _ => true, Pattern.any, .invalidCharacter⟩

theorem scan_word {name : RuleName} (hw : w ≠ []) (h : select rules c (w ++ b) = some (name, w.length)) :
    scan ⟨c, w ++ b, n, record⟩ = act name w ⟨c, b, n, record⟩ := by
  unfold scan
  rw [if_neg (by simp [hw]), h]
  simp

/-- The rule that reads a word, and its action. -/
theorem scan_rule {r : Flex.Rule Start UInt8 RuleName}
    (hc : ∀ a ∈ w.head?, candidates rules c a = [r, charRule]) (hw : w ≠ []) (hon : r.on c = true)
    (hr : r.pattern.longest (w ++ b) = some w.length) :
    scan ⟨c, w ++ b, n, record⟩ = act r.name w ⟨c, b, n, record⟩ :=
  scan_word hw (select_word hc hw hon rfl hr)

theorem scan_symbol {r : Flex.Rule Start UInt8 RuleName} (a : UInt8)
    (hc : candidates rules c a = [r, charRule]) (hon : r.on c = true)
    (hr : r.pattern = literal [a]) :
    scan ⟨c, a :: b, n, record⟩ = act r.name [a] ⟨c, b, n, record⟩ :=
  scan_rule (w := [a]) (by simpa using hc) (by simp) hon (by rw [hr]; exact longest_literal [a] b)

theorem scan_colon : scan ⟨.initial, colon :: b, n, record⟩ =
    .token .colon (.ival 1) ⟨.prefix_, b, n, record⟩ :=
  scan_symbol (r := ⟨on .initial, literal [colon], .prefix_⟩) colon rfl rfl rfl

theorem scan_bang : scan ⟨.prefix_, bang :: b, n, record⟩ =
    .token .bang (.ival 1) ⟨.user, b, n, record⟩ :=
  scan_symbol (r := ⟨on .prefix_, literal [bang], .user⟩) bang rfl rfl rfl

theorem scan_at : scan ⟨.prefix_, commercialAt :: b, n, record⟩ =
    .token .at_ (.ival 1) ⟨.host, b, n, record⟩ :=
  scan_symbol (r := ⟨on .prefix_, literal [commercialAt], .host⟩) commercialAt rfl rfl rfl

theorem scan_trailing : scan ⟨.params, colon :: b, n, record⟩ =
    .token .colon (.ival 1) ⟨.trailing, b, n, record⟩ :=
  scan_symbol (r := ⟨on .params, literal [colon], .trailing⟩) colon rfl rfl rfl

variable {k : ℕ}

theorem longest_gap (hb : ∀ a ∈ b.head?, a ≠ space) : spaces.longest (gap k ++ b) = some (gap k).length :=
  longest_plus (p := fun a => decide (a = space)) (by simp [gap]) (by simp [gap])
    (fun a ha => by simpa using hb a ha)

theorem scan_gap {r : Flex.Rule Start UInt8 RuleName} (hc : candidates rules c space = [r, charRule])
    (hon : r.on c = true) (hr : r.pattern = spaces) (hb : ∀ a ∈ b.head?, a ≠ space) :
    scan ⟨c, gap k ++ b, n, record⟩ = act r.name (gap k) ⟨c, b, n, record⟩ := by
  refine scan_rule (fun a ha => ?_) (by simp [gap]) hon (by rw [hr]; exact longest_gap hb)
  obtain rfl : space = a := by simpa [gap, List.replicate_succ] using ha
  exact hc

theorem scan_prefix_gap (hb : ∀ a ∈ b.head?, a ≠ space) : scan ⟨.prefix_, gap k ++ b, n, record⟩ =
    .token .space (.ival (gap k).length) ⟨.command, b, n, record⟩ :=
  scan_gap (r := ⟨on .prefix_, spaces, .spaces .command⟩) rfl rfl rfl hb

theorem scan_gap_command (hc : onCommand c = true) (hb : ∀ a ∈ b.head?, a ≠ space) :
    scan ⟨c, gap k ++ b, n, record⟩ =
      .token .space (.ival (gap k).length) ⟨.params, b, n, record⟩ := by
  rcases of_decide_eq_true hc with rfl | rfl
  · exact scan_gap (r := ⟨onCommand, spaces, .spaces .params⟩) rfl rfl rfl hb
  · exact scan_gap (r := ⟨onCommand, spaces, .spaces .params⟩) rfl rfl rfl hb

theorem scan_gap_params (hb : ∀ a ∈ b.head?, a ≠ space) : scan ⟨.params, gap k ++ b, n, record⟩ =
    .token .space (.ival (gap k).length) ⟨.params, b, n, record⟩ :=
  scan_gap (r := ⟨on .params, spaces, .spaces .params⟩) rfl rfl rfl hb

/-- An octet of a class is none of the octets outside of it. -/
theorem ne_of_class {p : UInt8 → Bool} {a b : UInt8} (ha : p a = true) (hb : p b = false) : a ≠ b :=
  ne_of_apply_ne p (by simp [ha, hb])

theorem mem_host : w ∈ host.lang ↔ w ≠ [] ∧ ∀ a ∈ w, isHost a = true := mem_lang_plus _ w

theorem mem_user : w ∈ user.lang ↔ w ≠ [] ∧ ∀ a ∈ w, isUser a = true := mem_lang_plus _ w

theorem mem_origin (h : w ∈ (Pattern.alt nick host).lang) :
    w ≠ [] ∧ ∀ a ∈ w, (isNick a || isHost a) = true := by
  rcases h with h | h
  · obtain ⟨a, v, rfl, ha, hv⟩ := (mem_lang_seq_star _ _ w).1 h
    refine ⟨by simp, fun x hx => ?_⟩
    rcases List.mem_cons.1 hx with rfl | hx
    · simp [isNick, ha]
    · simp [hv x hx]
  · obtain ⟨hne, hw⟩ := mem_host.1 h
    exact ⟨hne, fun x hx => by simp [hw x hx]⟩

theorem mem_param : w ∈ param.lang ↔
    w ≠ [] ∧ (∀ a ∈ w, isMiddle a = true) ∧ w.head? ≠ some colon := by
  refine (mem_lang_seq_star _ _ w).trans ⟨fun h => ?_, fun h => ?_⟩
  · obtain ⟨a, v, rfl, ha, hv⟩ := h
    obtain ⟨hm, hc⟩ : isMiddle a = true ∧ a ≠ colon := by simpa using ha
    exact ⟨by simp, by simpa [hm] using hv, by simpa using hc⟩
  · obtain ⟨hne, hw, hc⟩ := h
    obtain ⟨a, v, rfl⟩ := List.exists_cons_of_ne_nil hne
    refine ⟨a, v, rfl, ?_, fun b hb => hw b (List.mem_cons_of_mem a hb)⟩
    simpa [hw a List.mem_cons_self] using hc

theorem candidates_origin {a : UInt8} (ha : (isNick a || isHost a) = true)
    (hb : (Pattern.alt nick host).begins a = true) :
    candidates rules .prefix_ a = [⟨on .prefix_, .alt nick host, .origin⟩, charRule] := by
  have h1 : a ≠ space := ne_of_class (p := fun a => isNick a || isHost a) ha rfl
  have h2 : a ≠ bang := ne_of_class (p := fun a => isNick a || isHost a) ha rfl
  have h3 : a ≠ commercialAt := ne_of_class (p := fun a => isNick a || isHost a) ha rfl
  rw [begins_alt, Bool.or_eq_true] at hb
  simp [candidates, rules, on, onCommand, spaces, h1, h2, h3, hb, charRule]

theorem scan_origin (hw : w ∈ (Pattern.alt nick host).lang)
    (hb : ∀ a ∈ b.head?, (isNick a || isHost a) = false) :
    scan ⟨.prefix_, w ++ b, n, record⟩ = .token .origin (.sval w) ⟨.prefix_, b, n, record⟩ := by
  obtain ⟨hne, hall⟩ := mem_origin hw
  have hl : (Pattern.alt nick host).longest (w ++ b) = some w.length :=
    longest_append (fun v hv => (mem_origin hv).2) hw hb
  refine scan_rule (r := ⟨on .prefix_, .alt nick host, .origin⟩) (fun a ha => ?_) hne rfl hl
  obtain ⟨v, rfl⟩ : ∃ v, w = a :: v := by
    cases w <;> simp_all
  refine candidates_origin (hall a List.mem_cons_self) ?_
  by_contra hbeg
  rw [List.cons_append, longest_of_not_begins (by simpa using hbeg)] at hl
  simp at hl

theorem candidates_host {a : UInt8} (ha : isHost a = true) :
    candidates rules .host a = [⟨on .host, host, .hostName⟩, charRule] := by
  have h1 : a ≠ space := ne_of_class ha rfl
  simp [candidates, rules, on, onCommand, spaces, host, h1, ha, charRule]

theorem scan_host (hw : w ∈ host.lang) (hb : ∀ a ∈ b.head?, isHost a = false) :
    scan ⟨.host, w ++ b, n, record⟩ = .token .host (.sval w) ⟨.prefix_, b, n, record⟩ := by
  obtain ⟨hne, hall⟩ := mem_host.1 hw
  refine scan_rule (r := ⟨on .host, host, .hostName⟩) (fun a ha => ?_) hne rfl
    (longest_plus hne hall hb)
  exact candidates_host (hall a (List.mem_of_mem_head? ha))

theorem candidates_user {a : UInt8} (ha : isUser a = true) :
    candidates rules .user a = [⟨on .user, user, .userName⟩, charRule] := by
  have h1 : a ≠ space := ne_of_class ha rfl
  have h2 : a ≠ commercialAt := ne_of_class ha rfl
  simp [candidates, rules, on, onCommand, spaces, user, h1, h2, ha, charRule]

theorem scan_user (hw : w ∈ user.lang) (hb : ∀ a ∈ b.head?, isUser a = false) :
    scan ⟨.user, w ++ b, n, record⟩ = .token .user (.sval w) ⟨.prefix_, b, n, record⟩ := by
  obtain ⟨hne, hall⟩ := mem_user.1 hw
  refine scan_rule (r := ⟨on .user, user, .userName⟩) (fun a ha => ?_) hne rfl
    (longest_plus hne hall hb)
  exact candidates_user (hall a (List.mem_of_mem_head? ha))

theorem candidates_string (hc : onCommand c = true) {a : UInt8} (ha : isAlpha a = true) :
    candidates rules c a = [⟨onCommand, Pattern.plus isAlpha, .string⟩, charRule] := by
  have h1 : a ≠ space := ne_of_class ha rfl
  have h2 : a ≠ colon := ne_of_class ha rfl
  have h3 : a ≠ 13 := ne_of_class ha rfl
  have h4 : isDigit a = false := by
    simp only [isAlpha, isDigit, decide_eq_true_eq, decide_eq_false_iff_not] at ha ⊢
    grind
  rcases of_decide_eq_true hc with rfl | rfl <;>
    simp [candidates, rules, on, onCommand, spaces, h1, h2, h3, h4, ha, charRule]

theorem scan_string (hc : onCommand c = true) (hne : w ≠ []) (hw : ∀ a ∈ w, isAlpha a = true)
    (hb : ∀ a ∈ b.head?, isAlpha a = false) :
    scan ⟨c, w ++ b, n, record⟩ = .token .cmdString (.sval w) ⟨c, b, n, record⟩ := by
  refine scan_rule (r := ⟨onCommand, Pattern.plus isAlpha, .string⟩) (fun a ha => ?_) hne hc
    (longest_plus hne hw hb)
  exact candidates_string hc (hw a (List.mem_of_mem_head? ha))

theorem candidates_numeric (hc : onCommand c = true) {a : UInt8} (ha : isDigit a = true) :
    candidates rules c a = [⟨onCommand, Pattern.exactly isDigit 3, .numeric⟩, charRule] := by
  have h1 : a ≠ space := ne_of_class ha rfl
  have h2 : a ≠ colon := ne_of_class ha rfl
  have h3 : a ≠ 13 := ne_of_class ha rfl
  have h4 : isAlpha a = false := by
    simp only [isAlpha, isDigit, decide_eq_true_eq, decide_eq_false_iff_not] at ha ⊢
    grind
  rcases of_decide_eq_true hc with rfl | rfl <;>
    simp [candidates, rules, on, onCommand, spaces, h1, h2, h3, h4, ha, charRule]

theorem scan_numeric (hc : onCommand c = true) (hlen : w.length = 3) (hw : ∀ a ∈ w, isDigit a = true) :
    scan ⟨c, w ++ b, n, record⟩ = .token .cmdNumeric (.ival (number w)) ⟨c, b, n, record⟩ := by
  have hne : w ≠ [] := by rintro rfl; simp at hlen
  refine scan_rule (r := ⟨onCommand, Pattern.exactly isDigit 3, .numeric⟩) (fun a ha => ?_) hne hc ?_
  · exact candidates_numeric hc (hw a (List.mem_of_mem_head? ha))
  · have htake : (w ++ b).take 3 = w := by
      rw [← hlen, List.take_left]
    rw [longest_exactly, htake, hlen, if_pos ⟨by simp [hlen], hw⟩]

theorem candidates_param {a : UInt8} (ha : isMiddle a = true) (hc : a ≠ colon) :
    candidates rules .params a = [⟨on .params, param, .param⟩, charRule] := by
  have h1 : a ≠ space := ne_of_class ha rfl
  have h2 : a ≠ 13 := ne_of_class ha rfl
  have h3 : param.begins a = true := by
    rw [param, begins_seq_cls _ _ _ rfl, ha]
    simpa using hc
  simp [candidates, rules, on, onCommand, spaces, h1, h2, hc, h3, charRule]

theorem scan_param (hw : w ∈ param.lang) (hb : ∀ a ∈ b.head?, isMiddle a = false) :
    scan ⟨.params, w ++ b, n, record⟩ = .token .param (.sval w) ⟨.params, b, n, record⟩ := by
  obtain ⟨hne, hall, hc⟩ := mem_param.1 hw
  refine scan_rule (r := ⟨on .params, param, .param⟩) (fun a ha => ?_) hne rfl
    (longest_append (fun v hv => (mem_param.1 hv).2.1) hw hb)
  refine candidates_param (hall a (List.mem_of_mem_head? ha)) ?_
  rintro rfl
  exact hc ha

theorem candidates_trailing {a : UInt8} (ha : isTrailing a = true) :
    candidates rules .trailing a = [⟨on .trailing, trailingParam, .trailingParam⟩, charRule] := by
  have h1 : a ≠ 13 := ne_of_class ha rfl
  simp [candidates, rules, on, onCommand, trailingParam, h1, charRule]

theorem scan_trailingParam (hne : w ≠ []) (hw : ∀ a ∈ w, isTrailing a = true)
    (hb : ∀ a ∈ b.head?, isTrailing a = false) :
    scan ⟨.trailing, w ++ b, n, record⟩ = .token .param (.sval w) ⟨.trailing, b, n, record⟩ := by
  have hlen : 0 < w.length := List.length_pos_iff.2 hne
  refine (scan_rule (r := ⟨on .trailing, trailingParam, .trailingParam⟩) (fun a ha => ?_) hne rfl
    (longest_star hw hb)).trans (if_pos hlen)
  exact candidates_trailing (hw a (List.mem_of_mem_head? ha))

/-- The scanner has the token for the end of the message, and again if it is asked once more.
The lookahead is the first of the two if it has been read. -/
inductive Closed : Look Token Value → Start → List UInt8 → ℕ → Prop where
  | token {c c' : Start} {b b' : List UInt8} {n n' : ℕ}
      (h : ∀ record, Lexes scan ⟨c, b, n, record⟩ .end_ .none ⟨c', b', n', record⟩) :
      Closed (.token .end_ .none) c b n
  | empty {c c' : Start} {b b' : List UInt8} {n n' : ℕ}
      (h : ∀ record, Lexes scan ⟨c, b, n, record⟩ .end_ .none ⟨c', b', n', record⟩)
      (h' : Closed (.token .end_ .none) c' b' n') : Closed .empty c b n

theorem closed_frameBoundary (hc : onCommand c = true ∨ c = .params ∨ c = .trailing) (n : ℕ) :
    Closed .empty c frameBoundary n := by
  have hnil : Closed (.token .end_ .none) .initial [] (n + 1) := .token fun record => .token rfl
  rcases hc with hc | rfl | rfl
  · rcases of_decide_eq_true hc with rfl | rfl
    · exact .empty (fun record => .more rfl (.more rfl (.token rfl))) hnil
    · exact .empty (fun record => .token rfl) (.token fun record => .token rfl)
  · exact .empty (fun record => .more rfl (.more rfl (.token rfl))) hnil
  · exact .empty (fun record => .more rfl (.more rfl (.token rfl))) hnil

end ACENetwork.Irc
