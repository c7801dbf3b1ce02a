import Mathlib
import ACENetwork.Proofs.Irc.Driver

/-! Calls of the IRC scanner on any text at all, and on a text whose end was cut off. A token that
is not complete in front of the cut is shorter, or is not there. -/

namespace ACENetwork.Irc

open Flex Bison Pattern

variable {c c' : Start} {b b' w rest : List UInt8} {n m : ℕ} {record : Record} {k k' : Token} {v v' : Value}
  {name : RuleName}

/-- The start condition behind an action. -/
def RuleName.next (c : Start) : RuleName → Start
  | .prefix_ | .userName | .hostName => .prefix_
  | .blankLine | .endOfFrame => .endOfFrame
  | .spaces next => next
  | .user => .user
  | .host => .host
  | .trailing => .trailing
  | .endOfMessage => .initial
  | .origin | .numeric | .string | .param | .trailingParam | .invalidCharacter => c

def RuleName.value (yytext : List UInt8) : RuleName → Value
  | .prefix_ | .user | .host | .trailing => .ival 1
  | .spaces _ => .ival yytext.length
  | .numeric => .ival (number yytext)
  | .origin | .userName | .hostName | .string | .param | .trailingParam => .sval yytext
  | .blankLine | .endOfFrame | .endOfMessage | .invalidCharacter => .none

theorem act_some (hk : name.token = some k) (hw : w ≠ []) :
    act name w ⟨c, b, n, record⟩ = .token k (name.value w) ⟨name.next c, b, n, record⟩ := by
  have hlen : 0 < w.length := List.length_pos_iff.2 hw
  cases name with
  | trailingParam =>
    obtain rfl := Option.some.inj hk
    exact if_pos hlen
  | blankLine | endOfFrame | endOfMessage => cases hk
  | _ =>
    obtain rfl := Option.some.inj hk
    rfl

theorem act_none (hk : name.token = none) (w : List UInt8) (n : ℕ) :
    ∃ n', ∀ c b record, act name w ⟨c, b, n, record⟩ = .more ⟨name.next c, b, n', record⟩ := by
  cases name with
  | blankLine | endOfFrame => exact ⟨n, fun _ _ _ => rfl⟩
  | endOfMessage => exact ⟨n + 1, fun _ _ _ => rfl⟩
  | _ => cases hk

theorem select_pos (c : Start) (hb : b ≠ []) :
    ∃ name m, select rules c b = some (name, m) ∧ 0 < m ∧ m ≤ b.length := by
  have hchar : charRule.pattern.longest b = some 1 := (Pattern.longest_any _).trans (if_neg hb)
  have hrule : charRule ∈ rules := by simp [rules, charRule]
  obtain ⟨name, m, hsel, hm⟩ := le_select (c := c) hrule rfl hchar
  obtain ⟨r, -, -, -, hlong⟩ := select_sound hsel
  exact ⟨name, m, hsel, hm, (longest_sound hlong).1⟩

theorem select_bounds (hb : b ≠ []) (hs : select rules c b = some (name, m)) : 0 < m ∧ m ≤ b.length := by
  obtain ⟨name', m', hsel, hm⟩ := select_pos c hb
  obtain ⟨rfl, rfl⟩ : name = name' ∧ m = m' := by simpa [hs] using hsel
  exact hm

/-- A call of the scanner: where it starts, its token, and what it leaves. -/
inductive Call : Start → List UInt8 → Token → Value → Start → List UInt8 → Prop where
  | nil (c : Start) : Call c [] .end_ .none c []
  | token {c : Start} {b : List UInt8} {name : RuleName} {m : ℕ} {k : Token} (hb : b ≠ [])
    (hs : select rules c b = some (name, m)) (hk : name.token = some k) :
    Call c b k (name.value (b.take m)) (name.next c) (b.drop m)
  | more {c c' : Start} {b b' : List UInt8} {name : RuleName} {m : ℕ} {k : Token} {v : Value} (hb : b ≠ [])
    (hs : select rules c b = some (name, m)) (hk : name.token = none)
    (h : Call (name.next c) (b.drop m) k v c' b') : Call c b k v c' b'

theorem scan_select (hb : b ≠ []) (hs : select rules c b = some (name, m)) :
    scan ⟨c, b, n, record⟩ = act name (b.take m) ⟨c, b.drop m, n, record⟩ := by
  rw [scan, if_neg hb, hs]

theorem take_ne_nil (hb : b ≠ []) (hs : select rules c b = some (name, m)) : b.take m ≠ [] := by
  obtain ⟨hpos, -⟩ := select_bounds hb hs
  rw [Ne, List.take_eq_nil_iff]
  rintro (h | h)
  · omega
  · exact hb h

theorem Call.lexes (h : Call c b k v c' b') (n : ℕ) :
    ∃ n', ∀ record, Lexes scan ⟨c, b, n, record⟩ k v ⟨c', b', n', record⟩ := by
  induction h generalizing n with
  | nil c => exact ⟨n, fun record => .token rfl⟩
  | token hb hs hk =>
    refine ⟨n, fun record => .token ?_⟩
    rw [scan_select hb hs, act_some hk (take_ne_nil hb hs)]
  | @more c c' b b' name m k v hb hs hk _ ih =>
    obtain ⟨n₁, hact⟩ := act_none hk (b.take m) n
    obtain ⟨n', hlex⟩ := ih n₁
    refine ⟨n', fun record => .more ?_ (hlex record)⟩
    rw [scan_select hb hs, hact]

theorem Call.exists (c : Start) (b : List UInt8) : ∃ k v c' b', Call c b k v c' b' := by
  induction hlen : b.length using Nat.strong_induction_on generalizing c b with
  | _ len ih =>
    by_cases hb : b = []
    · subst hb
      exact ⟨_, _, _, _, .nil c⟩
    · obtain ⟨name, m, hs, hpos, hm⟩ := select_pos c hb
      cases hk : name.token with
      | some k => exact ⟨_, _, _, _, .token hb hs hk⟩
      | none =>
        have hlt : (b.drop m).length < len := by
          rw [List.length_drop]
          omega
        obtain ⟨k, v, c', b', h⟩ := ih _ hlt (name.next c) (b.drop m) rfl
        exact ⟨k, v, c', b', .more hb hs hk h⟩

theorem Call.unique {c₁ c₂ : Start} {b₁ b₂ : List UInt8} (h : Call c b k v c₁ b₁)
    (h' : Call c b k' v' c₂ b₂) : k = k' ∧ v = v' ∧ c₁ = c₂ ∧ b₁ = b₂ := by
  obtain ⟨n₁, hlex⟩ := h.lexes 0
  obtain ⟨n₂, hlex'⟩ := h'.lexes 0
  obtain ⟨hk, hv, hs⟩ := (hlex {}).unique (hlex' {})
  obtain ⟨hc, hb, -⟩ := State.mk.inj hs
  exact ⟨hk, hv, hc, hb⟩

theorem Call.of_lexes {s s' : State} (h : Lexes scan s k v s') :
    Call s.start s.buffer k v s'.start s'.buffer ∧ s'.record = s.record := by
  obtain ⟨k', v', c', b', hcall⟩ := Call.exists s.start s.buffer
  obtain ⟨n', hlex⟩ := hcall.lexes s.messageCount
  obtain ⟨rfl, rfl, rfl⟩ := h.unique (hlex s.record)
  exact ⟨hcall, rfl⟩

theorem Call.length_le (h : Call c b k v c' b') : b'.length ≤ b.length := by
  induction h with
  | nil => rfl
  | token => simp
  | more hb hs hk _ ih =>
    rw [List.length_drop] at ih
    omega

theorem Call.length_lt (h : Call c b k v c' b') (hk : k ≠ .end_) : b'.length < b.length := by
  cases h with
  | nil => exact absurd rfl hk
  | token hb hs _ =>
    obtain ⟨hpos, hm⟩ := select_bounds hb hs
    rw [List.length_drop]
    omega
  | more hb hs _ h =>
    obtain ⟨hpos, hm⟩ := select_bounds hb hs
    have hle := h.length_le
    rw [List.length_drop] at hle
    omega

/-- The scanner has two tokens for the end, which is what the grammar asks for. -/
def Ended (c : Start) (b : List UInt8) : Prop :=
  ∃ c₁ b₁ c₂ b₂, Call c b .end_ .none c₁ b₁ ∧ Call c₁ b₁ .end_ .none c₂ b₂

theorem ended_nil (c : Start) : Ended c [] := ⟨c, [], c, [], .nil c, .nil c⟩

theorem Ended.more (hb : b ≠ []) (hs : select rules c b = some (name, m)) (hk : name.token = none)
    (h : Ended (name.next c) (b.drop m)) : Ended c b := by
  obtain ⟨c₁, b₁, c₂, b₂, h₁, h₂⟩ := h
  exact ⟨c₁, b₁, c₂, b₂, .more hb hs hk h₁, h₂⟩

theorem ended_digits (hc : onCommand c = true) (hw : ∀ a ∈ w, isDigit a = true) (hlen : w.length < 3) :
    Ended c w := by
  have hend : ∀ w : List UInt8, w ≠ [] → (∀ a ∈ w, isDigit a = true) → w.length < 3 →
      Call c w .end_ .none c w.tail := by
    intro w hne hw hlen
    obtain ⟨a, w, rfl⟩ := List.exists_cons_of_ne_nil hne
    have hnone : (Pattern.exactly isDigit 3).longest (a :: w) = none := by
      rw [longest_exactly]
      exact if_neg fun h => absurd h.1 (by omega)
    have hsel : select rules c (a :: w) = some (.invalidCharacter, 1) := by
      rw [select_candidates, candidates_numeric hc (hw a List.mem_cons_self), select_cons_none hnone]
      simp [select, charRule, Pattern.longest_any]
    exact .token (by simp) hsel rfl
  cases w with
  | nil => exact ended_nil c
  | cons a w =>
    have hfirst := hend (a :: w) (by simp) hw hlen
    cases w with
    | nil => exact ⟨_, _, _, _, hfirst, .nil c⟩
    | cons a' w =>
      rw [List.length_cons] at hlen
      exact ⟨_, _, _, _, hfirst, hend (a' :: w) (by simp) (fun x hx => hw x (List.mem_cons_of_mem _ hx))
        (by omega)⟩

theorem literal_length {a : UInt8} {s : List UInt8} (h : (literal [a]).longest s = some m) : m = 1 := by
  obtain ⟨hm, hmem, -⟩ := longest_sound h
  have hlen := congrArg List.length ((mem_lang_literal [a] _).1 hmem)
  rw [List.length_take, min_eq_left hm] at hlen
  exact hlen

theorem any_length {s : List UInt8} (h : (Pattern.any : Pattern UInt8).longest s = some m) : m = 1 := by
  rw [Pattern.longest_any] at h
  split_ifs at h
  exact (Option.some.inj h).symm

theorem Call.of_scan {c c' : Start} {b b' : List UInt8}
    (h : scan ⟨c, b, 0, {}⟩ = .token k v ⟨c', b', 0, {}⟩) : Call c b k v c' b' :=
  (Call.of_lexes (.token h)).1

theorem call_spaces {on' : Start → Bool} {next : Start}
    (hc : candidates rules c space = [⟨on', spaces, .spaces next⟩, charRule]) (hon : on' c = true)
    (hb : b ≠ []) (hall : ∀ a ∈ b, a = space) : Call c b .space (.ival b.length) next [] := by
  obtain ⟨i, hi⟩ : ∃ i, b.length = i + 1 := Nat.exists_eq_succ_of_ne_zero (by simpa using hb)
  have hgap : b = gap i := by
    rw [gap, ← hi]
    exact List.eq_replicate_of_mem hall
  subst hgap
  have hscan : scan ⟨c, gap i ++ [], 0, {}⟩ = _ := scan_gap hc hon rfl (by simp)
  rw [List.append_nil] at hscan
  exact .of_scan hscan

/-- Every text that a prefix of a word of the origin has is one. -/
theorem origin_of_append {t : List UInt8} (hb : b ≠ []) (h : b ++ t ∈ (Pattern.alt nick host).lang) :
    b ∈ (Pattern.alt nick host).lang := by
  rcases h with h | h
  · obtain ⟨a, x, heq, ha, hx⟩ := (mem_lang_seq_star _ _ _).1 h
    obtain ⟨a', b, rfl⟩ := List.exists_cons_of_ne_nil hb
    obtain ⟨rfl, rfl⟩ := List.cons.inj heq
    exact .inl ((mem_lang_seq_star _ _ _).2 ⟨a', b, rfl, ha, fun y hy => hx y (List.mem_append_left _ hy)⟩)
  · exact .inr (mem_host.2 ⟨hb, fun y hy => (mem_host.1 h).2 y (List.mem_append_left _ hy)⟩)

theorem param_of_append {t : List UInt8} (hb : b ≠ []) (h : b ++ t ∈ param.lang) : b ∈ param.lang := by
  obtain ⟨-, hall, hhead⟩ := mem_param.1 h
  refine mem_param.2 ⟨hb, fun y hy => hall y (List.mem_append_left _ hy), ?_⟩
  rwa [List.head?_append_of_ne_nil _ hb] at hhead

/-- The tokens that stand for words, but for the numeric command. -/
def texts : List Token := [.origin, .user, .host, .cmdString, .param]

/-- What the scanner makes of the part in front of the cut of a match that goes on behind it. -/
inductive Straddles (c : Start) (b : List UInt8) (name : RuleName) : Prop where
  | spaces {v : Value} (hk : name.token = some .space) (h : Call c b .space v (name.next c) [])
  | text {k : Token} (hk : name.token = some k) (htext : k ∈ texts)
    (h : Call c b k (.sval b) (name.next c) []) (hvalue : ∀ w, name.value w = .sval w)
  | digits (hk : name.token = some .cmdNumeric) (h : Ended c b)

theorem straddles_text {k : Token} (hk : name.token = some k) (htext : k ∈ texts)
    (hvalue : ∀ w, name.value w = .sval w)
    (hscan : scan ⟨c, b ++ [], 0, {}⟩ = .token k (.sval b) ⟨name.next c, [], 0, {}⟩) : Straddles c b name := by
  rw [List.append_nil] at hscan
  exact .text hk htext (.of_scan hscan) hvalue

theorem straddles_spaces {on' : Start → Bool} {next : Start} (hb : b ≠ [])
    (hmem : b ++ rest ∈ spaces.lang) (hon : on' c = true)
    (hc : candidates rules c space = [⟨on', spaces, .spaces next⟩, charRule]) :
    Straddles c b (.spaces next) := by
  refine .spaces rfl (call_spaces hc hon hb fun a ha => ?_)
  simpa using ((mem_lang_plus _ _).1 hmem).2 a (List.mem_append_left _ ha)

theorem straddles_origin (hb : b ≠ []) (hmem : b ++ rest ∈ (Pattern.alt nick host).lang) :
    Straddles .prefix_ b .origin :=
  straddles_text rfl (by decide) (fun _ => rfl) (scan_origin (origin_of_append hb hmem) (by simp))

theorem straddles_user (hb : b ≠ []) (hmem : b ++ rest ∈ user.lang) : Straddles .user b .userName := by
  have hw : b ∈ user.lang :=
    mem_user.2 ⟨hb, fun y hy => (mem_user.1 hmem).2 y (List.mem_append_left _ hy)⟩
  exact straddles_text rfl (by decide) (fun _ => rfl) (scan_user hw (by simp))

theorem straddles_host (hb : b ≠ []) (hmem : b ++ rest ∈ host.lang) : Straddles .host b .hostName := by
  have hw : b ∈ host.lang :=
    mem_host.2 ⟨hb, fun y hy => (mem_host.1 hmem).2 y (List.mem_append_left _ hy)⟩
  exact straddles_text rfl (by decide) (fun _ => rfl) (scan_host hw (by simp))

theorem straddles_string (hb : b ≠ []) (hmem : b ++ rest ∈ (Pattern.plus isAlpha).lang)
    (hon : onCommand c = true) : Straddles c b .string := by
  have hall : ∀ a ∈ b, isAlpha a = true := fun y hy =>
    ((mem_lang_plus _ _).1 hmem).2 y (List.mem_append_left _ hy)
  exact straddles_text rfl (by decide) (fun _ => rfl) (scan_string hon hb hall (by simp))

theorem straddles_param (hb : b ≠ []) (hmem : b ++ rest ∈ param.lang) : Straddles .params b .param :=
  straddles_text rfl (by decide) (fun _ => rfl) (scan_param (param_of_append hb hmem) (by simp))

theorem straddles_trailing (hb : b ≠ []) (hmem : b ++ rest ∈ trailingParam.lang) :
    Straddles .trailing b .trailingParam := by
  have hall : ∀ a ∈ b, isTrailing a = true := fun y hy =>
    (mem_lang_star_cls _ _).1 hmem y (List.mem_append_left _ hy)
  exact straddles_text rfl (by decide) (fun _ => rfl) (scan_trailingParam hb hall (by simp))

theorem straddles_digits (hmem : b ++ rest ∈ (Pattern.exactly isDigit 3).lang)
    (hon : onCommand c = true) (hrest : rest ≠ []) : Straddles c b .numeric := by
  obtain ⟨hlen, hall⟩ := (mem_lang_exactly _ _ _).1 hmem
  have hpos : 0 < rest.length := List.length_pos_iff.2 hrest
  rw [List.length_append] at hlen
  exact .digits rfl (ended_digits hon (fun y hy => hall y (List.mem_append_left _ hy)) (by omega))

/-- The rules for a single octet are none that go on behind the cut. -/
theorem straddles (hb : b ≠ []) (hs : select rules c (b ++ rest) = some (name, m)) (hm : b.length < m) :
    Straddles c b name := by
  obtain ⟨r, hr, hon, rfl, hlong⟩ := select_sound hs
  obtain ⟨hle, hmem, -⟩ := longest_sound hlong
  have htake : (b ++ rest).take m = b ++ rest.take (m - b.length) := by
    rw [List.take_append, List.take_of_length_le (by omega)]
  have hrest : rest.take (m - b.length) ≠ [] := by
    rw [List.length_append] at hle
    rw [← List.length_pos_iff, List.length_take]
    omega
  rw [htake] at hmem
  have hpos : 0 < b.length := List.length_pos_iff.2 hb
  have hshort : m ≠ 1 := by omega
  have honly {c' : Start} (hon : on c' c = true) : c = c' := of_decide_eq_true hon
  simp only [rules, List.mem_cons, List.not_mem_nil, or_false] at hr
  rcases hr with rfl | rfl | rfl | rfl | rfl | rfl | rfl | rfl | rfl | rfl | rfl | rfl | rfl | rfl | rfl |
    rfl | rfl | rfl | rfl | rfl | rfl | rfl
  · exact absurd (literal_length hlong) hshort
  · exact absurd (literal_length hlong) hshort
  · obtain rfl := honly hon
    exact straddles_spaces hb hmem hon rfl
  · exact absurd (literal_length hlong) hshort
  · exact absurd (literal_length hlong) hshort
  · obtain rfl := honly hon
    exact straddles_origin hb hmem
  · obtain rfl := honly hon
    exact straddles_spaces hb hmem hon rfl
  · exact absurd (literal_length hlong) hshort
  · obtain rfl := honly hon
    exact straddles_user hb hmem
  · obtain rfl := honly hon
    exact straddles_spaces hb hmem hon rfl
  · obtain rfl := honly hon
    exact straddles_host hb hmem
  · obtain rfl | rfl : c = .initial ∨ c = .command := of_decide_eq_true hon
    · exact straddles_spaces hb hmem hon rfl
    · exact straddles_spaces hb hmem hon rfl
  · exact straddles_digits hmem hon hrest
  · exact straddles_string hb hmem hon
  · obtain rfl := honly hon
    exact straddles_spaces hb hmem hon rfl
  · exact absurd (literal_length hlong) hshort
  · exact absurd (literal_length hlong) hshort
  · obtain rfl := honly hon
    exact straddles_param hb hmem
  · exact absurd (literal_length hlong) hshort
  · obtain rfl := honly hon
    exact straddles_trailing hb hmem
  · exact absurd (literal_length hlong) hshort
  · exact absurd (any_length hlong) hshort

/-- What the scanner has for a text when there is a token `k` in the whole of it, and `rest` was
cut off: the same token, or the end, or a shorter one. -/
inductive Cut (c : Start) (b rest : List UInt8) (k : Token) (v : Value) (c' : Start) (left : List UInt8) : Prop where
  | within {b' : List UInt8} (hleft : left = b' ++ rest) (h : Call c b k v c' b')
  | ended (hlen : left.length < rest.length) (h : Ended c b)
  | spaces {v' : Value} (hlen : left.length < rest.length) (hk : k = .space) (h : Call c b .space v' c' [])
  | text {w w' : List UInt8} (hlen : left.length < rest.length) (htext : k ∈ texts) (hv : v = .sval w)
    (hne : w' ≠ w) (h : Call c b k (.sval w') c' [])

theorem Cut.more {left : List UInt8} (hb : b ≠ []) (hs : select rules c b = some (name, m))
    (hk : name.token = none) (h : Cut (name.next c) (b.drop m) rest k v c' left) : Cut c b rest k v c' left := by
  cases h with
  | within hleft h => exact .within hleft (.more hb hs hk h)
  | ended hlen h => exact .ended hlen (h.more hb hs hk)
  | spaces hlen hspace h => exact .spaces hlen hspace (.more hb hs hk h)
  | text hlen htext hv hne h => exact .text hlen htext hv hne (.more hb hs hk h)

theorem select_append (hs : select rules c (b ++ rest) = some (name, m)) (hm : m ≤ b.length) :
    select rules c b = some (name, m) := by
  simpa using select_take hs hm

theorem Call.cut {left : List UInt8} (h : Call c (b ++ rest) k v c' left) (hrest : rest ≠ []) :
    Cut c b rest k v c' left := by
  have hpos : 0 < rest.length := List.length_pos_iff.2 hrest
  generalize htext : b ++ rest = text at h
  induction h generalizing b with
  | nil c => exact absurd (List.append_eq_nil_iff.1 htext).2 hrest
  | @token c text name m k hne hs hk =>
    subst htext
    obtain ⟨hm0, hm⟩ := select_bounds hne hs
    by_cases hfits : m ≤ b.length
    · have hb : b ≠ [] := by
        rintro rfl
        rw [List.length_nil] at hfits
        omega
      have hcall := Call.token hb (select_append hs hfits) hk
      rw [List.take_append_of_le_length hfits, List.drop_append_of_le_length hfits]
      exact .within rfl hcall
    · have hlen : ((b ++ rest).drop m).length < rest.length := by
        rw [List.length_drop, List.length_append]
        omega
      by_cases hb : b = []
      · subst hb
        exact .ended hlen (ended_nil c)
      · cases straddles hb hs (by omega) with
        | spaces hk' h =>
          obtain rfl : k = .space := Option.some.inj (hk.symm.trans hk')
          exact .spaces hlen rfl h
        | text hk' htext h hvalue =>
          obtain rfl := Option.some.inj (hk.symm.trans hk')
          refine .text hlen htext (hvalue _) ?_ h
          intro heq
          have := congrArg List.length heq
          rw [List.length_take, min_eq_left hm] at this
          omega
        | digits hk' h => exact .ended hlen h
  | @more c c' text left name m k v hne hs hk hcall ih =>
    subst htext
    obtain ⟨hm0, hm⟩ := select_bounds hne hs
    by_cases hfits : m ≤ b.length
    · have hb : b ≠ [] := by
        rintro rfl
        rw [List.length_nil] at hfits
        omega
      rw [List.drop_append_of_le_length hfits] at hcall ih
      exact (ih rfl).more hb (select_append hs hfits) hk
    · have hlen : left.length < rest.length := by
        have hle := hcall.length_le
        rw [List.length_drop, List.length_append] at hle
        omega
      by_cases hb : b = []
      · subst hb
        exact .ended hlen (ended_nil c)
      · cases straddles hb hs (by omega) with
        | spaces hk' => exact absurd (hk.symm.trans hk') (by simp)
        | text hk' => exact absurd (hk.symm.trans hk') (by simp)
        | digits hk' => exact absurd (hk.symm.trans hk') (by simp)

end ACENetwork.Irc
