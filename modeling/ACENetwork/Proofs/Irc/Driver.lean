import Mathlib
import ACENetwork.Proofs.Irc.Grammar
import ACENetwork.Spec.Irc.Driver

/-! What is left of a frame in the next one. The scanner has the rules for a prefix only in its
initial start condition, and those for a command there and behind a prefix. In any other one its
first token for a well-formed frame is not one that a message starts with. -/

namespace ACENetwork.Irc

open Flex Bison Parser

variable {c : Start} {a : UInt8} {b w : List UInt8} {n : ℕ} {record : Record} {s : State}
  {r : Result Fault State} {d : Driver}

def RuleName.token : RuleName → Option Token
  | .prefix_ | .trailing => some .colon
  | .spaces _ => some .space
  | .user => some .bang
  | .host => some .at_
  | .origin => some .origin
  | .userName => some .user
  | .hostName => some .host
  | .numeric => some .cmdNumeric
  | .string => some .cmdString
  | .param | .trailingParam => some .param
  | .invalidCharacter => some .end_
  | .blankLine | .endOfFrame | .endOfMessage => none

theorem act_token {name : RuleName} {k : Token} (h : name.token = some k) (hw : w ≠ []) :
    ∃ v s', act name w s = .token k v s' ∧ s'.record = s.record := by
  have hlen : 0 < w.length := List.length_pos_iff.2 hw
  cases name with
  | trailingParam =>
    obtain rfl := Option.some.inj h
    exact ⟨.sval w, s, if_pos hlen, rfl⟩
  | blankLine | endOfFrame | endOfMessage => cases h
  | _ =>
    obtain rfl := Option.some.inj h
    exact ⟨_, _, rfl, rfl⟩

def Offers (c : Start) (a : UInt8) (ks : List Token) : Prop :=
  ∀ r ∈ candidates rules c a, ∃ k ∈ ks, r.name.token = some k

theorem Offers.scan {ks : List Token} (h : Offers c a ks) (b : List UInt8) (n : ℕ) (record : Record) :
    ∃ k ∈ ks, ∃ v s', Irc.scan ⟨c, a :: b, n, record⟩ = .token k v s' ∧ s'.record = record := by
  have hchar : charRule.pattern.longest (a :: b) = some 1 :=
    (Pattern.longest_any _).trans (if_neg (by simp))
  have hrule : charRule ∈ rules := by simp [rules, charRule]
  obtain ⟨name, m, hsel, hm⟩ := le_select (c := c) hrule rfl hchar
  obtain ⟨k, hk, hname⟩ : ∃ k ∈ ks, name.token = some k := by
    rw [select_candidates] at hsel
    obtain ⟨r, hr, -, rfl, -⟩ := select_sound hsel
    exact h r hr
  have hw : (a :: b).take m ≠ [] := by
    simp
    omega
  obtain ⟨v, s', hact, hs'⟩ := act_token (s := ⟨c, (a :: b).drop m, n, record⟩) hname hw
  refine ⟨k, hk, v, s', ?_, hs'⟩
  rw [Irc.scan, if_neg (by simp), hsel]
  exact hact

theorem record_act {name : RuleName} {s s' : State} (h : (act name w s).next = some s') :
    s'.record = s.record := by
  cases name with
  | trailingParam =>
    rw [act] at h
    split_ifs at h
    · rw [← Option.some.inj h]
    · rw [← Option.some.inj h]
  | _ => rw [← Option.some.inj h]

theorem record_scan {s' : State} (h : (scan s).next = some s') : s'.record = s.record := by
  unfold scan at h
  split at h
  · rw [← Option.some.inj h]
  · split at h
    · rename_i name m _
      exact record_act (s := { s with buffer := s.buffer.drop m }) h
    · cases h

def Keeps (record : Record) (r : Result Fault State) : Prop :=
  ∀ code s, r = .returned code s → s.record = record

theorem keeps_of_message {v : Value} (h : parser.Halts ⟨[(5, v)], .empty, s⟩ r) : Keeps s.record r := by
  have hreads : Reads (top [(5, v)]) := ⟨by simp [top, parser], rfl⟩
  rcases ((halts_enter hreads.1 hreads.2).1 h).lexes hreads.1 hreads.2 with ⟨k, v', s', hlex, hr⟩ | ⟨f, rfl⟩
  · have hrecord : s'.record = s.record :=
      hlex.of_next (fun x x' hx hnext => (record_scan hnext).trans hx) rfl
    intro code s'' hcode
    cases k with
    | end_ =>
      rw [halts_shift (q := 10) hreads.1 hreads.2 rfl rfl, halts_final rfl, hcode] at hr
      obtain ⟨-, rfl⟩ := Result.returned.inj hr
      exact hrecord
    | _ =>
      rw [halts_error hreads.1 hreads.2 rfl, hcode] at hr
      obtain ⟨-, rfl⟩ := Result.returned.inj hr
      exact hrecord
  · intro code s' h
    cases h

/-- The tokens that start no message, with the one that ends an empty one. -/
def misplaced : List Token := [.space, .origin, .user, .host, .param, .bang, .at_, .end_]

theorem keeps_of_token {k : Token} {v : Value} (hk : k ∈ misplaced)
    (h : parser.Halts ⟨[], .token k v, s⟩ r) : Keeps s.record r := by
  have hreads : Reads (top ([] : List (ℕ × Value))) := ⟨by decide, rfl⟩
  cases k with
  | end_ =>
    rw [halts_shift (q := 1) hreads.1 hreads.2 rfl rfl] at h
    exact keeps_of_message ((halts_default [(1, v)] [] rfl rfl rfl).1 h)
  | colon | cmdString | cmdNumeric => simp [misplaced] at hk
  | _ =>
    rw [halts_error hreads.1 hreads.2 rfl] at h
    rintro code s' rfl
    obtain ⟨-, rfl⟩ := Result.returned.inj h
    rfl

theorem keeps_of_misplaced (ha : Offers c a misplaced)
    (h : parser.Halts (Parser.start ⟨c, a :: b, n, record⟩) r) : Keeps record r := by
  obtain ⟨k, hk, v, s', hscan, hrecord⟩ := ha.scan b n record
  have hreads : Reads (top ([] : List (ℕ × Value))) := ⟨by decide, rfl⟩
  rw [Parser.start, halts_peek hreads hscan] at h
  exact hrecord ▸ keeps_of_token hk h

theorem keeps_of_trailing (ha : isTrailing a = true)
    (h : parser.Halts (Parser.start ⟨.params, colon :: a :: b, n, record⟩) r) : Keeps record r := by
  have hoffers : Offers .trailing a [.param, .end_] := by
    intro r hr
    rw [candidates_trailing ha] at hr
    rcases List.mem_pair.1 hr with rfl | rfl
    · exact ⟨.param, by simp, rfl⟩
    · exact ⟨.end_, by simp, rfl⟩
  obtain ⟨k, hk, v, s', hscan, rfl⟩ := hoffers.scan b n record
  have hstart : Reads (top ([] : List (ℕ × Value))) := ⟨by decide, rfl⟩
  have hcolon : Reads (top [(4, Value.ival 1)]) := ⟨by decide, rfl⟩
  have herror : action 4 k = .error := by rcases List.mem_pair.1 hk with rfl | rfl <;> rfl
  rw [Parser.start, halts_word (q := 4) hstart scan_trailing rfl, halts_peek hcolon hscan,
    halts_error hcolon.1 hcolon.2 herror] at h
  rintro code s'' rfl
  obtain ⟨-, rfl⟩ := Result.returned.inj h
  rfl

theorem offers_origin (hc : c = .prefix_ ∨ c = .user ∨ c = .host) : Offers c a misplaced := by
  have hrules : ∀ r ∈ rules, r.on c = true → ∃ k ∈ misplaced, r.name.token = some k := by
    rcases hc with rfl | rfl | rfl <;> decide
  intro r hr
  obtain ⟨hr, hon⟩ := List.mem_filter.1 hr
  exact hrules r hr (Bool.and_eq_true_iff.1 hon).1

theorem offers_trailing (ha : a ≠ 13) : Offers .trailing a misplaced := by
  have hcandidates : candidates rules .trailing a =
      [⟨on .trailing, trailingParam, .trailingParam⟩, charRule] := by
    simp [candidates, rules, on, onCommand, trailingParam, ha, charRule]
  intro r hr
  rw [hcandidates] at hr
  rcases List.mem_pair.1 hr with rfl | rfl
  · exact ⟨.param, by decide, rfl⟩
  · exact ⟨.end_, by decide, rfl⟩

theorem offers_endOfFrame (ha : a ≠ 10) : Offers .endOfFrame a misplaced := by
  have hcandidates : candidates rules .endOfFrame a = [charRule] := by
    simp [candidates, rules, on, onCommand, ha, charRule]
  intro r hr
  rw [hcandidates, List.mem_singleton] at hr
  subst hr
  exact ⟨.end_, by decide, rfl⟩

theorem offers_params (ha : isMiddle a = true) (hc : a ≠ colon) : Offers .params a misplaced := by
  intro r hr
  rw [candidates_param ha hc] at hr
  rcases List.mem_pair.1 hr with rfl | rfl
  · exact ⟨.param, by decide, rfl⟩
  · exact ⟨.end_, by decide, rfl⟩

theorem offers_command : Offers .command colon misplaced := by
  intro r hr
  have hcandidates : candidates rules .command colon = [charRule] := rfl
  rw [hcandidates, List.mem_singleton] at hr
  subst hr
  exact ⟨.end_, by decide, rfl⟩

theorem commandFrame_cons {command : Command} (h : command.Valid) :
    ∃ a w, commandFrame command = a :: w ∧ (isAlpha a || isDigit a) = true := by
  cases command with
  | numeric m =>
    have hlen := length_decimal h
    obtain ⟨a, w, hw⟩ := List.exists_cons_of_ne_nil (l := Streamer.decimal m.toNat) (by
      rintro h0
      simp [h0] at hlen)
    have ha := isDigit_decimal a (by rw [hw]; exact List.mem_cons_self)
    exact ⟨a, w, hw, by simp [ha]⟩
  | string w =>
    obtain ⟨a, w, rfl⟩ := List.exists_cons_of_ne_nil h.1
    exact ⟨a, w, rfl, by simp [h.2 a List.mem_cons_self]⟩
  | invalid => exact h.elim

theorem FrameText.command_ne {record : Record} (h : FrameText b record) : record.command ≠ .invalid := by
  cases h with
  | mk k hp hcommand hb =>
    rintro rfl
    exact hcommand.elim

theorem FrameText.starts {record : Record} (h : FrameText b record) :
    (record.prefix_ = {} ∧ ∃ a w, b = a :: w ∧ (isAlpha a || isDigit a) = true) ∨
      (record.prefix_ ≠ {} ∧ ∃ a w, b = colon :: a :: w ∧ isTrailing a = true) := by
  cases h with
  | @mk k p command b ps hp hcommand hb =>
    rcases hp with rfl | ⟨horigin, -, -⟩
    · obtain ⟨a, w, hw, ha⟩ := commandFrame_cons hcommand
      refine Or.inl ⟨rfl, a, w ++ (b ++ frameBoundary), ?_, ha⟩
      rw [hw]
      rfl
    · obtain ⟨hne, hall⟩ := mem_origin horigin
      obtain ⟨a, w, hw⟩ := List.exists_cons_of_ne_nil hne
      have ha : (isNick a || isHost a) = true := hall a (by rw [hw]; exact List.mem_cons_self)
      have h0 : a ≠ 0 := ne_of_class (p := fun a => isNick a || isHost a) ha rfl
      have h13 : a ≠ 13 := ne_of_class (p := fun a => isNick a || isHost a) ha rfl
      have h10 : a ≠ 10 := ne_of_class (p := fun a => isNick a || isHost a) ha rfl
      refine Or.inr ⟨fun hp => hne (congrArg Prefix.origin hp), a, ?_, ?_, ?_⟩
      rotate_left
      · rw [prefixText, if_neg hne, hw]
        rfl
      · simp [isTrailing, h0, h13, h10]

/-- In a start condition without the rules for its first part, a frame leaves the record as it
was. -/
theorem keeps_of_frameText {record record' : Record} (h : FrameText b record)
    (hc : c ≠ .initial ∧ (c = .command → record.prefix_ ≠ {}))
    (hr : parser.Halts (Parser.start ⟨c, b, n, record'⟩) r) : Keeps record' r := by
  rcases h.starts with ⟨hp, a, w, rfl, ha⟩ | ⟨-, a, w, rfl, ha⟩
  · have h0 : a ≠ 13 := ne_of_class (p := fun a => isAlpha a || isDigit a) ha rfl
    have h1 : a ≠ 10 := ne_of_class (p := fun a => isAlpha a || isDigit a) ha rfl
    have h2 : a ≠ colon := ne_of_class (p := fun a => isAlpha a || isDigit a) ha rfl
    have h3 : a ≠ 32 := ne_of_class (p := fun a => isAlpha a || isDigit a) ha rfl
    have h4 : a ≠ 0 := ne_of_class (p := fun a => isAlpha a || isDigit a) ha rfl
    cases c with
    | initial => exact absurd rfl hc.1
    | prefix_ => exact keeps_of_misplaced (offers_origin (Or.inl rfl)) hr
    | user => exact keeps_of_misplaced (offers_origin (Or.inr (Or.inl rfl))) hr
    | host => exact keeps_of_misplaced (offers_origin (Or.inr (Or.inr rfl))) hr
    | command => exact absurd hp (hc.2 rfl)
    | params => exact keeps_of_misplaced (offers_params (by simp [isMiddle, h0, h1, h3, h4]) h2) hr
    | trailing => exact keeps_of_misplaced (offers_trailing h0) hr
    | endOfFrame => exact keeps_of_misplaced (offers_endOfFrame h1) hr
  · cases c with
    | initial => exact absurd rfl hc.1
    | prefix_ => exact keeps_of_misplaced (offers_origin (Or.inl rfl)) hr
    | user => exact keeps_of_misplaced (offers_origin (Or.inr (Or.inl rfl))) hr
    | host => exact keeps_of_misplaced (offers_origin (Or.inr (Or.inr rfl))) hr
    | command => exact keeps_of_misplaced offers_command hr
    | params => exact keeps_of_trailing ha hr
    | trailing => exact keeps_of_misplaced (offers_trailing (by decide)) hr
    | endOfFrame => exact keeps_of_misplaced (offers_endOfFrame (by decide)) hr

namespace Driver

theorem parses_new {record : Record} (h : FrameText b record) (hd : d.start = .initial) (p : Parsed) :
    d.Parses b p ↔ p = .returned true record := by
  obtain ⟨c, n⟩ := d
  obtain rfl := hd
  exact ends_frameText h

theorem parses_command {record : Record} (h : FrameText b record) (hp : record.prefix_ = {})
    (hd : d.start = .command) (p : Parsed) : d.Parses b p ↔ p = .returned true record := by
  obtain ⟨c, n⟩ := d
  obtain rfl := hd
  cases h with
  | mk k _ hcommand hb =>
    obtain rfl := hp
    exact ends_command (Or.inl rfl) rfl hcommand hb ⟨rfl, rfl⟩

/-- A driver makes of a well-formed frame what a new one makes of it, exactly in these start
conditions. -/
theorem asNew_iff {record : Record} (h : FrameText b record) :
    (∀ p, d.Parses b p ↔ ({} : Driver).Parses b p) ↔
      d.start = .initial ∨ (d.start = .command ∧ record.prefix_ = {}) := by
  refine ⟨fun hnew => ?_, fun hd p => ?_⟩
  · by_contra hd
    obtain ⟨r, hr, hp⟩ := (hnew _).2 ((parses_new h rfl _).2 rfl)
    have hkeeps : Keeps {} r := keeps_of_frameText h
      ⟨fun hc => hd (Or.inl hc), fun hc hp => hd (Or.inr ⟨hc, hp⟩)⟩ hr
    cases r with
    | fault f => cases hp
    | returned code s =>
      obtain ⟨-, hrecord⟩ := Parsed.returned.inj hp
      rw [hkeeps code s rfl] at hrecord
      exact h.command_ne (by rw [hrecord])
  · rw [parses_new (d := {}) h rfl]
    rcases hd with hd | ⟨hd, hp⟩
    · exact parses_new h hd p
    · exact parses_command h hp hd p

theorem after_append {frames : List (List UInt8)} (h : After (frames ++ [b]) d) :
    ∃ d' code s, After frames d' ∧ d'.Halts b (.returned code s) ∧ d = ⟨s.start, s.messageCount⟩ := by
  generalize hbefore : frames ++ [b] = before at h
  cases h with
  | new => simp at hbefore
  | parse h hp =>
    obtain ⟨rfl, hb⟩ := List.append_inj' hbefore rfl
    obtain rfl := List.singleton_inj.1 hb
    exact ⟨_, _, _, h, hp, rfl⟩

theorem after_nil (h : After [] d) : d = {} := by
  generalize hbefore : [] = before at h
  cases h with
  | new => rfl
  | parse h hp => simp at hbefore

/-- The start condition that the frames before a well-formed one have left must be the initial
one, or that of a command if the frame has no prefix. -/
theorem isolated_iff {before : List (List UInt8)} {record : Record} (h : FrameText b record) :
    Isolated before b ↔
      ∀ d, After before d → d.start = .initial ∨ (d.start = .command ∧ record.prefix_ = {}) :=
  forall_congr' fun _ => imp_congr_right fun _ => asNew_iff h

theorem frameText_ping : FrameText [80, 73, 78, 71, 32, 97, 13, 10]
    ⟨{}, .string [80, 73, 78, 71], [[97]], []⟩ := by
  have hcommand : (Command.string [80, 73, 78, 71]).Valid := ⟨by decide, List.all_eq_true.1 (by decide)⟩
  have hparam : [97] ∈ param.lang := mem_param.2 ⟨by decide, List.all_eq_true.1 (by decide), by decide⟩
  exact .mk 0 (Or.inl rfl) hcommand (.middle 0 hparam .none)

/-- Behind an empty line. -/
theorem isolated_ping : Isolated [[13, 10]] [80, 73, 78, 71, 32, 97, 13, 10] := by
  refine (isolated_iff frameText_ping).2 fun d hd => ?_
  have hbefore : After ([] ++ [[13, 10]]) d := hd
  obtain ⟨d', code, s, hd', hs, rfl⟩ := after_append hbefore
  obtain rfl := after_nil hd'
  have hblank : ({} : Driver).Halts [13, 10] (.returned .accepted ⟨.initial, [], 1, {}⟩) := ⟨10, rfl⟩
  obtain ⟨-, rfl⟩ := Result.returned.inj (hs.unique hblank)
  exact Or.inl rfl

/-- Behind a prefix without an origin, which is rejected and leaves the rules for a prefix. -/
theorem ping_not_isolated :
    ¬ ∀ (before : List (List UInt8)) (b : List UInt8) (record : Record), FrameText b record →
      Isolated before b := by
  intro h
  have hrejected : ({} : Driver).Halts [58, 13, 10] (.returned .rejected ⟨.prefix_, [10], 0, {}⟩) :=
    ⟨6, rfl⟩
  have hd := (asNew_iff frameText_ping).1 (h _ _ _ frameText_ping _ (.parse .new hrejected))
  simp at hd

end Driver

end ACENetwork.Irc
