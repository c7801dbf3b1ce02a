import Mathlib
import ACENetwork.Proofs.Irc.Scanner
import ACENetwork.Spec.Irc.Wire

/-! The parser over a frame, from its prefix to its end. Parameters are read to the end before
the first of them is stored, so the lemmas about them speak about the stack with the
nonterminal `params` on top, and the token that ends the message either read or not. -/

namespace ACENetwork.Irc

open Flex Bison Parser

variable {c : Start} {b w : List UInt8} {n : ℕ} {record : Record} {stack : List (ℕ × Value)}
  {r : Result Fault State} {look : Look Token Value} {s s' : State} {q k : ℕ} {v : Value}

/-- The states in which a token is needed. -/
def Reads (q : ℕ) : Prop := q ≠ parser.final ∧ parser.consistent q = none

theorem halts_peek (h : Reads (top stack)) {t : Token} (hs : scan s = .token t v s') :
    parser.Halts ⟨stack, .empty, s⟩ r ↔ parser.Halts ⟨stack, .token t v, s'⟩ r :=
  halts_read h.1 h.2 hs

theorem halts_word (h : Reads (top stack)) {t : Token} (hs : scan s = .token t v s')
    (ha : action (top stack) t = .shift q) :
    parser.Halts ⟨stack, .empty, s⟩ r ↔ parser.Halts ⟨(q, v) :: stack, .empty, s'⟩ r :=
  (halts_peek h hs).trans (halts_shift h.1 h.2 ha rfl)

theorem halts_default (args rest : List (ℕ × Value)) {rule : GrammarRule}
    (h : consistent (top (args ++ rest)) = some rule)
    (ha : args.length = arity rule) (hv : semantics rule (args.map Prod.snd).reverse s = .value v s') :
    parser.Halts ⟨args ++ rest, look, s⟩ r ↔
      parser.Halts ⟨(goto (top rest) rule, v) :: rest, look, s'⟩ r := by
  refine halts_reduce args rest (fun hf => ?_) (Or.inl h) ha hv rfl
  rw [hf] at h
  simp [parser, consistent] at h

def InPrefix (q : ℕ) : Prop := q = 9 ∨ q = 25 ∨ q = 26

theorem InPrefix.reads (h : InPrefix q) : Reads q := by
  rcases h with rfl | rfl | rfl <;> exact ⟨by decide, rfl⟩

theorem InPrefix.action (h : InPrefix q) (k : Token) : Irc.action q k = extPrefixAction k := by
  rcases h with rfl | rfl | rfl <;> rfl

theorem halts_prefix_gap (h : InPrefix (top stack)) (hb : ∀ a ∈ b.head?, a ≠ space) :
    parser.Halts ⟨stack, .empty, ⟨.prefix_, gap k ++ b, n, record⟩⟩ r ↔
      parser.Halts ⟨(goto (top stack) .extPrefixSpace, .none) :: stack, .empty,
        ⟨.command, b, n, record⟩⟩ r := by
  refine (halts_word h.reads (scan_prefix_gap hb) (h.action _)).trans ?_
  exact halts_default [(16, .ival (gap k).length)] stack rfl rfl rfl

/-- What stands behind the origin does not belong to any of the words in front of it. -/
theorem head?_gap {a : UInt8} (h : a ∈ (gap k ++ b).head?) : a = space := by
  simpa [gap, List.replicate_succ, eq_comm] using h

/-- The three rules for what follows the origin lead to the same state. -/
theorem InPrefix.goto (h : InPrefix q) :
    Irc.goto q .extPrefixUser = Irc.goto q .extPrefixSpace ∧
      Irc.goto q .extPrefixHost = Irc.goto q .extPrefixSpace := by
  rcases h with rfl | rfl | rfl <;> exact ⟨rfl, rfl⟩

theorem head?_optional {mark : UInt8} {part : List UInt8} {a : UInt8}
    (h : a ∈ (optional mark part ++ b).head?) : a = mark ∨ part = [] ∧ a ∈ b.head? := by
  unfold optional at h
  split_ifs at h with hp
  · exact Or.inr ⟨hp, h⟩
  · exact Or.inl (Option.some.inj h).symm

theorem halts_prefix_host (h : InPrefix (top stack)) (hw : w = [] ∨ w ∈ host.lang)
    (hb : ∀ a ∈ b.head?, a ≠ space) (hr : record.prefix_.host = []) :
    parser.Halts ⟨stack, .empty,
        ⟨.prefix_, optional commercialAt w ++ (gap k ++ b), n, record⟩⟩ r ↔
      parser.Halts ⟨(Irc.goto (top stack) .extPrefixSpace, .none) :: stack, .empty,
        ⟨.command, b, n, { record with prefix_ := { record.prefix_ with host := w } }⟩⟩ r := by
  rcases hw with rfl | hw
  · obtain ⟨⟨_, _, _⟩, _, _, _⟩ := record
    obtain rfl := hr
    exact halts_prefix_gap h hb
  · rw [optional, if_neg (mem_host.1 hw).1, List.cons_append]
    refine (halts_word h.reads scan_at (h.action _)).trans ?_
    refine (halts_word ⟨by simp [top, parser], rfl⟩ (scan_host hw fun a ha => by
      rw [head?_gap ha]
      rfl) rfl).trans ?_
    refine (halts_prefix_gap (Or.inr (Or.inr rfl)) hb).trans ?_
    rw [← h.goto.2]
    exact halts_default [(28, .none), (26, .sval w), (18, .ival 1)] stack rfl rfl rfl

theorem halts_prefix_user (h : InPrefix (top stack)) {u : List UInt8} (hu : u = [] ∨ u ∈ user.lang)
    (hw : w = [] ∨ w ∈ host.lang) (hb : ∀ a ∈ b.head?, a ≠ space)
    (hr : record.prefix_.user = [] ∧ record.prefix_.host = []) :
    parser.Halts ⟨stack, .empty,
        ⟨.prefix_, optional bang u ++ (optional commercialAt w ++ (gap k ++ b)), n, record⟩⟩ r ↔
      parser.Halts ⟨(Irc.goto (top stack) .extPrefixSpace, .none) :: stack, .empty,
        ⟨.command, b, n, { record with
          prefix_ := { record.prefix_ with user := u, host := w } }⟩⟩ r := by
  rcases hu with rfl | hu
  · obtain ⟨⟨_, _, _⟩, _, _, _⟩ := record
    obtain ⟨rfl, hr⟩ := hr
    exact halts_prefix_host h hw hb hr
  · rw [optional, if_neg (mem_user.1 hu).1, List.cons_append]
    refine (halts_word h.reads scan_bang (h.action _)).trans ?_
    have hhead : ∀ a ∈ (optional commercialAt w ++ (gap k ++ b)).head?, isUser a = false := by
      intro a ha
      rcases head?_optional ha with rfl | ⟨-, ha⟩
      · decide
      · rw [head?_gap ha]
        decide
    refine (halts_word ⟨by simp [top, parser], rfl⟩ (scan_user hu hhead) rfl).trans ?_
    refine (halts_prefix_host (Or.inr (Or.inl rfl)) hw hb hr.2).trans ?_
    rw [← h.goto.1]
    exact halts_default [(27, .none), (25, .sval u), (17, .ival 1)] stack rfl rfl rfl

theorem halts_prefixText {p : Prefix} (hp : p.origin ∈ (Pattern.alt nick host).lang)
    (hu : p.user = [] ∨ p.user ∈ user.lang) (hw : p.host = [] ∨ p.host ∈ host.lang)
    (hb : ∀ a ∈ b.head?, a ≠ space) (hr : record.prefix_ = {}) :
    parser.Halts ⟨[], .empty, ⟨.initial, prefixText p k ++ b, n, record⟩⟩ r ↔
      parser.Halts ⟨[(6, .none)], .empty, ⟨.command, b, n, { record with prefix_ := p }⟩⟩ r := by
  rw [prefixText, if_neg (mem_origin hp).1]
  simp only [List.cons_append, List.append_assoc]
  refine (halts_word ⟨by simp [top, parser], rfl⟩ scan_colon rfl).trans ?_
  have hhead : ∀ a ∈ (optional bang p.user ++ (optional commercialAt p.host ++ (gap k ++ b))).head?,
      (isNick a || isHost a) = false := by
    intro a ha
    rcases head?_optional ha with rfl | ⟨-, ha⟩
    · decide
    rcases head?_optional ha with rfl | ⟨-, ha⟩
    · decide
    · rw [head?_gap ha]
      decide
  refine (halts_word ⟨by simp [top, parser], rfl⟩ (scan_origin hp hhead) rfl).trans ?_
  refine (halts_prefix_user (Or.inl rfl) hu hw hb (by simp [hr])).trans ?_
  exact halts_default [(19, .none), (9, .sval p.origin), (4, .ival 1)] [] rfl rfl rfl

theorem length_decimal {m : ℕ} (h : m ≤ 999) : (Streamer.decimal m).length = 3 := by
  have hlen : (Nat.digits 10 m).length ≤ 3 := (Nat.digits_length_le_iff (by decide) m).2 (by omega)
  simp only [Streamer.decimal, List.length_reverse, List.length_map, List.length_append,
    List.length_replicate]
  omega

/-- The digits that stand for a number, the zeros in front of it included. -/
theorem mem_decimal {m d : ℕ} (h : d ∈ Nat.digits 10 m ++
    List.replicate (3 - (Nat.digits 10 m).length) 0) : d < 10 := by
  rcases List.mem_append.1 h with h | h
  · exact Nat.digits_lt_base (by decide) h
  · rw [List.eq_of_mem_replicate h]
    decide

theorem isDigit_decimal {m : ℕ} : ∀ a ∈ Streamer.decimal m, isDigit a = true := by
  intro a ha
  obtain ⟨d, hd, rfl⟩ := List.mem_map.1 (List.mem_reverse.1 ha)
  have := mem_decimal hd
  interval_cases d <;> decide

theorem number_decimal {m : ℕ} : number (Streamer.decimal m) = m := by
  have hmap : (Nat.digits 10 m ++ List.replicate (3 - (Nat.digits 10 m).length) 0).map
      ((fun a : UInt8 => (a - 48).toNat) ∘ fun d => 48 + UInt8.ofNat d) =
        Nat.digits 10 m ++ List.replicate (3 - (Nat.digits 10 m).length) 0 := by
    refine (List.map_congr_left fun d hd => ?_).trans (List.map_id _)
    have := mem_decimal hd
    interval_cases d <;> rfl
  rw [number, Streamer.decimal, List.reverse_reverse, List.map_map, hmap,
    Nat.ofDigits_append_replicate_zero, Nat.ofDigits_digits]

theorem halts_command {command : Command} (h : command.Valid) (hc : onCommand c = true)
    (hq : top stack = 0 ∨ top stack = 6) (hb : ∀ a ∈ b.head?, isAlpha a = false)
    (hr : record.command = .invalid) :
    parser.Halts ⟨stack, .empty, ⟨c, commandFrame command ++ b, n, record⟩⟩ r ↔
      parser.Halts ⟨(8, .none) :: stack, .empty, ⟨c, b, n, { record with command := command }⟩⟩ r := by
  have hreads : Reads (top stack) := by
    rcases hq with h | h <;> rw [h] <;> exact ⟨by decide, rfl⟩
  cases command with
  | numeric m =>
    have hm : m.toNat ≤ 999 := h
    have ha : action (top stack) .cmdNumeric = .shift 3 := by rcases hq with h | h <;> rw [h] <;> rfl
    refine (halts_word hreads (scan_numeric hc (length_decimal hm) isDigit_decimal) ha).trans ?_
    rw [number_decimal]
    have hv : semantics .commandNumeric [.ival m.toNat] ⟨c, b, n, record⟩ = .value .none
        ⟨c, b, n, { record with command := .numeric m }⟩ := by simp [semantics]
    exact halts_default [(3, .ival m.toNat)] stack rfl rfl hv
  | string w =>
    obtain ⟨hne, hw⟩ := h
    have ha : action (top stack) .cmdString = .shift 2 := by rcases hq with h | h <;> rw [h] <;> rfl
    refine (halts_word hreads (scan_string hc hne hw hb) ha).trans ?_
    have hv : semantics .commandString [.sval w] ⟨c, b, n, record⟩ = .value .none
        ⟨c, b, n, { record with command := .string w }⟩ := if_pos hr
    exact halts_default [(2, .sval w)] stack rfl rfl hv
  | invalid => exact h.elim

def InParams (q : ℕ) : Prop := q = 8 ∨ q = 12 ∨ q = 13

theorem InParams.reads (h : InParams q) : Reads q := by
  rcases h with rfl | rfl | rfl <;> exact ⟨by decide, rfl⟩

theorem InParams.action (h : InParams q) (k : Token) : Irc.action q k = paramsAction k := by
  rcases h with rfl | rfl | rfl <;> rfl

/-- The four rules for parameters lead to the same state. -/
theorem InParams.goto (h : InParams q) : Irc.goto q .paramsSpace = Irc.goto q .paramsEmpty ∧
    Irc.goto q .paramsTrailing = Irc.goto q .paramsEmpty ∧
    Irc.goto q .paramsParam = Irc.goto q .paramsEmpty := by
  rcases h with rfl | rfl | rfl <;> exact ⟨rfl, rfl, rfl⟩

def params (stack : List (ℕ × Value)) : List (ℕ × Value) :=
  (goto (top stack) .paramsEmpty, .none) :: stack

theorem halts_params_space (h : InParams (top stack)) :
    parser.Halts ⟨(20, .none) :: (12, v) :: stack, look, s⟩ r ↔
      parser.Halts ⟨params stack, look, s⟩ r := by
  rw [params, ← h.goto.1]
  exact halts_default [(20, .none), (12, v)] stack rfl rfl rfl

theorem halts_params_trailing (h : InParams (top stack)) :
    parser.Halts ⟨(23, .none) :: (14, .ival 1) :: stack, look, s⟩ r ↔
      parser.Halts ⟨params stack, look, s⟩ r := by
  rw [params, ← h.goto.2.1]
  exact halts_default [(23, .none), (14, .ival 1)] stack rfl rfl rfl

theorem halts_params_param (h : InParams (top stack)) :
    parser.Halts ⟨(21, .none) :: (13, .sval w) :: stack, look, s⟩ r ↔
      parser.Halts ⟨params stack, look, pushParameter w s⟩ r := by
  rw [params, ← h.goto.2.2]
  exact halts_default [(21, .none), (13, .sval w)] stack rfl rfl rfl

/-- From `stack` and the rest of a frame, the parser stores the parameters `ps` and stands
before the end of the message. -/
def Stores (stack : List (ℕ × Value)) (c : Start) (b : List UInt8) (n : ℕ) (ps : List (List UInt8)) :
    Prop :=
  ∃ look c' b' n', Closed look c' b' n' ∧ ∀ record r,
    parser.Halts ⟨stack, .empty, ⟨c, b, n, record⟩⟩ r ↔
      parser.Halts ⟨params stack, look,
        ⟨c', b', n', { record with parameters := ps ++ record.parameters }⟩⟩ r

theorem stores_nothing (h : InParams (top stack)) (hb : Closed .empty c b n) :
    Stores stack c b n [] := by
  cases hb with
  | empty hlex hclosed =>
    refine ⟨_, _, _, _, hclosed, fun record r => (halts_lex h.reads.1 h.reads.2 (hlex record)).trans ?_⟩
    exact halts_reduce [] stack h.reads.1 (Or.inr ⟨h.reads.2, _, _, rfl, h.action .end_⟩) rfl rfl rfl

theorem stores_gap (h : InParams (top stack)) (hc : onCommand c = true ∨ c = .params)
    (hb : ∀ a ∈ b.head?, a ≠ space) {ps : List (List UInt8)}
    (hs : Stores ((12, .ival (gap k).length) :: stack) .params b n ps) :
    Stores stack c (gap k ++ b) n ps := by
  have hscan : ∀ record, scan ⟨c, gap k ++ b, n, record⟩ =
      .token .space (.ival (gap k).length) ⟨.params, b, n, record⟩ := fun record => by
    rcases hc with hc | rfl
    · exact scan_gap_command hc hb
    · exact scan_gap_params hb
  obtain ⟨look, c', b', n', hclosed, hrest⟩ := hs
  refine ⟨look, c', b', n', hclosed, fun record r => ?_⟩
  refine (halts_word h.reads (hscan record) (h.action _)).trans ?_
  exact (hrest record r).trans (halts_params_space h)

theorem stores_middle (h : InParams (top stack)) (hw : w ∈ param.lang)
    (hb : ∀ a ∈ b.head?, isMiddle a = false) {ps : List (List UInt8)}
    (hs : Stores ((13, .sval w) :: stack) .params b n ps) :
    Stores stack .params (w ++ b) n (w :: ps) := by
  obtain ⟨look, c', b', n', hclosed, hrest⟩ := hs
  refine ⟨look, c', b', n', hclosed, fun record r => ?_⟩
  refine (halts_word h.reads (scan_param hw hb) (h.action _)).trans ?_
  exact (hrest record r).trans (halts_params_param h)

theorem stores_trailing (h : InParams (top stack)) (hw : ∀ a ∈ w, isTrailing a = true) :
    Stores stack .params (colon :: (w ++ frameBoundary)) n (if w = [] then [] else [w]) := by
  have hcolon : ∀ record r,
      parser.Halts ⟨stack, .empty, ⟨.params, colon :: (w ++ frameBoundary), n, record⟩⟩ r ↔
        parser.Halts ⟨(14, .ival 1) :: stack, .empty,
          ⟨.trailing, w ++ frameBoundary, n, record⟩⟩ r :=
    fun record r => halts_word h.reads scan_trailing (h.action _)
  have hreads : Reads (top ((14, Value.ival 1) :: stack)) := ⟨by simp [top, parser], rfl⟩
  have hclosed := closed_frameBoundary (c := .trailing) (Or.inr (Or.inr rfl)) n
  by_cases hne : w = []
  · subst hne
    rw [if_pos rfl]
    cases hclosed with
    | empty hlex hclosed =>
      refine ⟨_, _, _, _, hclosed, fun record r => (hcolon record r).trans ?_⟩
      refine (halts_lex hreads.1 hreads.2 (hlex record)).trans (Iff.trans ?_ (halts_params_trailing h))
      have hreduces : Reduces parser (top ((14, Value.ival 1) :: stack)) (.token .end_ .none)
          .trailingEmpty := Or.inr ⟨hreads.2, _, _, rfl, rfl⟩
      exact halts_reduce [] ((14, .ival 1) :: stack) hreads.1 hreduces rfl rfl rfl
  · rw [if_neg hne]
    refine ⟨_, _, _, _, hclosed, fun record r => (hcolon record r).trans ?_⟩
    refine (halts_word hreads (scan_trailingParam hne hw (by simp [frameBoundary]; decide)) rfl).trans ?_
    exact (halts_default [(22, .sval w)] ((14, .ival 1) :: stack) rfl rfl rfl).trans
      (halts_params_trailing h)

/-- Behind a parameter stands a SPACE or the end of the frame. -/
theorem head?_parametersText {ps : List (List UInt8)} (hb : ParametersText b ps) :
    ∀ a ∈ (b ++ frameBoundary).head?, a = space ∨ a = 13 := by
  intro a ha
  cases hb with
  | none => exact Or.inr (Option.some.inj ha).symm
  | gap k => exact Or.inl (head?_gap ha)
  | middle k hw hb =>
    rw [List.append_assoc] at ha
    exact Or.inl (head?_gap ha)
  | trailing k hw =>
    rw [List.append_assoc] at ha
    exact Or.inl (head?_gap ha)

/-- The parser over the parameters. The induction over their text carries the stack under which
the rest of them is read. -/
theorem stores_parametersText {ps : List (List UInt8)} (hb : ParametersText b ps)
    (h : InParams (top stack)) (hc : onCommand c = true ∨ c = .params) :
    Stores stack c (b ++ frameBoundary) n ps := by
  have hgap : ∀ k, InParams (top ((12, Value.ival (gap k).length) :: stack)) := fun _ =>
    Or.inr (Or.inl rfl)
  induction hb generalizing stack c with
  | none => exact stores_nothing h (closed_frameBoundary (hc.imp_right Or.inl) n)
  | gap k =>
    refine stores_gap h hc (by simp [frameBoundary]; decide) ?_
    exact stores_nothing (hgap k) (closed_frameBoundary (Or.inr (Or.inl rfl)) n)
  | @middle k w b ps hw hb ih =>
    rw [List.append_assoc, List.append_assoc]
    refine stores_gap h hc (fun a ha => ?_) (stores_middle (hgap k) hw (fun a ha => ?_) ?_)
    · obtain ⟨hne, hm, -⟩ := mem_param.1 hw
      rw [List.head?_append_of_ne_nil _ hne] at ha
      exact ne_of_class (hm a (List.mem_of_mem_head? ha)) rfl
    · rcases head?_parametersText hb a ha with rfl | rfl <;> rfl
    · exact ih (Or.inr (Or.inr rfl)) (Or.inr rfl) fun _ => Or.inr (Or.inl rfl)
  | trailing k hw =>
    rw [List.append_assoc]
    exact stores_gap h hc (by simp; decide) (stores_trailing (hgap k) hw)

/-- How `IRC_ParserDriver::parse` ends if the parser stands in the given configuration. -/
def Ends (c : Config Token Value State) (x : Parsed) : Prop := ∃ r, parser.Halts c r ∧ x = parsed r

theorem Ends.congr {c c' : Config Token Value State} {x : Parsed}
    (h : ∀ r, parser.Halts c r ↔ parser.Halts c' r) : Ends c x ↔ Ends c' x :=
  exists_congr fun r => and_congr_left' (h r)

theorem ends_message {x : Parsed} {b : List UInt8} {c : Start} (hb : Closed (.token .end_ .none) c b n) :
    Ends ⟨[(5, .none)], .empty, ⟨c, b, n, record⟩⟩ x ↔ x = .returned true record := by
  cases hb with
  | token hlex =>
    have hreads : Reads (top [(5, Value.none)]) := ⟨by decide, rfl⟩
    have hhalts : ∀ r, parser.Halts ⟨[(5, .none)], .empty, ⟨c, b, n, record⟩⟩ r ↔
        r = .returned .accepted ⟨_, _, _, record⟩ := fun r =>
      (halts_lex_shift (q := 10) hreads.1 hreads.2 (hlex record) rfl rfl).trans (halts_final rfl)
    refine ⟨fun h => ?_, fun h => ?_⟩
    · obtain ⟨r, hr, rfl⟩ := h
      rw [(hhalts r).1 hr]
      rfl
    · exact ⟨_, (hhalts _).2 rfl, h⟩

theorem ends_body {x : Parsed} {b : List UInt8} {c : Start} (hst : stack = [] ∨ stack = [(6, .none)])
    (hb : Closed look c b n) :
    Ends ⟨params ((8, .none) :: stack), look, ⟨c, b, n, record⟩⟩ x ↔ x = .returned true record := by
  have hreads : Reads (top ((15, Value.none) :: (8, .none) :: stack)) := ⟨by simp [top, parser], rfl⟩
  have hread : ∀ {c b n}, Closed (.token .end_ .none) c b n →
      (Ends ⟨params ((8, .none) :: stack), .token .end_ .none, ⟨c, b, n, record⟩⟩ x ↔
        x = .returned true record) := by
    intro c b n hb
    refine Iff.trans (Ends.congr fun r => ?_) (ends_message hb)
    refine (halts_shift (q := 24) hreads.1 hreads.2 rfl rfl).trans ?_
    refine (halts_default [(24, .none), (15, .none), (8, .none)] stack rfl rfl rfl).trans ?_
    rcases hst with rfl | rfl
    · exact halts_default [(7, .none)] [] rfl rfl rfl
    · exact halts_default [(11, .none), (6, .none)] [] rfl rfl rfl
  cases hb with
  | token hlex => exact hread (.token hlex)
  | empty hlex hb =>
    exact (Ends.congr fun r => halts_lex hreads.1 hreads.2 (hlex record)).trans (hread hb)

theorem ends_command {x : Parsed} {command : Command} {ps : List (List UInt8)}
    (hst : stack = [] ∨ stack = [(6, .none)]) (hc : onCommand c = true) (hcommand : command.Valid)
    (hb : ParametersText b ps) (hr : record.command = .invalid ∧ record.parameters = []) :
    Ends ⟨stack, .empty, ⟨c, commandFrame command ++ (b ++ frameBoundary), n, record⟩⟩ x ↔
      x = .returned true { record with command := command, parameters := ps } := by
  have hq : top stack = 0 ∨ top stack = 6 := by rcases hst with rfl | rfl <;> decide
  have hhead : ∀ a ∈ (b ++ frameBoundary).head?, isAlpha a = false := fun a ha => by
    rcases head?_parametersText hb a ha with rfl | rfl <;> rfl
  have hparams : InParams (top ((8, Value.none) :: stack)) := Or.inl rfl
  obtain ⟨look, c', b', n', hclosed, hrest⟩ :=
    stores_parametersText (n := n) hb hparams (Or.inl hc)
  refine (Ends.congr fun r => halts_command hcommand hc hq hhead hr.1).trans ?_
  refine (Ends.congr fun r => hrest _ r).trans ((ends_body hst hclosed).trans ?_)
  rw [hr.2, List.append_nil]

theorem head?_commandFrame {command : Command} (h : command.Valid) :
    ∀ a ∈ (commandFrame command ++ b).head?, a ≠ space := by
  have hne : commandFrame command ≠ [] ∧ ∀ a ∈ commandFrame command, a ≠ space := by
    cases command with
    | numeric m =>
      refine ⟨fun h0 => ?_, fun a ha => ?_⟩
      · have := length_decimal h
        simp only [commandFrame] at h0
        simp [h0] at this
      · rintro rfl
        exact absurd (isDigit_decimal space ha) (by decide)
    | string w =>
      refine ⟨h.1, fun a ha => ?_⟩
      rintro rfl
      exact absurd (h.2 space ha) (by decide)
    | invalid => exact h.elim
  intro a ha
  rw [List.head?_append_of_ne_nil _ hne.1] at ha
  exact hne.2 a (List.mem_of_mem_head? ha)

theorem ends_frameText {record : Record} {x : Parsed} (h : FrameText b record) :
    Ends ⟨[], .empty, ⟨.initial, b, n, {}⟩⟩ x ↔ x = .returned true record := by
  have hempty : ({} : Record).command = .invalid ∧ ({} : Record).parameters = [] := ⟨rfl, rfl⟩
  cases h with
  | @mk k p command b ps hp hcommand hb =>
    rcases hp with rfl | ⟨horigin, huser, hhost⟩
    · exact ends_command (Or.inl rfl) rfl hcommand hb hempty
    · refine (Ends.congr fun r =>
        halts_prefixText horigin huser hhost (head?_commandFrame hcommand) rfl).trans ?_
      exact ends_command (Or.inr rfl) rfl hcommand hb hempty

theorem parametersText_last (hw : ∀ a ∈ w, isTrailing a = true) :
    ParametersText (space :: lastFrame w) (receivedLast w) := by
  unfold lastFrame receivedLast
  by_cases hs : space ∈ w
  · have hne : w ≠ [] := by rintro rfl; simp at hs
    rw [if_pos hs, if_pos hs]
    simpa [gap, hne] using ParametersText.trailing 0 hw
  · rw [if_neg hs, if_neg hs]
    cases w with
    | nil => exact .gap 0
    | cons a w =>
      by_cases ha : a = colon
      · subst ha
        simpa [gap] using ParametersText.trailing 0 fun b hb => hw b (List.mem_cons_of_mem _ hb)
      · have hparam : a :: w ∈ param.lang := mem_param.2 ⟨by simp, fun b hb => by
          have h1 := hw b hb
          have h2 : b ≠ 32 := by rintro rfl; exact hs hb
          simp only [isTrailing, isMiddle, decide_eq_true_eq] at h1 ⊢
          simpa [h2] using h1, by simpa using ha⟩
        simpa [gap, ha] using ParametersText.middle 0 hparam .none

theorem parametersText_separated {ps : List (List UInt8)} (hps : ValidParameters ps) :
    ParametersText (separated ps) (received ps) := by
  induction ps with
  | nil => exact .none
  | cons p ps ih =>
    cases ps with
    | nil => exact parametersText_last hps
    | cons q ps => exact .middle 0 (mem_param.2 hps.1) (ih hps.2)

theorem frameText_frame {r : Record} (h : r.Valid) :
    FrameText (frame r) ⟨r.prefix_, r.command, received r.parameters, []⟩ :=
  .mk 0 h.prefix_ h.command (parametersText_separated h.parameters)

theorem parses_frame {r : Record} (h : r.Valid) (x : Parsed) :
    Parses (frame r) x ↔
      x = .returned true ⟨r.prefix_, r.command, received r.parameters, []⟩ :=
  ends_frameText (frameText_frame h)

end ACENetwork.Irc
