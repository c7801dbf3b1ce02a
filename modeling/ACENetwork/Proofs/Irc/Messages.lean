import Mathlib
import ACENetwork.Proofs.Irc.Tokens

/-! What the parser accepts, well-formed or not, by the tokens of the scanner: a grammar of calls
for each part of a message, and the parser along them. The grammar of the parameters has every
text, up to the token that ends them; whether that one ends the message is decided behind it. -/

namespace ACENetwork.Irc

open Flex Bison Parser

variable {c c' : Start} {b b' w : List UInt8} {n : ℕ} {record : Record} {stack : List (ℕ × Value)}
  {look : Look Token Value} {s : State} {q : ℕ} {k : Token} {v : Value} {ps : List (List UInt8)}

def Typed : Token → Value → Prop
  | .origin, .sval _ | .user, .sval _ | .host, .sval _ | .cmdString, .sval _ | .param, .sval _
  | .cmdNumeric, .ival _ | .space, .ival _ | .bang, .ival _ | .at_, .ival _ => True
  | .colon, v => v = .ival 1
  | .end_, v => v = .none
  | _, _ => False

theorem Call.typed (h : Call c b k v c' b') : Typed k v := by
  induction h with
  | nil => rfl
  | @token c b name m k hb hs hk =>
    cases name with
    | blankLine | endOfFrame | endOfMessage => cases hk
    | _ =>
      obtain rfl := Option.some.inj hk
      simp [Typed, RuleName.value]
  | more _ _ _ _ ih => exact ih

theorem Call.sval (h : Call c b k v c' b') (hk : k ∈ texts) : ∃ w, v = .sval w := by
  have ht := h.typed
  cases k with
  | origin | user | host | cmdString | param =>
    cases v with
    | sval w => exact ⟨w, rfl⟩
    | _ => exact ht.elim
  | _ => simp [texts] at hk

/-- A text from where parameters stand: the parameters, and the token behind them where it was
read. -/
inductive Tail : Start → List UInt8 → List (List UInt8) → Look Token Value → Start → List UInt8 → Prop where
  | stop {c c' : Start} {b b' : List UInt8} {k : Token} {v : Value} (hk : k ∉ [Token.space, .param, .colon])
    (h : Call c b k v c' b') : Tail c b [] (.token k v) c' b'
  | space {c c₁ c' : Start} {b b₁ b' : List UInt8} {v : Value} {ps : List (List UInt8)}
    {look : Look Token Value} (h : Call c b .space v c₁ b₁) (ht : Tail c₁ b₁ ps look c' b') :
    Tail c b ps look c' b'
  | param {c c₁ c' : Start} {b b₁ b' w : List UInt8} {ps : List (List UInt8)} {look : Look Token Value}
    (h : Call c b .param (.sval w) c₁ b₁) (ht : Tail c₁ b₁ ps look c' b') : Tail c b (w :: ps) look c' b'
  | colon {c c₁ c' : Start} {b b₁ b' : List UInt8} {k : Token} {v v₁ : Value} (h : Call c b .colon v c₁ b₁)
    (hk : k ≠ .param) (h₁ : Call c₁ b₁ k v₁ c' b') : Tail c b [] (.token k v₁) c' b'
  | trailing {c c₁ c' : Start} {b b₁ b' w : List UInt8} {v : Value} (h : Call c b .colon v c₁ b₁)
    (h₁ : Call c₁ b₁ .param (.sval w) c' b') : Tail c b [w] .empty c' b'

theorem Tail.exists (c : Start) (b : List UInt8) : ∃ ps look c' b', Tail c b ps look c' b' := by
  induction hlen : b.length using Nat.strong_induction_on generalizing c b with
  | _ len ih =>
    obtain ⟨k, v, c₁, b₁, h⟩ := Call.exists c b
    by_cases hk : k ∈ [Token.space, .param, .colon]
    · have hlt : b₁.length < len := by
        rw [← hlen]
        exact h.length_lt (by rintro rfl; simp at hk)
      obtain ⟨ps, look, c', b', ht⟩ := ih _ hlt c₁ b₁ rfl
      cases k with
      | space => exact ⟨_, _, _, _, .space h ht⟩
      | param =>
        obtain ⟨w, rfl⟩ := h.sval (by decide)
        exact ⟨_, _, _, _, .param h ht⟩
      | colon =>
        obtain ⟨k₁, v₁, c', b', h₁⟩ := Call.exists c₁ b₁
        by_cases hparam : k₁ = .param
        · subst hparam
          obtain ⟨w, rfl⟩ := h₁.sval (by decide)
          exact ⟨_, _, _, _, .trailing h h₁⟩
        · exact ⟨_, _, _, _, .colon h hparam h₁⟩
      | _ => simp at hk
    · exact ⟨_, _, _, _, .stop hk h⟩

theorem halts_call (hreads : Reads (top stack)) (h : Call c b k v c' b') (n : ℕ) :
    ∃ n', ∀ record r, parser.Halts ⟨stack, .empty, ⟨c, b, n, record⟩⟩ r ↔
      parser.Halts ⟨stack, .token k v, ⟨c', b', n', record⟩⟩ r := by
  obtain ⟨n', hlex⟩ := h.lexes n
  exact ⟨n', fun record r => halts_lex hreads.1 hreads.2 (hlex record)⟩

theorem halts_call_shift (hreads : Reads (top stack)) (h : Call c b k v c' b')
    (ha : action (top stack) k = .shift q) (n : ℕ) :
    ∃ n', ∀ record r, parser.Halts ⟨stack, .empty, ⟨c, b, n, record⟩⟩ r ↔
      parser.Halts ⟨(q, v) :: stack, .empty, ⟨c', b', n', record⟩⟩ r := by
  obtain ⟨n', hcall⟩ := halts_call hreads h n
  exact ⟨n', fun record r => (hcall record r).trans (halts_shift hreads.1 hreads.2 ha rfl)⟩

theorem reads_colon : Reads (top ((14, v) :: stack)) := ⟨by simp [top, parser], rfl⟩

/-- The parser along the parameters: they are stored when the token behind them is there. -/
theorem Tail.halts (ht : Tail c b ps look c' b') (h : InParams (top stack)) (n : ℕ) :
    ∃ n', ∀ record r, parser.Halts ⟨stack, .empty, ⟨c, b, n, record⟩⟩ r ↔
      parser.Halts ⟨params stack, look,
        ⟨c', b', n', { record with parameters := ps ++ record.parameters }⟩⟩ r := by
  induction ht generalizing stack n with
  | @stop c c' b b' k v hk hcall =>
    obtain ⟨n', hhalts⟩ := halts_call h.reads hcall n
    refine ⟨n', fun record r => (hhalts record r).trans ?_⟩
    have ha : action (top stack) k = .reduce .paramsEmpty := by
      rw [h.action]
      cases k <;> simp_all [paramsAction]
    exact halts_reduce [] stack h.reads.1 (Or.inr ⟨h.reads.2, _, _, rfl, ha⟩) rfl rfl rfl
  | @space c c₁ c' b b₁ b' v ps look hcall _ ih =>
    obtain ⟨n₁, hhalts⟩ := halts_call_shift h.reads hcall (h.action .space) n
    have hin : InParams (top ((12, v) :: stack)) := Or.inr (Or.inl rfl)
    obtain ⟨n', hrest⟩ := ih hin n₁
    exact ⟨n', fun record r => (hhalts record r).trans ((hrest record r).trans (halts_params_space h))⟩
  | @param c c₁ c' b b₁ b' w ps look hcall _ ih =>
    obtain ⟨n₁, hhalts⟩ := halts_call_shift h.reads hcall (h.action .param) n
    have hin : InParams (top ((13, .sval w) :: stack)) := Or.inr (Or.inr rfl)
    obtain ⟨n', hrest⟩ := ih hin n₁
    exact ⟨n', fun record r => (hhalts record r).trans ((hrest record r).trans (halts_params_param h))⟩
  | @colon c c₁ c' b b₁ b' k v v₁ hcall hk hcall₁ =>
    obtain rfl : v = .ival 1 := hcall.typed
    obtain ⟨n₁, hhalts⟩ := halts_call_shift h.reads hcall (h.action .colon) n
    have hcolon : Reads (top ((14, Value.ival 1) :: stack)) := reads_colon
    obtain ⟨n', hhalts₁⟩ := halts_call hcolon hcall₁ n₁
    have ha : action 14 k = .reduce .trailingEmpty := by cases k <;> simp_all [action]
    refine ⟨n', fun record r => (hhalts record r).trans ((hhalts₁ record r).trans ?_)⟩
    refine Iff.trans ?_ (halts_params_trailing h)
    exact halts_reduce [] ((14, .ival 1) :: stack) hcolon.1 (Or.inr ⟨hcolon.2, _, _, rfl, ha⟩) rfl rfl rfl
  | @trailing c c₁ c' b b₁ b' w v hcall hcall₁ =>
    obtain rfl : v = .ival 1 := hcall.typed
    obtain ⟨n₁, hhalts⟩ := halts_call_shift h.reads hcall (h.action .colon) n
    have hcolon : Reads (top ((14, Value.ival 1) :: stack)) := reads_colon
    obtain ⟨n', hhalts₁⟩ := halts_call_shift hcolon hcall₁ rfl n₁
    refine ⟨n', fun record r => (hhalts record r).trans ((hhalts₁ record r).trans ?_)⟩
    exact (halts_default [(22, .sval w)] ((14, .ival 1) :: stack) rfl rfl rfl).trans
      (halts_params_trailing h)

/-- The parser accepts with this record. -/
def Accepts (c : Config Token Value State) (record : Record) : Prop :=
  ∃ s, parser.Halts c (.returned .accepted s) ∧ s.record = record

theorem accepts_congr {x x' : Config Token Value State} (h : ∀ r, parser.Halts x r ↔ parser.Halts x' r)
    (record : Record) : Accepts x record ↔ Accepts x' record :=
  exists_congr fun _ => and_congr_left' (h _)

theorem parses_iff_accepts : Parses b (.returned true record) ↔
    Accepts ⟨[], .empty, ⟨.initial, b, 0, {}⟩⟩ record := by
  constructor
  · intro h
    obtain ⟨r, hr, hp⟩ := h
    cases r with
    | returned code s =>
      obtain ⟨hcode, rfl⟩ := Parsed.returned.inj hp
      obtain rfl : code = .accepted := of_decide_eq_true hcode.symm
      exact ⟨s, hr, rfl⟩
    | fault f => cases hp
  · intro h
    obtain ⟨s, hs, rfl⟩ := h
    exact ⟨_, hs, rfl⟩

theorem not_accepts_error (hreads : Reads (top stack)) (ha : action (top stack) k = .error) :
    ¬ Accepts ⟨stack, .token k v, s⟩ record := by
  intro h
  obtain ⟨s', hs, -⟩ := h
  rw [halts_error hreads.1 hreads.2 ha] at hs
  cases (Result.returned.inj hs).1

/-- What is behind the parameters ends the message. -/
def Finished : Look Token Value → Start → List UInt8 → Prop
  | .empty, c, b => Ended c b
  | .token k _, c, b => k = .end_ ∧ ∃ c' b', Call c b .end_ .none c' b'
  | .scanning, _, _ => False

theorem accepts_message {record' : Record} : Accepts ⟨[(5, .none)], .empty, ⟨c, b, n, record'⟩⟩ record ↔
    record' = record ∧ ∃ c' b', Call c b .end_ .none c' b' := by
  have hreads : Reads (top [(5, Value.none)]) := ⟨by decide, rfl⟩
  obtain ⟨k, v, c', b', hcall⟩ := Call.exists c b
  obtain ⟨n', hhalts⟩ := halts_call hreads hcall n
  rw [accepts_congr (hhalts record')]
  by_cases hk : k = .end_
  · subst hk
    have hv : v = .none := hcall.typed
    subst hv
    have hfinal : ∀ r, parser.Halts ⟨[(5, .none)], .token .end_ .none, ⟨c', b', n', record'⟩⟩ r ↔
        r = .returned .accepted ⟨c', b', n', record'⟩ := fun r =>
      (halts_shift (q := 10) hreads.1 hreads.2 rfl rfl).trans (halts_final rfl)
    constructor
    · intro h
      obtain ⟨s, hs, hrecord⟩ := h
      obtain ⟨-, rfl⟩ := Result.returned.inj ((hfinal _).1 hs)
      exact ⟨hrecord, c', b', hcall⟩
    · intro h
      exact ⟨_, (hfinal _).2 rfl, h.1⟩
  · refine iff_of_false (not_accepts_error hreads ?_) ?_
    · cases k <;> simp_all [top, action]
    · intro h
      obtain ⟨-, c₂, b₂, hend⟩ := h
      exact hk (hcall.unique hend).1

theorem accepts_body {record' : Record} (hst : stack = [] ∨ stack = [(6, .none)]) (hlook : look ≠ .scanning) :
    Accepts ⟨params ((8, .none) :: stack), look, ⟨c, b, n, record'⟩⟩ record ↔
      record' = record ∧ Finished look c b := by
  have hreads : Reads (top ((15, Value.none) :: (8, .none) :: stack)) := ⟨by simp [top, parser], rfl⟩
  have htoken : ∀ {k v c b n}, Accepts ⟨params ((8, .none) :: stack), .token k v, ⟨c, b, n, record'⟩⟩ record ↔
      record' = record ∧ k = .end_ ∧ ∃ c' b', Call c b .end_ .none c' b' := by
    intro k v c b n
    by_cases hk : k = .end_
    · subst hk
      have hfold : ∀ r, parser.Halts ⟨params ((8, .none) :: stack), .token .end_ v, ⟨c, b, n, record'⟩⟩ r ↔
          parser.Halts ⟨[(5, .none)], .empty, ⟨c, b, n, record'⟩⟩ r := by
        intro r
        refine (halts_shift (q := 24) hreads.1 hreads.2 rfl rfl).trans ?_
        refine (halts_default [(24, v), (15, .none), (8, .none)] stack rfl rfl rfl).trans ?_
        rcases hst with rfl | rfl
        · exact halts_default [(7, .none)] [] rfl rfl rfl
        · exact halts_default [(11, .none), (6, .none)] [] rfl rfl rfl
      rw [accepts_congr hfold, accepts_message]
      simp
    · refine iff_of_false (not_accepts_error hreads ?_) fun h => hk h.2.1
      change action 15 k = .error
      cases k <;> first | exact absurd rfl hk | rfl
  cases look with
  | scanning => exact absurd rfl hlook
  | token k v => exact htoken
  | empty =>
    obtain ⟨k, v, c', b', hcall⟩ := Call.exists c b
    obtain ⟨n', hhalts⟩ := halts_call hreads hcall n
    refine (accepts_congr (hhalts record') record).trans (htoken.trans (and_congr_right fun _ => ?_))
    constructor
    · intro h
      obtain ⟨rfl, c₂, b₂, hend⟩ := h
      obtain rfl : v = .none := hcall.typed
      exact ⟨c', b', c₂, b₂, hcall, hend⟩
    · intro h
      obtain ⟨c₁, b₁, c₂, b₂, h₁, h₂⟩ := h
      obtain ⟨rfl, -, rfl, rfl⟩ := hcall.unique h₁
      exact ⟨rfl, c₂, b₂, h₂⟩

theorem Tail.look_ne (ht : Tail c b ps look c' b') : look ≠ .scanning := by
  induction ht with
  | stop | colon | trailing => simp
  | space _ _ ih => exact ih
  | param _ _ ih => exact ih

theorem Accepts.unique {x : Config Token Value State} {record' : Record} (h : Accepts x record)
    (h' : Accepts x record') : record = record' := by
  obtain ⟨s, hs, rfl⟩ := h
  obtain ⟨s', hs', rfl⟩ := h'
  rw [(Result.returned.inj (hs.unique hs')).2]

/-- The parameters of a message, to its end. -/
def Params (c : Start) (b : List UInt8) (ps : List (List UInt8)) : Prop :=
  ∃ look c' b', Tail c b ps look c' b' ∧ Finished look c' b'

theorem accepts_params {record' : Record} (hst : stack = [] ∨ stack = [(6, .none)]) :
    Accepts ⟨(8, .none) :: stack, .empty, ⟨c, b, n, record'⟩⟩ record ↔
      ∃ ps, Params c b ps ∧ record = { record' with parameters := ps ++ record'.parameters } := by
  have hin : InParams (top ((8, Value.none) :: stack)) := Or.inl rfl
  have htail {ps : List (List UInt8)} {look : Look Token Value} {c' : Start} {b' : List UInt8}
      (ht : Tail c b ps look c' b') :
      Accepts ⟨(8, .none) :: stack, .empty, ⟨c, b, n, record'⟩⟩ record ↔
        { record' with parameters := ps ++ record'.parameters } = record ∧ Finished look c' b' := by
    obtain ⟨n', hhalts⟩ := ht.halts hin n
    exact (accepts_congr (hhalts record') record).trans (accepts_body hst ht.look_ne)
  constructor
  · intro h
    obtain ⟨ps, look, c', b', ht⟩ := Tail.exists c b
    obtain ⟨rfl, hend⟩ := (htail ht).1 h
    exact ⟨ps, ⟨look, c', b', ht, hend⟩, rfl⟩
  · intro h
    obtain ⟨ps, ⟨look, c', b', ht, hend⟩, rfl⟩ := h
    exact (htail ht).2 ⟨rfl, hend⟩

theorem Params.unique {ps' : List (List UInt8)} (h : Params c b ps) (h' : Params c b ps') : ps = ps' := by
  have haccepts {ps : List (List UInt8)} (h : Params c b ps) :
      Accepts ⟨[(8, .none)], .empty, ⟨c, b, 0, {}⟩⟩ { parameters := ps } :=
    (accepts_params (Or.inl rfl)).2 ⟨ps, h, by simp⟩
  exact congrArg Record.parameters ((haccepts h).unique (haccepts h'))

inductive CommandCall (c : Start) (b : List UInt8) : Command → Start → List UInt8 → Prop where
  | string {c' : Start} {b' w : List UInt8} (h : Call c b .cmdString (.sval w) c' b') :
    CommandCall c b (.string w) c' b'
  | numeric {c' : Start} {b' : List UInt8} {m : ℕ} (h : Call c b .cmdNumeric (.ival m) c' b') :
    CommandCall c b (.numeric (UInt32.ofNat m)) c' b'

theorem CommandCall.ne_invalid {command : Command} (h : CommandCall c b command c' b') :
    command ≠ .invalid := by
  cases h <;> simp

def Body (c : Start) (b : List UInt8) (command : Command) (ps : List (List UInt8)) : Prop :=
  ∃ c' b', CommandCall c b command c' b' ∧ Params c' b' ps

theorem reads_command (hst : stack = [] ∨ stack = [(6, .none)]) : Reads (top stack) := by
  rcases hst with rfl | rfl
  · exact ⟨by decide, rfl⟩
  · exact ⟨by decide, rfl⟩

theorem CommandCall.accepts {command : Command} {record' : Record} (h : CommandCall c b command c' b')
    (hst : stack = [] ∨ stack = [(6, .none)]) (hr : record'.command = .invalid) :
    Accepts ⟨stack, .empty, ⟨c, b, n, record'⟩⟩ record ↔ ∃ ps, Params c' b' ps ∧
      record = { record' with command := command, parameters := ps ++ record'.parameters } := by
  have hreads := reads_command hst
  cases h with
  | @string c' b' w h =>
    have ha : action (top stack) .cmdString = .shift 2 := by rcases hst with rfl | rfl <;> rfl
    have hgoto : goto (top stack) .commandString = 8 := by rcases hst with rfl | rfl <;> rfl
    obtain ⟨n', hhalts⟩ := halts_call_shift hreads h ha n
    have hv : semantics .commandString [.sval w] ⟨c', b', n', record'⟩ = .value .none
        ⟨c', b', n', { record' with command := .string w }⟩ := if_pos hr
    have hreduce : ∀ r, parser.Halts ⟨(2, .sval w) :: stack, .empty, ⟨c', b', n', record'⟩⟩ r ↔
        parser.Halts ⟨(8, .none) :: stack, .empty,
          ⟨c', b', n', { record' with command := .string w }⟩⟩ r := by
      rw [← hgoto]
      exact fun r => halts_default [(2, .sval w)] stack rfl rfl hv
    exact (accepts_congr (fun r => (hhalts record' r).trans (hreduce r)) record).trans (accepts_params hst)
  | @numeric c' b' m h =>
    have ha : action (top stack) .cmdNumeric = .shift 3 := by rcases hst with rfl | rfl <;> rfl
    have hgoto : goto (top stack) .commandNumeric = 8 := by rcases hst with rfl | rfl <;> rfl
    obtain ⟨n', hhalts⟩ := halts_call_shift hreads h ha n
    have hv : semantics .commandNumeric [.ival m] ⟨c', b', n', record'⟩ = .value .none
        ⟨c', b', n', { record' with command := .numeric (UInt32.ofNat m) }⟩ := rfl
    have hreduce : ∀ r, parser.Halts ⟨(3, .ival m) :: stack, .empty, ⟨c', b', n', record'⟩⟩ r ↔
        parser.Halts ⟨(8, .none) :: stack, .empty,
          ⟨c', b', n', { record' with command := .numeric (UInt32.ofNat m) }⟩⟩ r := by
      rw [← hgoto]
      exact fun r => halts_default [(3, .ival m)] stack rfl rfl hv
    exact (accepts_congr (fun r => (hhalts record' r).trans (hreduce r)) record).trans (accepts_params hst)

theorem CommandCall.of_call (h : Call c b k v c' b') (hk : k = .cmdString ∨ k = .cmdNumeric) :
    ∃ command, CommandCall c b command c' b' := by
  have ht := h.typed
  rcases hk with rfl | rfl
  · cases v with
    | sval w => exact ⟨_, .string h⟩
    | _ => exact ht.elim
  · cases v with
    | ival m => exact ⟨_, .numeric h⟩
    | _ => exact ht.elim

theorem accepts_command {record' : Record} (hr : record'.command = .invalid) :
    Accepts ⟨[(6, .none)], .empty, ⟨c, b, n, record'⟩⟩ record ↔ ∃ command ps, Body c b command ps ∧
      record = { record' with command := command, parameters := ps ++ record'.parameters } := by
  have hst : [(6, Value.none)] = [] ∨ [(6, Value.none)] = [(6, Value.none)] := Or.inr rfl
  constructor
  · intro h
    obtain ⟨k, v, c', b', hcall⟩ := Call.exists c b
    by_cases hk : k = .cmdString ∨ k = .cmdNumeric
    · obtain ⟨command, hcommand⟩ := CommandCall.of_call hcall hk
      obtain ⟨ps, hps, rfl⟩ := (hcommand.accepts hst hr).1 h
      exact ⟨command, ps, ⟨c', b', hcommand, hps⟩, rfl⟩
    · obtain ⟨n', hhalts⟩ := halts_call (reads_command hst) hcall n
      have ha : action (top [(6, Value.none)]) k = .error := by
        cases k <;> first | rfl | simp at hk
      exact absurd ((accepts_congr (hhalts record') record).1 h) (not_accepts_error (reads_command hst) ha)
  · intro h
    obtain ⟨command, ps, ⟨c', b', hcommand, hps⟩, rfl⟩ := h
    exact (hcommand.accepts hst hr).2 ⟨ps, hps, rfl⟩

/-- What may follow the origin: a mark, and a word behind it. -/
inductive Part where
  | user | host
  deriving DecidableEq

namespace Part

def mark : Part → Token
  | .user => .bang
  | .host => .at_

def word : Part → Token
  | .user => .user
  | .host => .host

def store (w : List UInt8) (p : Prefix) : Part → Prefix
  | .user => { p with user := w }
  | .host => { p with host := w }

/-- The states behind the mark and behind the word. -/
def marked : Part → ℕ
  | .user => 17
  | .host => 18

def worded : Part → ℕ
  | .user => 25
  | .host => 26

theorem reads_marked (x : Part) : Reads (top ((x.marked, v) :: stack)) := by
  cases x with
  | user => exact ⟨by simp [top, marked, parser], rfl⟩
  | host => exact ⟨by simp [top, marked, parser], rfl⟩

theorem worded_inPrefix (x : Part) : InPrefix (top ((x.worded, v) :: stack)) := by
  cases x with
  | user => exact Or.inr (Or.inl rfl)
  | host => exact Or.inr (Or.inr rfl)

theorem shift_mark (x : Part) (h : InPrefix q) : action q x.mark = .shift x.marked := by
  rw [h.action]
  cases x <;> rfl

theorem shift_word (x : Part) : action (top ((x.marked, v) :: stack)) x.word = .shift x.worded := by
  cases x <;> rfl

theorem halts_reduce (x : Part) {v v' : Value} (h : InPrefix (top stack)) :
    parser.Halts ⟨(goto (top ((x.worded, .sval w) :: (x.marked, v) :: stack)) .extPrefixSpace, v') ::
        (x.worded, .sval w) :: (x.marked, v) :: stack, look, s⟩ r ↔
      parser.Halts ⟨(goto (top stack) .extPrefixSpace, .none) :: stack, look,
        { s with record := { s.record with prefix_ := x.store w s.record.prefix_ } }⟩ r := by
  cases x with
  | user =>
    rw [← h.goto.1]
    exact halts_default [(27, v'), (25, .sval w), (17, v)] stack rfl rfl rfl
  | host =>
    rw [← h.goto.2]
    exact halts_default [(28, v'), (26, .sval w), (18, v)] stack rfl rfl rfl

end Part

/-- What follows the origin, to the SPACE in front of the command. -/
inductive ExtPrefix : Start → List UInt8 → Prefix → Start → List UInt8 → Prop where
  | space {c c' : Start} {b b' : List UInt8} {v : Value} (h : Call c b .space v c' b') :
    ExtPrefix c b {} c' b'
  | part {c c₁ c₂ c' : Start} {b b₁ b₂ b' w : List UInt8} {v : Value} {p : Prefix} (x : Part)
    (h : Call c b x.mark v c₁ b₁) (h₁ : Call c₁ b₁ x.word (.sval w) c₂ b₂) (hp : ExtPrefix c₂ b₂ p c' b') :
    ExtPrefix c b (x.store w p) c' b'

theorem ExtPrefix.halts {p : Prefix} (hp : ExtPrefix c b p c' b') (h : InPrefix (top stack)) (n : ℕ) :
    ∃ n', ∀ record r, record.prefix_ = {} → (parser.Halts ⟨stack, .empty, ⟨c, b, n, record⟩⟩ r ↔
      parser.Halts ⟨(goto (top stack) .extPrefixSpace, .none) :: stack, .empty,
        ⟨c', b', n', { record with prefix_ := p }⟩⟩ r) := by
  induction hp generalizing stack n with
  | @space c c' b b' v hcall =>
    obtain ⟨n', hhalts⟩ := halts_call_shift h.reads hcall (h.action .space) n
    refine ⟨n', fun record r hr => (hhalts record r).trans ?_⟩
    rw [← hr]
    exact halts_default [(16, v)] stack rfl rfl rfl
  | @part c c₁ c₂ c' b b₁ b₂ b' w v p x hcall hcall₁ _ ih =>
    obtain ⟨n₁, hhalts⟩ := halts_call_shift h.reads hcall (x.shift_mark h) n
    obtain ⟨n₂, hhalts₁⟩ := halts_call_shift x.reads_marked hcall₁ x.shift_word n₁
    have hin : InPrefix (top ((x.worded, .sval w) :: (x.marked, v) :: stack)) := x.worded_inPrefix
    obtain ⟨n', hrest⟩ := ih hin n₂
    refine ⟨n', fun record r hr => (hhalts record r).trans ((hhalts₁ record r).trans ?_)⟩
    exact (hrest record r hr).trans (x.halts_reduce h)

/-- A text from where something follows the origin that no message has. -/
def Stops (c : Start) (b : List UInt8) : Prop :=
  ∀ stack n record' record, InPrefix (top stack) → ¬ Accepts ⟨stack, .empty, ⟨c, b, n, record'⟩⟩ record

theorem Stops.of_call (h : Call c b k v c' b') (hk : k ∉ [Token.space, .bang, .at_]) : Stops c b := by
  intro stack n record' record hin haccepts
  obtain ⟨n', hhalts⟩ := halts_call hin.reads h n
  have ha : action (top stack) k = .error := by
    rw [hin.action]
    cases k <;> first | rfl | simp at hk
  exact not_accepts_error hin.reads ha ((accepts_congr (hhalts record') record).1 haccepts)

theorem Stops.of_mark (x : Part) {c₁ : Start} {b₁ : List UInt8} {v₁ : Value} (h : Call c b x.mark v c₁ b₁)
    (h₁ : Call c₁ b₁ k v₁ c' b') (hk : k ≠ x.word) : Stops c b := by
  intro stack n record' record hin haccepts
  have hreads : Reads (top ((x.marked, v) :: stack)) := x.reads_marked
  obtain ⟨n₁, hhalts⟩ := halts_call_shift hin.reads h (x.shift_mark hin) n
  obtain ⟨n₂, hhalts₁⟩ := halts_call hreads h₁ n₁
  have ha : action (top ((x.marked, v) :: stack)) k = .error := by
    cases x <;> cases k <;> first | rfl | exact absurd rfl hk
  have hcongr := accepts_congr (fun r => (hhalts record' r).trans (hhalts₁ record' r)) record
  exact not_accepts_error hreads ha (hcongr.1 haccepts)

theorem Stops.part (x : Part) {c₁ : Start} {b₁ : List UInt8} (h : Call c b x.mark v c₁ b₁)
    (h₁ : Call c₁ b₁ x.word (.sval w) c' b') (hstops : Stops c' b') : Stops c b := by
  intro stack n record' record hin haccepts
  obtain ⟨n₁, hhalts⟩ := halts_call_shift hin.reads h (x.shift_mark hin) n
  have hreads : Reads (top ((x.marked, v) :: stack)) := x.reads_marked
  obtain ⟨n₂, hhalts₁⟩ := halts_call_shift hreads h₁ x.shift_word n₁
  have hcongr := accepts_congr (fun r => (hhalts record' r).trans (hhalts₁ record' r)) record
  exact hstops _ n₂ record' record x.worded_inPrefix (hcongr.1 haccepts)

theorem Stops.of_not_extPrefix (h : ¬ ∃ p c' b', ExtPrefix c b p c' b') : Stops c b := by
  induction hlen : b.length using Nat.strong_induction_on generalizing c b with
  | _ len ih =>
    obtain ⟨k, v, c₁, b₁, hcall⟩ := Call.exists c b
    have hpart (x : Part) (hx : k = x.mark) : Stops c b := by
      subst hx
      obtain ⟨k₁, v₁, c₂, b₂, hcall₁⟩ := Call.exists c₁ b₁
      by_cases hword : k₁ = x.word
      · subst hword
        obtain ⟨w, rfl⟩ := hcall₁.sval (by cases x <;> decide)
        have hlt : b₂.length < len := by
          have h1 := hcall.length_lt (by cases x <;> decide)
          have h2 := hcall₁.length_le
          omega
        refine .part x hcall hcall₁ (ih _ hlt (fun hp => h ?_) rfl)
        obtain ⟨p, c', b', hp⟩ := hp
        exact ⟨_, c', b', .part x hcall hcall₁ hp⟩
      · exact .of_mark x hcall hcall₁ hword
    by_cases hspace : k = .space
    · subst hspace
      exact absurd ⟨_, _, _, .space hcall⟩ h
    by_cases hbang : k = .bang
    · exact hpart .user hbang
    by_cases hat : k = .at_
    · exact hpart .host hat
    · exact .of_call hcall (by simp [hspace, hbang, hat])

/-- A message behind the colon that its prefix begins with. -/
def Prefixed (c : Start) (b : List UInt8) (record : Record) : Prop :=
  ∃ w c₁ b₁ p c₂ b₂ command ps, Call c b .origin (.sval w) c₁ b₁ ∧ ExtPrefix c₁ b₁ p c₂ b₂ ∧
    Body c₂ b₂ command ps ∧ record = ⟨{ p with origin := w }, command, ps, []⟩

/-- The texts that the parser accepts, with their records. -/
inductive Message (b : List UInt8) : Record → Prop where
  | empty (h : Ended .initial b) : Message b {}
  | body {command : Command} {ps : List (List UInt8)} (h : Body .initial b command ps) :
    Message b ⟨{}, command, ps, []⟩
  | prefixed {c : Start} {b' : List UInt8} {v : Value} {record : Record} (h : Call .initial b .colon v c b')
    (hp : Prefixed c b' record) : Message b record

theorem ExtPrefix.accepts {p : Prefix} (hp : ExtPrefix c b p c' b') (n : ℕ) :
    ∃ n', ∀ record, Accepts ⟨[(9, .sval w), (4, v)], .empty, ⟨c, b, n, {}⟩⟩ record ↔
      Accepts ⟨[(6, .none)], .empty, ⟨c', b', n', { prefix_ := { p with origin := w } }⟩⟩ record := by
  have hin : InPrefix (top [(9, Value.sval w), (4, v)]) := Or.inl rfl
  obtain ⟨n', hhalts⟩ := hp.halts hin n
  refine ⟨n', fun record => accepts_congr (fun r => (hhalts {} r rfl).trans ?_) record⟩
  exact halts_default [(19, .none), (9, .sval w), (4, v)] [] rfl rfl rfl

theorem accepts_extPrefix : Accepts ⟨[(9, .sval w), (4, v)], .empty, ⟨c, b, n, {}⟩⟩ record ↔
    ∃ p c' b' command ps, ExtPrefix c b p c' b' ∧ Body c' b' command ps ∧
      record = ⟨{ p with origin := w }, command, ps, []⟩ := by
  constructor
  · intro h
    by_cases hp : ∃ p c' b', ExtPrefix c b p c' b'
    · obtain ⟨p, c', b', hp⟩ := hp
      obtain ⟨n', haccepts⟩ := hp.accepts n
      obtain ⟨command, ps, hbody, rfl⟩ := (accepts_command rfl).1 ((haccepts record).1 h)
      exact ⟨p, c', b', command, ps, hp, hbody, by simp⟩
    · exact absurd h (Stops.of_not_extPrefix hp _ n {} record (Or.inl rfl))
  · intro h
    obtain ⟨p, c', b', command, ps, hp, hbody, rfl⟩ := h
    obtain ⟨n', haccepts⟩ := hp.accepts n
    exact (haccepts _).2 ((accepts_command rfl).2 ⟨command, ps, hbody, by simp⟩)

theorem accepts_prefixed : Accepts ⟨[(4, v)], .empty, ⟨c, b, n, {}⟩⟩ record ↔ Prefixed c b record := by
  have hreads : Reads (top [(4, v)]) := ⟨by simp [top, parser], rfl⟩
  have horigin {w : List UInt8} {c' : Start} {b' : List UInt8} (hcall : Call c b .origin (.sval w) c' b') :
      Accepts ⟨[(4, v)], .empty, ⟨c, b, n, {}⟩⟩ record ↔ ∃ p c₂ b₂ command ps,
        ExtPrefix c' b' p c₂ b₂ ∧ Body c₂ b₂ command ps ∧
          record = ⟨{ p with origin := w }, command, ps, []⟩ := by
    obtain ⟨n', hhalts⟩ := halts_call_shift hreads hcall rfl n
    exact (accepts_congr (hhalts {}) record).trans accepts_extPrefix
  constructor
  · intro h
    obtain ⟨k, v', c', b', hcall⟩ := Call.exists c b
    by_cases hk : k = .origin
    · subst hk
      obtain ⟨w, rfl⟩ := hcall.sval (by decide)
      obtain ⟨p, c₂, b₂, command, ps, hp⟩ := (horigin hcall).1 h
      exact ⟨w, c', b', p, c₂, b₂, command, ps, hcall, hp⟩
    · obtain ⟨n', hhalts⟩ := halts_call hreads hcall n
      have ha : action 4 k = .error := by
        cases k <;> first | rfl | exact absurd rfl hk
      exact absurd ((accepts_congr (hhalts {}) record).1 h) (not_accepts_error hreads ha)
  · intro h
    obtain ⟨w, c', b', p, c₂, b₂, command, ps, hcall, hp⟩ := h
    exact (horigin hcall).2 ⟨p, c₂, b₂, command, ps, hp⟩

theorem accepts_empty {record' : Record} (h : Call c b .end_ .none c' b') :
    Accepts ⟨[], .empty, ⟨c, b, n, record'⟩⟩ record ↔
      record' = record ∧ ∃ c₁ b₁, Call c' b' .end_ .none c₁ b₁ := by
  obtain ⟨n', hhalts⟩ := halts_call_shift (reads_command (Or.inl rfl)) h rfl n
  have hreduce : ∀ r, parser.Halts ⟨[], .empty, ⟨c, b, n, record'⟩⟩ r ↔
      parser.Halts ⟨[(5, .none)], .empty, ⟨c', b', n', record'⟩⟩ r :=
    fun r => (hhalts record' r).trans (halts_default [(1, .none)] [] rfl rfl rfl)
  exact (accepts_congr hreduce record).trans accepts_message

theorem accepts_colon (h : Call .initial b .colon v c b') :
    Accepts ⟨[], .empty, ⟨.initial, b, n, {}⟩⟩ record ↔ Prefixed c b' record := by
  obtain ⟨n', hhalts⟩ := halts_call_shift (reads_command (Or.inl rfl)) h rfl n
  exact (accepts_congr (hhalts {}) record).trans accepts_prefixed

theorem accepts_iff_message : Accepts ⟨[], .empty, ⟨.initial, b, n, {}⟩⟩ record ↔ Message b record := by
  have hst : ([] : List (ℕ × Value)) = [] ∨ ([] : List (ℕ × Value)) = [(6, .none)] := Or.inl rfl
  constructor
  · intro h
    obtain ⟨k, v, c', b', hcall⟩ := Call.exists .initial b
    by_cases hcommand : k = .cmdString ∨ k = .cmdNumeric
    · obtain ⟨command, hcommand⟩ := CommandCall.of_call hcall hcommand
      obtain ⟨ps, hps, rfl⟩ := (hcommand.accepts hst rfl).1 h
      rw [List.append_nil]
      exact .body ⟨c', b', hcommand, hps⟩
    by_cases hend : k = .end_
    · subst hend
      obtain rfl : v = .none := hcall.typed
      obtain ⟨rfl, c₁, b₁, hsecond⟩ := (accepts_empty hcall).1 h
      exact .empty ⟨c', b', c₁, b₁, hcall, hsecond⟩
    by_cases hcolon : k = .colon
    · subst hcolon
      exact .prefixed hcall ((accepts_colon hcall).1 h)
    · obtain ⟨n', hhalts⟩ := halts_call (reads_command hst) hcall n
      have ha : action 0 k = .error := by
        cases k <;> first | rfl | simp at hcommand hend hcolon
      exact absurd ((accepts_congr (hhalts {}) record).1 h) (not_accepts_error (reads_command hst) ha)
  · intro h
    cases h with
    | empty h =>
      obtain ⟨c₁, b₁, c₂, b₂, h₁, h₂⟩ := h
      exact (accepts_empty h₁).2 ⟨rfl, c₂, b₂, h₂⟩
    | @body command ps h =>
      obtain ⟨c', b', hcommand, hps⟩ := h
      exact (hcommand.accepts hst rfl).2 ⟨ps, hps, by simp⟩
    | prefixed h hp => exact (accepts_colon h).2 hp

theorem parses_iff_message : Parses b (.returned true record) ↔ Message b record :=
  parses_iff_accepts.trans accepts_iff_message

end ACENetwork.Irc
