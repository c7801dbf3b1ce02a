import Mathlib
import ACENetwork.Spec.Http.ModuleParser
import ACENetwork.Proofs.Http.Bodyless

/-! A parser that does not block gives up at the end of the first fragment, and the module starts
it there again with every fragment that follows. -/

namespace ACENetwork.Http

open Flex Bison Parser

variable {tools : StringTools} {s s' : State} {blk : Block} {w : List UInt8} {n e : ℕ}
  {name : RuleName} {c next : Start} {k : Token} {stack : List (ℕ × Value)} {r : Result Fault State}

/-- The scanner does not block, and it has the rest of the only block in its buffer. -/
structure State.Single (s : State) (blk : Block) : Prop where
  heap : s.heap = [blk]
  cont : blk.cont = none
  fragment : s.fragment = 0
  content : blk.content = s.buffer
  blocking : s.blocking = false

theorem content_advance (blk : Block) (n : ℕ) : (blk.advance n).content = blk.content.drop n := by
  simp [Block.content, Block.advance, List.drop_drop]

theorem State.Single.read (h : s.Single blk) (hs : s.Entered) (n : ℕ) (next : Start) :
    (s.read n next).Single (blk.advance n) where
  heap := by
    simp [State.read, State.advance, Heap.advance, hs.held, h.fragment, h.heap, List.modify]
  cont := h.cont
  fragment := h.fragment
  content := by rw [content_advance, h.content]; rfl
  blocking := h.blocking

theorem State.Single.withRecord (h : s.Single blk) (r : Record) : (s.withRecord r).Single blk :=
  ⟨h.heap, h.cont, h.fragment, h.content, h.blocking⟩

/-- A start condition and the rest of the first block from which the parser cannot go on. -/
def Stuck (c : Start) (w : List UInt8) : Prop :=
  w = [] ∨ c = .body ∨ ∃ n, select rules c w = some (.octet, n)

def State.Left (s : State) : Prop :=
  ∃ blk, s.heap = [blk] ∧ s.blocking = false ∧ Stuck s.start blk.content

theorem State.Left.withRecord (h : s.Left) (r : Record) : (s.withRecord r).Left := h

theorem lexes_left (hs : s.Entered) (hsingle : s.Single blk)
    (h : s.buffer = [] ∨ ∃ n, select rules s.start s.buffer = some (.octet, n)) :
    ∃ k s', (k = .end_ ∨ k = .endOfFragment) ∧ Lexes (scan tools) (enter s) k .none s' ∧ s'.Left := by
  rw [hs.enter]
  by_cases hb : s.buffer = []
  · refine ⟨.end_, s, Or.inl rfl, .token ?_, ⟨blk, hsingle.heap, hsingle.blocking, Or.inl ?_⟩⟩
    · rw [scan_nil hs.skipping hb, wrap, if_neg (by simp [hsingle.blocking])]
    · rw [hsingle.content, hb]
  · obtain ⟨n, hsel⟩ := h.resolve_left hb
    refine ⟨.endOfFragment, { s with buffer := s.buffer.drop n }, Or.inr rfl, .token ?_,
      ⟨blk, hsingle.heap, hsingle.blocking, Or.inr (Or.inr ⟨n, ?_⟩)⟩⟩
    · rw [scan_select hs.skipping hb hsel, act]
      exact if_neg (by simp [hsingle.blocking])
    · rw [hsingle.content]
      exact hsel

theorem select_exists (c : Start) (hb : w ≠ []) : ∃ name n, select rules c w = some (name, n) := by
  have hrule : octetRule ∈ rules := by simp [rules, octetRule]
  have hlong : octetRule.pattern.longest w = some 1 := by
    rw [octetRule, Pattern.longest_any, if_neg hb]
  obtain ⟨name, n, hsel, -⟩ := le_select (c := c) hrule rfl hlong
  exact ⟨name, n, hsel⟩

theorem select_own {rule : Rule} (hc : (rules.filter fun r => r.on c) = [rule, octetRule])
    (hb : w ≠ []) :
    (∃ n, select rules c w = some (.octet, n)) ∨
      ∃ n, select rules c w = some (rule.name, n) ∧ n ≤ w.length ∧ w.take n ∈ rule.pattern.lang := by
  obtain ⟨name, n, hsel⟩ := select_exists c hb
  obtain ⟨r, hr, hon, rfl, hlong⟩ := select_sound hsel
  have hmem : r ∈ rules.filter fun r => r.on c := List.mem_filter.2 ⟨hr, hon⟩
  rw [hc] at hmem
  rcases List.mem_cons.1 hmem with rfl | hmem
  · obtain ⟨hn, hin, -⟩ := Pattern.longest_sound hlong
    exact Or.inr ⟨n, hsel, hn, hin⟩
  · obtain rfl := List.mem_singleton.1 hmem
    exact Or.inl ⟨n, hsel⟩

theorem lexes_rule (hs : s.Entered) (hb : s.buffer ≠ [])
    (hsel : select rules s.start s.buffer = some (name, n)) (hn : n ≤ s.buffer.length)
    (hact : ∀ yytext s', s'.start = s.start →
      act tools name yytext s' = textToken k e next yytext s') :
    Lexes (scan tools) (enter s) k (.sval ((s.buffer.take n).take (n - e))) (s.read n next) := by
  rw [hs.enter]
  have hlength : (s.buffer.take n).length = n := by rw [List.length_take, min_eq_left hn]
  refine .token ((scan_select hs.skipping hb hsel).trans ?_)
  rw [hact, textToken, hlength]
  · rfl
  · rfl

/-- The program ends, or the parser rejects what it has and leaves the scanner where it cannot go
on. -/
def GivesUp (r : Result Fault State) : Prop :=
  (∃ f, r = .fault f) ∨ ∃ s, r = .returned .rejected s ∧ s.Left

theorem GivesUp.returned {code : Code} (h : GivesUp (.returned code s)) : code = .rejected ∧ s.Left := by
  rcases h with ⟨f, hfault⟩ | ⟨s', heq, hleft⟩
  · cases hfault
  · obtain ⟨rfl, rfl⟩ := Result.returned.inj heq
    exact ⟨rfl, hleft⟩

/-- With nothing more to read, the parser rejects what is on the stack. -/
def RejectsEnd (tools : StringTools) (stack : List (ℕ × Value)) : Prop :=
  ∀ k s r, k = .end_ ∨ k = .endOfFragment →
    (parser tools).Halts ⟨stack, .token k .none, s⟩ r →
      ∃ record, r = .returned .rejected (s.withRecord record)

theorem rejectsEnd_of_error (h : top stack ≠ 11 ∧ consistent (top stack) = none)
    (hend : action (top stack) .end_ = .error) (hfragment : action (top stack) .endOfFragment = .error) :
    RejectsEnd tools stack := by
  intro k s r hk hr
  refine ⟨s.record, (halts_error h.1 h.2 ?_).1 hr⟩
  rcases hk with rfl | rfl
  · exact hend
  · exact hfragment

theorem givesUp_of_left (hf : top stack ≠ 11 ∧ consistent (top stack) = none)
    (hreject : RejectsEnd tools stack) (hs : s.Entered) (hsingle : s.Single blk)
    (h : s.buffer = [] ∨ ∃ n, select rules s.start s.buffer = some (.octet, n))
    (hr : (parser tools).Halts ⟨stack, .empty, s⟩ r) : GivesUp r := by
  obtain ⟨k, s', hk, hlex, hleft⟩ := lexes_left hs hsingle h
  have hread : (parser tools).Halts ⟨stack, .token k .none, s'⟩ r := (halts_lex hf.1 hf.2 hlex).1 hr
  obtain ⟨record, rfl⟩ := hreject k s' r hk hread
  exact Or.inr ⟨_, rfl, hleft.withRecord record⟩

def Blank (w : List UInt8) : Prop := crlf ++ crlf <:+: w

theorem select_headerLine (hstart : c = .requestHeaders ∨ c = .responseHeaders) (hb : w ≠ []) :
    (∃ n, select rules c w = some (.octet, n)) ∨
      (∃ n line, select rules c w = some (.header, n) ∧ n ≤ w.length ∧ w.take n = line ++ crlf) ∨
      ∃ rest, w = crlf ++ rest := by
  obtain ⟨name, n, hsel⟩ := select_exists c hb
  obtain ⟨r, hr, hon, rfl, hlong⟩ := select_sound hsel
  obtain ⟨hn, hin, -⟩ := Pattern.longest_sound hlong
  have hmem : r ∈ rules.filter fun r => r.on c := List.mem_filter.2 ⟨hr, hon⟩
  have hheader : ∀ p : Pattern UInt8, w.take n ∈ (Pattern.seq p crlfPattern).lang →
      ∃ line, w.take n = line ++ crlf := by
    intro p hp
    obtain ⟨line, -, v, hv, heq⟩ := hp
    rw [(Pattern.mem_lang_literal _ _).1 hv] at heq
    exact ⟨line, heq.symm⟩
  have hdelimiter : w.take n ∈ crlfPattern.lang → ∃ rest, w = crlf ++ rest := by
    intro hin
    refine ⟨w.drop n, ?_⟩
    rw [← (Pattern.mem_lang_literal _ _).1 hin, List.take_append_drop]
  rcases hstart with rfl | rfl
  · have hrules : (rules.filter fun r => r.on .requestHeaders) =
        [⟨on .requestHeaders, .seq generalHeader crlfPattern, .header⟩,
          ⟨on .requestHeaders, .seq requestHeader crlfPattern, .header⟩,
          ⟨on .requestHeaders, .seq entityHeader crlfPattern, .header⟩,
          ⟨on .requestHeaders, crlfPattern, .requestDelimiter⟩, octetRule] := rfl
    rw [hrules] at hmem
    simp only [List.mem_cons, List.not_mem_nil, or_false] at hmem
    rcases hmem with rfl | rfl | rfl | rfl | rfl
    · exact Or.inr (Or.inl ⟨n, (hheader _ hin).imp fun line hline => ⟨hsel, hn, hline⟩⟩)
    · exact Or.inr (Or.inl ⟨n, (hheader _ hin).imp fun line hline => ⟨hsel, hn, hline⟩⟩)
    · exact Or.inr (Or.inl ⟨n, (hheader _ hin).imp fun line hline => ⟨hsel, hn, hline⟩⟩)
    · exact Or.inr (Or.inr (hdelimiter hin))
    · exact Or.inl ⟨n, hsel⟩
  · have hrules : (rules.filter fun r => r.on .responseHeaders) =
        [⟨on .responseHeaders, .seq generalHeader crlfPattern, .header⟩,
          ⟨on .responseHeaders, .seq responseHeader crlfPattern, .header⟩,
          ⟨on .responseHeaders, .seq entityHeader crlfPattern, .header⟩,
          ⟨on .responseHeaders, crlfPattern, .responseDelimiter⟩, octetRule] := rfl
    rw [hrules] at hmem
    simp only [List.mem_cons, List.not_mem_nil, or_false] at hmem
    rcases hmem with rfl | rfl | rfl | rfl | rfl
    · exact Or.inr (Or.inl ⟨n, (hheader _ hin).imp fun line hline => ⟨hsel, hn, hline⟩⟩)
    · exact Or.inr (Or.inl ⟨n, (hheader _ hin).imp fun line hline => ⟨hsel, hn, hline⟩⟩)
    · exact Or.inr (Or.inl ⟨n, (hheader _ hin).imp fun line hline => ⟨hsel, hn, hline⟩⟩)
    · exact Or.inr (Or.inr (hdelimiter hin))
    · exact Or.inl ⟨n, hsel⟩

theorem semantics_header (tools : StringTools) (v : Value) (header : List UInt8) (s : State) :
    (∃ f, semantics tools .headers [v, .sval header] s = .fault f) ∨
      ∃ record, semantics tools .headers [v, .sval header] s = .value .none (s.withRecord record) := by
  rw [semantics, storeHeader]
  cases matchHeader header with
  | none => exact Or.inr ⟨s.record, rfl⟩
  | some parts =>
    by_cases hname : parts.1 = headerContentEncoding
    · exact Or.inl ⟨.encoding parts.1, if_pos hname⟩
    · exact Or.inr ⟨_, if_neg hname⟩

theorem rejectsEnd_complete {record : Record} {k : Token} (hk : k = .end_ ∨ k = .endOfFragment)
    (hr : (parser tools).Halts ⟨[(4, .none)], .token k .none, s.withRecord record⟩ r) :
    ∃ record, r = .returned .rejected (s.withRecord record) := by
  have hreject : RejectsEnd tools [(4, Value.none)] := rejectsEnd_of_error ⟨by decide, rfl⟩ rfl rfl
  exact hreject k (s.withRecord record) r hk hr

theorem rejectsEnd_request (method : List UInt8) :
    RejectsEnd tools [(15, .none), (7, .none), (1, .sval method)] := by
  intro k s r hk hr
  have haction : action 15 k = .reduce .headRest1 := by rcases hk with rfl | rfl <;> rfl
  have hrest := (halts_reduce [(15, Value.none), (7, Value.none)] [(1, .sval method)] (by simp [top, parser])
    (Or.inr ⟨rfl, k, .none, rfl, haction⟩) rfl rfl rfl).1 hr
  have hhead := (halts_reduce [(6, Value.none), (1, Value.sval method)] [] (by simp [top, parser])
    (Or.inl rfl) rfl rfl rfl).1 hrest
  exact rejectsEnd_complete hk hhead

theorem rejectsEnd_response (version : List UInt8) :
    RejectsEnd tools [(18, .none), (10, .none), (2, .sval version)] := by
  intro k s r hk hr
  have haction : action 18 k = .reduce .headRest2 := by rcases hk with rfl | rfl <;> rfl
  have hrest := (halts_reduce [(18, Value.none), (10, Value.none)] [(2, .sval version)] (by simp [top, parser])
    (Or.inr ⟨rfl, k, .none, rfl, haction⟩) rfl rfl rfl).1 hr
  cases hversion : matchVersion version with
  | none =>
    have habort : semantics tools .headResponse [.sval version, .none] s = .abort s := by
      simp [semantics, hversion]
    exact ⟨s.record, (halts_reduce_abort [(9, Value.none), (2, Value.sval version)] [] (by simp [top, parser])
      (Or.inl rfl) rfl habort).1 hrest⟩
  | some number =>
    have hvalue : semantics tools .headResponse [.sval version, .none] s =
        .value .none (s.withRecord { s.record with version := versionToType number }) := by
      simp [semantics, hversion, State.withRecord]
    have hhead := (halts_reduce [(9, Value.none), (2, Value.sval version)] [] (by simp [top, parser])
      (Or.inl rfl) rfl hvalue rfl).1 hrest
    exact rejectsEnd_complete hk hhead

theorem blank_suffix {v : List UInt8} (h : Blank w) : Blank (v ++ w) :=
  h.trans (List.suffix_append v w).isInfix

theorem givesUp_fields {q base : ℕ} {u : ℕ × Value} (hq : InHeaders q base)
    (hreject : RejectsEnd tools [(q, .none), (base, .none), u]) (hs : s.Entered) (hsingle : s.Single blk)
    (hstart : s.start = .requestHeaders ∨ s.start = .responseHeaders) (hblank : ¬ Blank (crlf ++ s.buffer))
    (hr : (parser tools).Halts ⟨[(q, .none), (base, .none), u], .empty, s⟩ r) : GivesUp r := by
  have hread : q ≠ 11 ∧ consistent q = none ∧ action q .header = .shift 22 ∧ goto base .headers = q := by
    rcases hq with ⟨rfl, rfl⟩ | ⟨rfl, rfl⟩
    · exact ⟨by decide, rfl, rfl, rfl⟩
    · exact ⟨by decide, rfl, rfl, rfl⟩
  obtain ⟨hfinal, hnone, hshift, hgoto⟩ := hread
  have htop : top [(q, Value.none), (base, .none), u] ≠ 11 ∧
      consistent (top [(q, Value.none), (base, .none), u]) = none := ⟨hfinal, hnone⟩
  induction hlen : s.buffer.length using Nat.strong_induction_on generalizing s blk with
  | _ len ih =>
    by_cases hb : s.buffer = []
    · exact givesUp_of_left htop hreject hs hsingle (Or.inl hb) hr
    rcases select_headerLine hstart hb with hoctet | ⟨n, line, hsel, hn, htake⟩ | ⟨rest, hrest⟩
    · exact givesUp_of_left htop hreject hs hsingle (Or.inr hoctet) hr
    · have hlex : Lexes (scan tools) (enter s) .header (.sval ((s.buffer.take n).take (n - 2)))
          (s.read n s.start) := lexes_rule hs hb hsel hn fun yytext s' hs' => by rw [act, hs']
      have hpath : Path (parser tools) (fun _ => True) ⟨[(q, .none), (base, .none), u], .empty, s⟩
          ⟨[(22, .sval ((s.buffer.take n).take (n - 2))), (q, .none), (base, .none), u], .empty,
            s.read n s.start⟩ := path_token trivial hlex hshift hnone (by simp)
      rcases semantics_header tools .none ((s.buffer.take n).take (n - 2)) (s.read n s.start) with
        ⟨f, hv⟩ | ⟨record, hv⟩
      · have hend := (halts_reduce_fault [(22, Value.sval ((s.buffer.take n).take (n - 2))), (q, .none)]
          [(base, .none), u] (by simp [top, parser]) (Or.inl rfl) rfl hv).1 (hpath.halts.1 hr)
        exact Or.inl ⟨f, hend⟩
      have hreduce : Path (parser tools) (fun _ => True)
          ⟨[(22, .sval ((s.buffer.take n).take (n - 2))), (q, .none), (base, .none), u], .empty,
            s.read n s.start⟩
          ⟨[(goto base .headers, .none), (base, .none), u], .empty,
            (s.read n s.start).withRecord record⟩ :=
        path_default [(22, .sval ((s.buffer.take n).take (n - 2))), (q, .none)] [(base, .none), u] trivial rfl
          rfl hv (by simp)
      rw [hgoto] at hreduce
      have hsplit : s.buffer = line ++ (crlf ++ s.buffer.drop n) := by
        rw [← List.append_assoc, ← htake, List.take_append_drop]
      have hlt : (s.buffer.drop n).length < len := by
        have hsum := congrArg List.length hsplit
        simp only [List.length_append, crlf, List.length_cons, List.length_nil] at hsum
        omega
      have hblank' : ¬ Blank (crlf ++ s.buffer.drop n) := by
        intro h
        rw [hsplit] at hblank
        exact hblank (blank_suffix (blank_suffix h))
      exact ih _ hlt ((hs.read n s.start).withRecord record) ((hsingle.read hs n s.start).withRecord record)
        hstart hblank' ((hpath.trans hreduce).halts.1 hr) rfl
    · refine absurd ?_ hblank
      rw [hrest, ← List.append_assoc]
      exact (List.prefix_append _ _).isInfix

/-- A start condition with one rule for a token of its own: the parser shifts it, or gives up. -/
theorem shifts_or_givesUp {rule : Rule} {q : ℕ} (hc : (rules.filter fun r => r.on s.start) = [rule, octetRule])
    (hact : ∀ yytext s', act tools rule.name yytext s' = textToken k e next yytext s')
    (htop : top stack ≠ 11 ∧ consistent (top stack) = none) (hreject : RejectsEnd tools stack)
    (ha : action (top stack) k = .shift q) (hdepth : stack.length < 9000) (hs : s.Entered)
    (hsingle : s.Single blk) (hr : (parser tools).Halts ⟨stack, .empty, s⟩ r) :
    GivesUp r ∨ ∃ n w, s.buffer.take n ∈ rule.pattern.lang ∧
      Lexes (scan tools) (enter s) k (.sval w) (s.read n next) ∧
      (parser tools).Halts ⟨(q, .sval w) :: stack, .empty, s.read n next⟩ r := by
  by_cases hb : s.buffer = []
  · exact Or.inl (givesUp_of_left htop hreject hs hsingle (Or.inl hb) hr)
  rcases select_own hc hb with hoctet | ⟨n, hsel, hn, hmem⟩
  · exact Or.inl (givesUp_of_left htop hreject hs hsingle (Or.inr hoctet) hr)
  · have hlex : Lexes (scan tools) (enter s) k (.sval ((s.buffer.take n).take (n - e))) (s.read n next) :=
      lexes_rule hs hb hsel hn fun yytext s' _ => hact yytext s'
    have hpath : Path (parser tools) (fun _ => True) ⟨stack, .empty, s⟩
        ⟨(q, .sval ((s.buffer.take n).take (n - e))) :: stack, .empty, s.read n next⟩ :=
      path_token trivial hlex ha htop.2 hdepth
    exact Or.inr ⟨n, _, hmem, hlex, hpath.halts.1 hr⟩

/-- The rules of the scanner and the actions of the grammar for a first line. -/
structure LineRules (tools : StringTools) (k₁ k₂ k₃ : Token) (c₁ c₂ c₃ c₄ : Start) (r₁ r₂ r₃ : Rule)
    (q₁ q₂ : ℕ) (lineRest1 lineRest2 : GrammarRule) : Prop where
  own₁ : (rules.filter fun r => r.on c₁) = [r₁, octetRule]
  own₂ : (rules.filter fun r => r.on c₂) = [r₂, octetRule]
  own₃ : (rules.filter fun r => r.on c₃) = [r₃, octetRule]
  act₁ : ∀ yytext s', act tools r₁.name yytext s' = textToken k₁ 1 c₂ yytext s'
  act₂ : ∀ yytext s', act tools r₂.name yytext s' = textToken k₂ 1 c₃ yytext s'
  act₃ : ∀ yytext s', act tools r₃.name yytext s' = textToken k₃ 2 c₄ yytext s'
  ended : ∃ p, r₃.pattern = .seq p crlfPattern
  headers : c₄ = .requestHeaders ∨ c₄ = .responseHeaders
  rejects : ∀ q ∈ [q₁, q₂], q ≠ 11 ∧ action q .end_ = .error ∧ action q .endOfFragment = .error
  stores₂ : ∀ w s, ∃ record, semantics tools lineRest2 [.sval w] s = .value .none (s.withRecord record)
  stores₁ : ∀ w s, ∃ record,
    semantics tools lineRest1 [.sval w, .none] s = .value .none (s.withRecord record)

theorem givesUp_line {k₁ k₂ k₃ : Token} {c₁ c₂ c₃ c₄ : Start} {r₁ r₂ r₃ : Rule} {q₁ q₂ q₃ q₄ base q : ℕ}
    {lineRest1 lineRest2 : GrammarRule}
    (htables : LineTables k₁ k₂ k₃ q₁ q₂ q₃ q₄ base q lineRest1 lineRest2)
    (hrules : LineRules tools k₁ k₂ k₃ c₁ c₂ c₃ c₄ r₁ r₂ r₃ q₁ q₂ lineRest1 lineRest2)
    (hreject : ∀ w, RejectsEnd tools [(q, .none), (base, .none), (q₁, .sval w)]) (hs : s.Entered)
    (hsingle : s.Single blk) (hstart : s.start = c₁) (hblank : ¬ Blank s.buffer)
    (hr : (parser tools).Halts (Parser.start s) r) : GivesUp r := by
  obtain ⟨hshift₂, hnone₁, -⟩ := htables.shift₂
  obtain ⟨hshift₃, hnone₂, -⟩ := htables.shift₃
  obtain ⟨hfinal₁, hend₁, hfragment₁⟩ := hrules.rejects q₁ (by simp)
  obtain ⟨hfinal₂, hend₂, hfragment₂⟩ := hrules.rejects q₂ (by simp)
  subst hstart
  have hreject₀ : RejectsEnd tools [] := rejectsEnd_of_error ⟨by decide, rfl⟩ rfl rfl
  rcases shifts_or_givesUp hrules.own₁ hrules.act₁ ⟨by decide, rfl⟩ hreject₀ htables.shift₁ (by simp) hs
    hsingle hr with hgives | ⟨n₁, w₁, -, hlex₁, hr₁⟩
  · exact hgives
  set s₁ := s.read n₁ c₂ with hs₁
  have hentered₁ : s₁.Entered := hs.read n₁ c₂
  have hsingle₁ : s₁.Single (blk.advance n₁) := hsingle.read hs n₁ c₂
  have htop₁ : top [(q₁, Value.sval w₁)] ≠ 11 ∧ consistent (top [(q₁, Value.sval w₁)]) = none :=
    ⟨hfinal₁, hnone₁⟩
  have hreject₁ : RejectsEnd tools [(q₁, .sval w₁)] := rejectsEnd_of_error htop₁ hend₁ hfragment₁
  rcases shifts_or_givesUp hrules.own₂ hrules.act₂ htop₁ hreject₁ hshift₂ (by simp) hentered₁
    hsingle₁ hr₁ with hgives | ⟨n₂, w₂, -, hlex₂, hr₂⟩
  · exact hgives
  set s₂ := s₁.read n₂ c₃ with hs₂
  have hentered₂ : s₂.Entered := hentered₁.read n₂ c₃
  have hsingle₂ : s₂.Single ((blk.advance n₁).advance n₂) := hsingle₁.read hentered₁ n₂ c₃
  have htop₂ : top [(q₂, Value.sval w₂), (q₁, .sval w₁)] ≠ 11 ∧
      consistent (top [(q₂, Value.sval w₂), (q₁, .sval w₁)]) = none := ⟨hfinal₂, hnone₂⟩
  have hreject₂ : RejectsEnd tools [(q₂, .sval w₂), (q₁, .sval w₁)] :=
    rejectsEnd_of_error htop₂ hend₂ hfragment₂
  rcases shifts_or_givesUp hrules.own₃ hrules.act₃ htop₂ hreject₂ hshift₃ (by simp) hentered₂
    hsingle₂ hr₂ with hgives | ⟨n₃, w₃, hmem₃, hlex₃, -⟩
  · exact hgives
  -- the line is there, and what follows it has no empty line
  set s₃ := s₂.read n₃ c₄ with hs₃
  obtain ⟨record₂, hv₂⟩ := hrules.stores₂ w₃ s₃
  obtain ⟨record₁, hv₁⟩ := hrules.stores₁ w₂ (s₃.withRecord record₂)
  have hline : Path (parser tools) (· ≠ 12) (Parser.start s)
      ⟨[(q, .none), (base, .none), (q₁, .sval w₁)], .empty, s₃.withRecord record₁⟩ :=
    path_line htables hlex₁ hlex₂ hlex₃ hv₂ hv₁
  have hblank₃ : ¬ Blank (crlf ++ s₃.buffer) := by
    intro h
    obtain ⟨p, hp⟩ := hrules.ended
    rw [hp] at hmem₃
    obtain ⟨line, -, htake⟩ := (Pattern.mem_lang_ended p crlf _).1 hmem₃
    have hsplit : s₂.buffer = line ++ (crlf ++ s₃.buffer) := by
      rw [← List.append_assoc, ← htake]
      exact (List.take_append_drop n₃ s₂.buffer).symm
    have hblank₂ : Blank s₂.buffer := by
      rw [hsplit]
      exact blank_suffix h
    have hsuffix : s₂.buffer <:+ s.buffer := (List.drop_suffix n₂ _).trans (List.drop_suffix n₁ _)
    exact hblank (hblank₂.trans hsuffix.isInfix)
  exact givesUp_fields htables.headers (hreject w₁) ((hentered₂.read n₃ c₄).withRecord record₁)
    ((hsingle₂.read hentered₂ n₃ c₄).withRecord record₁) hrules.headers hblank₃ (hline.halts.1 hr)

theorem requestRules (tools : StringTools) : LineRules tools .method .uri .version .request .uri .version
    .requestHeaders ⟨on .request, .seq method sp, .method⟩ ⟨on .uri, .seq requestUri sp, .uri⟩
    ⟨on .version, .seq version crlfPattern, .requestVersion⟩ 1 5 .requestLineRest1 .requestLineRest2 where
  own₁ := rfl
  own₂ := rfl
  own₃ := rfl
  act₁ _ _ := rfl
  act₂ _ _ := rfl
  act₃ _ _ := rfl
  ended := ⟨version, rfl⟩
  headers := Or.inl rfl
  rejects q hq := by
    rcases List.mem_pair.1 hq with rfl | rfl
    · exact ⟨by decide, rfl, rfl⟩
    · exact ⟨by decide, rfl, rfl⟩
  stores₂ _ _ := ⟨_, rfl⟩
  stores₁ _ _ := ⟨_, rfl⟩

theorem statusRules (tools : StringTools) : LineRules tools .version .status .reason .response .status .reason
    .responseHeaders ⟨on .response, .seq version sp, .responseVersion⟩ ⟨on .status, .seq (digits 3) sp, .status⟩
    ⟨on .reason, .seq reason crlfPattern, .reason⟩ 2 8 .statusLineRest1 .statusLineRest2 where
  own₁ := rfl
  own₂ := rfl
  own₃ := rfl
  act₁ _ _ := rfl
  act₂ _ _ := rfl
  act₃ _ _ := rfl
  ended := ⟨reason, rfl⟩
  headers := Or.inr rfl
  rejects q hq := by
    rcases List.mem_pair.1 hq with rfl | rfl
    · exact ⟨by decide, rfl, rfl⟩
    · exact ⟨by decide, rfl, rfl⟩
  stores₂ _ _ := ⟨_, rfl⟩
  stores₁ _ _ := ⟨_, rfl⟩

theorem givesUp_of_not_blank (hs : s.Entered) (hsingle : s.Single blk) (hstart : s.start = .initial)
    (hblank : ¬ Blank s.buffer) (hr : (parser tools).Halts (Parser.start s) r) : GivesUp r := by
  have hf : top ([] : List (ℕ × Value)) ≠ (parser tools).final := by simp [top, parser]
  have hreject : RejectsEnd tools [] := rejectsEnd_of_error ⟨by decide, rfl⟩ rfl rfl
  by_cases hb : s.buffer = []
  · exact givesUp_of_left ⟨by decide, rfl⟩ hreject hs hsingle (Or.inl hb) hr
  obtain ⟨name, n, hsel⟩ := select_exists s.start hb
  have hentered (next : Start) : ({ s with start := next } : State).Entered :=
    ⟨hs.held, hs.chunkSize, hs.missing, hs.skipping⟩
  have hsingle' (next : Start) : ({ s with start := next } : State).Single blk :=
    ⟨hsingle.heap, hsingle.cont, hsingle.fragment, hsingle.content, hsingle.blocking⟩
  -- the first rule only finds out which kind of message it is
  have hfirst {next : Start} (hact : ∀ yytext s', act tools name yytext s' =
      .more { s' with start := next, buffer := yytext ++ s'.buffer }) :
      (parser tools).Halts (Parser.start { s with start := next }) r := by
    have hscan : scan tools s = .more { s with start := next } := by
      rw [scan_select hs.skipping hb hsel, hact, List.take_append_drop]
    have henter : (parser tools).enter { s with start := next } = { s with start := next } :=
      (hentered next).enter
    rw [Parser.start, halts_enter hf rfl, henter]
    rw [Parser.start, halts_enter hf rfl] at hr
    have henter' : (parser tools).enter s = s := hs.enter
    rw [henter'] at hr
    exact (halts_more hf rfl hscan).1 hr
  obtain ⟨rule, hrule, hon, hname, -⟩ := select_sound hsel
  rw [hstart] at hon
  rcases initial_rules hrule hon with rfl | rfl | rfl
  · obtain rfl : RuleName.responseStart = name := hname
    have hnext : (parser tools).Halts (Parser.start { s with start := .response }) r := hfirst fun _ _ => rfl
    exact givesUp_line statusTables (statusRules tools) rejectsEnd_response (hentered _) (hsingle' _) rfl hblank hnext
  · obtain rfl : RuleName.requestStart = name := hname
    have hnext : (parser tools).Halts (Parser.start { s with start := .request }) r := hfirst fun _ _ => rfl
    exact givesUp_line requestTables (requestRules tools) rejectsEnd_request (hentered _) (hsingle' _) rfl hblank hnext
  · obtain rfl : RuleName.octet = name := hname
    exact givesUp_of_left ⟨by decide, rfl⟩ hreject hs hsingle (Or.inr ⟨n, hsel⟩) hr

theorem rejectsEnd_body : RejectsEnd tools bodyStack := rejectsEnd_of_error ⟨by decide, rfl⟩ rfl rfl

/-- The rule for the entity counts the octets of the fragment, and finds nothing behind them. -/
theorem lexes_short {m : ℕ} (hs : s.Entered) (hstart : s.start = .body) (hblocking : s.blocking = false)
    (hfind : ∃ v, s.record.find tools headerContentLength = some v ∧ extract v = UInt32.ofNat m)
    (hb : s.buffer ≠ []) (hlt : s.buffer.length < m) (hm : m < 2 ^ 32) :
    ∃ s', Lexes (scan tools) (enter s) .end_ .none s' ∧ s'.heap = s.heap ∧ s'.blocking = false ∧
      s'.start = .body := by
  obtain ⟨v, hv, hextract⟩ := hfind
  set s₁ : State := { s with
    buffer := []
    offset := s.offset + UInt32.ofNat s.buffer.length
    chunkSize := UInt32.ofNat m
    missing := UInt32.ofNat (m - s.buffer.length) } with hs₁
  have hmissing : UInt32.ofNat m - UInt32.ofNat s.buffer.length = UInt32.ofNat (m - s.buffer.length) :=
    (UInt32.ofNat_sub hlt.le).symm
  have hmore : scan tools s = .more s₁ := by
    rw [scan_body hstart hs.skipping hb, bodyAction]
    simp only [hs.chunkSize, hv, hextract, hmissing, if_true]
    rw [bodyToken, if_neg (ofNat_ne_zero (by omega) (by omega))]
  have hskipping : s₁.skipping = none := hs.skipping
  have hempty : s₁.buffer = [] := rfl
  have hend : scan tools s₁ = .token .end_ .none s₁ := by
    rw [scan_nil hskipping hempty, wrap, if_neg (by simp [hs₁, hblocking])]
  rw [hs.enter]
  exact ⟨s₁, .more hmore (.token hend), rfl, hblocking, hstart⟩

theorem givesUp_of_short {h : Head} {first : List UInt8} {m : ℕ} (hann : Announces tools h.fields m)
    (hm : m < 2 ^ 32) (hacc : h.Accepted first) (hs : s.Entered) (hsingle : s.Single blk)
    (hstart : s.start = .initial) (hrecord : s.record = {}) (hb : s.buffer = h.text ++ first)
    (hlt : first.length < m) (hr : (parser tools).Halts (Parser.start s) r) : GivesUp r := by
  by_cases hun : h.Unencoded
  swap
  · exact Or.inl ⟨_, (stopsBefore_encoded hun hs hstart hacc hb).halts.1 hr⟩
  rw [(path_head hun hs hstart hrecord hacc hb).halts] at hr
  have hentered : (s.behind tools h).Entered := entered_behind hs
  have hbehind : (s.behind tools h).Single (blk.advance h.text.length) :=
    (hsingle.read hs h.text.length (h.next tools)).withRecord (h.record tools)
  have hbuffer : (s.behind tools h).buffer = first := buffer_behind hb
  by_cases hne : first = []
  · exact givesUp_of_left ⟨by decide, rfl⟩ rejectsEnd_body hentered hbehind (Or.inl (hbuffer.trans hne)) hr
  · obtain ⟨s', hlex, hheap, hblocking, hbody⟩ := lexes_short hentered (next_of_announces hann hm)
      hbehind.blocking (find_of_announces hann hm) (by rwa [hbuffer]) (by rwa [hbuffer]) hm
    rw [halts_lex (by simp [bodyStack, top, parser]) rfl hlex] at hr
    obtain ⟨record, rfl⟩ := rejectsEnd_body .end_ s' r (Or.inl rfl) hr
    have hleft : s'.Left := ⟨blk.advance h.text.length, hheap.trans hbehind.heap, hblocking, Or.inr (Or.inl hbody)⟩
    exact Or.inr ⟨_, rfl, hleft.withRecord record⟩

/-- The module has a fragment from which its parser cannot go on. -/
def ModuleParser.Waits (m : ModuleParser) : Prop :=
  m.driver.blocking = false ∧ ∃ blk bs, m.headFragment = blk :: bs ∧ Stuck m.driver.start blk.content

theorem chain_link_cons (blk : Block) (bs : List Block) :
    ∃ blk' bs', Heap.chain (Heap.link 0 (blk :: bs)) 0 = blk' :: bs' ∧ blk'.content = blk.content := by
  cases bs with
  | nil => exact ⟨_, _, rfl, rfl⟩
  | cons c bs => exact ⟨_, _, rfl, rfl⟩

variable {m m' : ModuleParser} {data : List UInt8} {fragments : List (List UInt8)}

theorem ModuleParser.Waits.halts {code : Code} (h : m.Waits)
    (hr : (parser tools).Halts (Parser.start (m.begin data)) (.returned code s)) :
    code = .rejected ∧ s.driver = m.driver ∧ s.heap = (m.begin data).heap := by
  obtain ⟨hblocking, blk, bs, hhead, hstuck⟩ := h
  have hf : top ([] : List (ℕ × Value)) ≠ (parser tools).final := by simp [top, parser]
  have hs : (m.begin data).Entered := ⟨rfl, rfl, rfl, rfl⟩
  have hbuffer : (m.begin data).buffer = blk.content := by simp [ModuleParser.begin, hhead]
  have hread {k : Token} {s' : State} (hscan : scan tools (m.begin data) = .token k .none s')
      (herror : action 0 k = .error) : code = .rejected ∧ s = s' := by
    have henter : (parser tools).enter (m.begin data) = m.begin data := hs.enter
    rw [Parser.start, halts_read hf rfl (henter.symm ▸ hscan), halts_error hf rfl herror] at hr
    exact Result.returned.inj hr
  by_cases hb : (m.begin data).buffer = []
  · have hwrap : wrap (m.begin data) = .token .end_ .none (m.begin data) := by
      rw [wrap, if_neg]
      simp [ModuleParser.begin, hblocking]
    obtain ⟨rfl, rfl⟩ := hread ((scan_nil hs.skipping hb).trans hwrap) rfl
    exact ⟨rfl, rfl, rfl⟩
  rcases hstuck with hempty | hbody | ⟨n, hsel⟩
  · exact absurd (hbuffer.trans hempty) hb
  · have hfault : scan tools (m.begin data) = .fault .assertion :=
      scan_without_length hbody hs.skipping hs.chunkSize rfl hb
    have henter : (parser tools).enter (m.begin data) = m.begin data := hs.enter
    rw [Parser.start, halts_read_fault hf rfl (henter.symm ▸ hfault)] at hr
    cases hr
  · rw [← hbuffer] at hsel
    have hoctet : scan tools (m.begin data) =
        .token .endOfFragment .none { m.begin data with buffer := (m.begin data).buffer.drop n } := by
      rw [scan_select hs.skipping hb hsel, act, if_neg]
      simp [ModuleParser.begin, hblocking]
    obtain ⟨rfl, rfl⟩ := hread hoctet rfl
    exact ⟨rfl, rfl, rfl⟩

theorem ModuleParser.Waits.handles (h : m.Waits) (hm : m.Handles tools data m') :
    m'.Waits ∧ m'.pushed = m.pushed := by
  cases hm with
  | error hr hcode =>
    obtain ⟨-, hdriver, hheap⟩ := h.halts hr
    obtain ⟨hblocking, blk, bs, hhead, hstuck⟩ := h
    refine ⟨⟨?_, ?_⟩, rfl⟩
    · rw [hdriver]
      exact hblocking
    · obtain ⟨blk', bs', hchain, hcontent⟩ := chain_link_cons blk (bs ++ [Block.received data])
      refine ⟨blk', bs', ?_, ?_⟩
      · rw [hheap, ModuleParser.begin, hhead]
        exact hchain
      · rw [hdriver, hcontent]
        exact hstuck
  | wait hr =>
    obtain ⟨hcode, -⟩ := h.halts hr
    cases hcode
  | push hr =>
    obtain ⟨hcode, -⟩ := h.halts hr
    cases hcode

theorem ModuleParser.Waits.runs (h : m.Waits) (hm : ModuleParser.Runs tools m fragments m') :
    m'.Waits ∧ m'.pushed = m.pushed := by
  induction hm with
  | nil => exact ⟨h, rfl⟩
  | cons hhandles _ ih =>
    obtain ⟨hwaits, hpushed⟩ := h.handles hhandles
    obtain ⟨hwaits', hpushed'⟩ := ih hwaits
    exact ⟨hwaits', hpushed'.trans hpushed⟩

theorem entered_first (data : List UInt8) :
    (ModuleParser.begin { driver := { blocking := false } } data).Entered := ⟨rfl, rfl, rfl, rfl⟩

theorem single_first (data : List UInt8) :
    (ModuleParser.begin { driver := { blocking := false } } data).Single (Block.received data) :=
  ⟨rfl, rfl, rfl, by simp [ModuleParser.begin], rfl⟩

theorem buffer_first (data : List UInt8) :
    (ModuleParser.begin { driver := { blocking := false } } data).buffer = data := by
  simp [ModuleParser.begin, content_received]

theorem accepts_of_append {start : Start} {fs : List Field} {first rest : List UInt8}
    (h : Accepts start fs (first ++ rest)) : Accepts start fs first := by
  induction fs with
  | nil => trivial
  | cons f fs ih =>
    obtain ⟨hsel, hrest⟩ := h
    refine ⟨?_, ih hrest⟩
    have hsplit : f.text ++ (crlf ++ (fieldsText fs ++ (crlf ++ (first ++ rest)))) =
        (f.text ++ (crlf ++ (fieldsText fs ++ (crlf ++ first)))) ++ rest := by
      simp only [List.append_assoc]
    rw [hsplit] at hsel
    have htake := select_take hsel (m := (f.text ++ (crlf ++ (fieldsText fs ++ (crlf ++ first)))).length)
      (by simp [crlf])
    rwa [List.take_left] at htake

theorem givesUp_first (m : WholeMessage tools) {data rest : List UInt8} (htext : m.text = data ++ rest)
    (hrest : rest ≠ [])
    (hr : (parser tools).Halts (Parser.start (ModuleParser.begin { driver := { blocking := false } } data)) r) :
    GivesUp r := by
  have hpos := List.length_pos_iff.2 hrest
  have hlen := congrArg List.length htext
  rw [WholeMessage.text, List.length_append, List.length_append] at hlen
  have hdata : data <+: m.head.text ++ m.body := ⟨rest, htext.symm⟩
  by_cases hhead : m.head.text.length ≤ data.length
  · -- the cut is in the body
    obtain ⟨first, rfl⟩ : ∃ first, data = m.head.text ++ first := by
      have hprefix : m.head.text <+: data :=
        List.prefix_of_prefix_length_le (List.prefix_append _ m.body) hdata hhead
      obtain ⟨first, hfirst⟩ := hprefix
      exact ⟨first, hfirst.symm⟩
    rw [List.length_append] at hlen
    have hbody : m.body = first ++ rest := by
      rw [WholeMessage.text, List.append_assoc] at htext
      exact List.append_cancel_left htext
    have hacc : m.head.Accepted first := accepts_of_append (hbody ▸ m.accepted)
    exact givesUp_of_short m.announces m.body_lt hacc (entered_first _) (single_first _) rfl rfl
      (buffer_first _) (by omega) hr
  · refine givesUp_of_not_blank (entered_first _) (single_first _) rfl ?_ hr
    rw [buffer_first]
    intro hblank
    have hprefix : data <+: m.head.text :=
      List.prefix_of_prefix_length_le hdata (List.prefix_append _ m.body) (by omega)
    have hlast : data <+: m.head.text.dropLast := by
      refine List.prefix_of_prefix_length_le hprefix (List.dropLast_prefix _) ?_
      rw [List.length_dropLast]
      omega
    exact m.unbroken (hblank.trans hlast.isInfix)

theorem begin_first (data : List UInt8) : ModuleParser.begin { driver := { blocking := false } } data =
    Driver.begin { blocking := false } data [] [] := by
  simp only [ModuleParser.begin, Driver.begin, List.nil_append, List.head?_cons, Option.map_some,
    content_received, Option.getD_some, List.map_cons, List.map_nil]

theorem parses_whole (m : WholeMessage tools) (hun : m.head.Unencoded) :
    ∃ s, Parses tools { blocking := false } m.text [] [] (.returned .accepted s) ∧ s.finished = true ∧
      s.records = [m.head.record tools] ∧ (s.heap.chain 0).map Block.data = [m.text] := by
  have hs : (ModuleParser.begin { driver := { blocking := false } } m.text).Entered := entered_first _
  have hsingle := single_first m.text
  have hb : (ModuleParser.begin { driver := { blocking := false } } m.text).buffer = m.head.text ++ m.body :=
    buffer_first _
  have hupcoming : (ModuleParser.begin { driver := { blocking := false } } m.text).Upcoming ([] ++ []) := by
    rw [begin_first]
    exact upcoming_begin _ _ [] []
  set t := (ModuleParser.begin { driver := { blocking := false } } m.text).behind tools m.head with ht
  have hparses (s : State) : Parses tools { blocking := false } m.text [] [] (.returned .accepted s) ↔
      (parser tools).Halts ⟨bodyStack, .empty, t⟩ (.returned .accepted s) := by
    rw [Parses, ← begin_first]
    exact (path_head hun hs rfl rfl m.accepted hb).halts
  have hentered : t.Entered := entered_behind hs
  have hbuffer : t.buffer = m.body := buffer_behind hb
  have hbehind : t.Single ((Block.received m.text).advance m.head.text.length) :=
    (hsingle.read hs m.head.text.length (m.head.next tools)).withRecord (m.head.record tools)
  have hin : InBody tools m.body.length ([] : List (List UInt8)).flatten [] (m.head.record tools) m.body.length
      [] t :=
    inBody_behind m.announces (List.length_pos_iff.2 m.body_ne) m.body_lt hs hb hupcoming (Or.inl rfl) (by simp)
  have hscan := hin.scan_eq (by rw [hbuffer]; exact m.body_ne)
  rw [hbuffer, UInt32.sub_self, bodyToken, if_pos rfl] at hscan
  obtain ⟨s₁, hscan, hheap, hrecord, hrecords⟩ : ∃ s₁, scan tools t =
      .token .body (.ival (UInt32.ofNat m.body.length)) s₁ ∧ s₁.heap = t.heap ∧
      s₁.record = m.head.record tools ∧ s₁.records = [] := ⟨_, hscan, rfl, rfl, rfl⟩
  have hlex : Lexes (scan tools) (enter t) .body (.ival (UInt32.ofNat m.body.length)) s₁ := by
    rw [hentered.enter]
    exact .token hscan
  refine ⟨s₁.deliver, (hparses _).2 (halts_body hlex ?_), rfl, ?_, ?_⟩
  · rw [hrecord]
    exact find_of_announces m.announces m.body_lt
  · rw [State.deliver, hrecord, hrecords]
    rfl
  · change (Heap.chain s₁.heap 0).map Block.data = [m.text]
    rw [hheap, hbehind.heap]
    rfl

theorem passesOnce_single (m : WholeMessage tools) (hun : m.head.Unencoded) : PassesOnce tools [m.text] := by
  obtain ⟨s, hparses, hfinished, hrecords, hchain⟩ := parses_whole m hun
  have hhalts : (parser tools).Halts
      (Parser.start (ModuleParser.begin { driver := { blocking := false } } m.text)) (.returned .accepted s) := by
    rw [begin_first]
    exact hparses
  refine ⟨[], m.text, _, _, s.heap.chain 0, m.head.record tools, rfl, .nil _, rfl, .push hhalts hfinished, ?_,
    hchain, s, ?_, hrecords⟩
  · rw [hrecords]
    rfl
  · rwa [List.flatten_singleton]

theorem not_passesOnce_cut (m : WholeMessage tools) (f : Fragmentation m) (hlen : 2 ≤ f.fragments.length) :
    ¬ PassesOnce tools f.fragments := by
  intro hpasses
  obtain ⟨before, last, m₁, m', chain, record, hfragments, hruns, -, hhandles, hpushed, -⟩ := hpasses
  rw [hfragments, List.length_append, List.length_singleton] at hlen
  obtain ⟨first, before, rfl⟩ := List.exists_cons_of_ne_nil (l := before) (by rintro rfl; simp at hlen)
  have htext : m.text = first ++ (before ++ [last]).flatten := by
    rw [← f.flatten, hfragments]
    rfl
  have hrest : (before ++ [last]).flatten ≠ [] := by
    intro h
    refine f.nonempty last (by rw [hfragments]; simp) ?_
    rw [List.flatten_eq_nil_iff] at h
    exact h last (by simp)
  obtain ⟨m₀, hfirst, hruns⟩ : ∃ m₀, ModuleParser.Handles tools { driver := { blocking := false } } first m₀ ∧
      ModuleParser.Runs tools m₀ before m₁ := by
    cases hruns with
    | cons h hrest => exact ⟨_, h, hrest⟩
  have hwaits : m₀.Waits ∧ m₀.pushed = [] := by
    cases hfirst with
    | @error code s hr hcode =>
      obtain ⟨-, blk, hheap, hblocking, hstuck⟩ := (givesUp_first m htext hrest hr).returned
      have hchain : Heap.chain s.heap 0 = [blk] := by
        rw [hheap]
        rfl
      exact ⟨⟨hblocking, blk, [], hchain, hstuck⟩, rfl⟩
    | wait hr =>
      obtain ⟨hcode, -⟩ := (givesUp_first m htext hrest hr).returned
      cases hcode
    | push hr =>
      obtain ⟨hcode, -⟩ := (givesUp_first m htext hrest hr).returned
      cases hcode
  obtain ⟨hwaits₁, hpushed₁⟩ := hwaits.1.runs hruns
  obtain ⟨-, hpushed₂⟩ := hwaits₁.handles hhandles
  rw [hpushed₂, hpushed₁, hwaits.2] at hpushed
  cases hpushed

/-- A message is passed on once exactly when it comes in a single fragment and `encoding` is not
called for it. -/
theorem passesOnce_iff_single (m : WholeMessage tools) (f : Fragmentation m) :
    PassesOnce tools f.fragments ↔ f.fragments.length = 1 ∧ m.head.Unencoded := by
  constructor
  · intro hpasses
    refine ⟨?_, ?_⟩
    · by_contra hlen
      have hne : f.fragments ≠ [] := by
        intro h
        have hflatten := f.flatten
        rw [h, WholeMessage.text] at hflatten
        exact m.body_ne (List.append_eq_nil_iff.1 hflatten.symm).2
      have hpos := List.length_pos_iff.2 hne
      exact not_passesOnce_cut m f (by omega) hpasses
    · obtain ⟨-, -, -, -, -, -, -, -, -, -, -, -, s, hparses, -⟩ := hpasses
      rw [f.flatten] at hparses
      exact unencoded_of_returned rfl m.accepted hparses
  · rintro ⟨hlen, hun⟩
    obtain ⟨data, hdata⟩ := List.length_eq_one_iff.1 hlen
    have hflatten := f.flatten
    rw [hdata, List.flatten_singleton] at hflatten
    rw [hdata, hflatten]
    exact passesOnce_single m hun

/-- A message that is cut behind the second octet of its body. -/
theorem not_passesOnce_hello : ∃ (m : WholeMessage asciiTools) (f : Fragmentation m),
    m.head = ⟨okLine, [fiveField]⟩ ∧ m.body = ascii "hello" ∧
      f.fragments = [m.head.text ++ ascii "he", ascii "llo"] ∧ ¬ PassesOnce asciiTools f.fragments := by
  have hacc : Head.Accepted ⟨okLine, [fiveField]⟩ (ascii "hello") := ⟨by decide +kernel, trivial⟩
  have hunbroken : ¬ crlf ++ crlf <:+: (Head.text ⟨okLine, [fiveField]⟩).dropLast := by decide +kernel
  have htext : [Head.text ⟨okLine, [fiveField]⟩ ++ ascii "he", ascii "llo"].flatten =
      Head.text ⟨okLine, [fiveField]⟩ ++ ascii "hello" := by decide
  have hne : ∀ data ∈ [Head.text ⟨okLine, [fiveField]⟩ ++ ascii "he", ascii "llo"], data ≠ [] := by decide
  let m : WholeMessage asciiTools :=
    ⟨⟨okLine, [fiveField]⟩, ascii "hello", by decide, by decide, announces_five, hacc, hunbroken⟩
  let f : Fragmentation m := ⟨_, hne, htext⟩
  exact ⟨m, f, rfl, rfl, rfl, not_passesOnce_cut m f (le_refl 2)⟩

end ACENetwork.Http
