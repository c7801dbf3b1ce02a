import Mathlib
import ACENetwork.Proofs.Http.Scanner

/-! The parser over the head of a message, up to the first call of the scanner behind the empty
line. -/

namespace ACENetwork.Http

open Flex Bison Parser

variable {tools : StringTools} {s s' : State} {w rest : List UInt8} {n m : ℕ} {c c' : Start}
  {Q : ℕ → Prop} {stack : List (ℕ × Value)} {look : Look Token Value} {v : Value} {k : Token} {q : ℕ}

def State.withRecord (r : Record) (s : State) : State := { s with record := r }

@[simp] theorem read_withRecord (r : Record) : (s.withRecord r).read n c = (s.read n c).withRecord r := rfl

@[simp] theorem withRecord_withRecord (r r' : Record) :
    (s.withRecord r).withRecord r' = s.withRecord r' := rfl

@[simp] theorem withRecord_record (r : Record) : (s.withRecord r).record = r := rfl

@[simp] theorem withRecord_start (r : Record) : (s.withRecord r).start = s.start := rfl

@[simp] theorem read_record : (s.read n c).record = s.record := rfl

@[simp] theorem read_start : (s.read n c).start = c := rfl

theorem Heap.advance_advance (heap : Heap) (place : ℕ) :
    (heap.advance place m).advance place n = heap.advance place (m + n) := by
  rw [Heap.advance, Heap.advance, Heap.advance, List.modify_modify_eq]
  congr 1
  funext b
  simp [Block.advance, Nat.add_assoc]

@[simp] theorem read_read : (s.read m c).read n c' = s.read (m + n) c' := by
  simp only [State.read, State.advance, Heap.advance_advance, List.drop_drop, UInt32.ofNat_add,
    UInt32.add_assoc]

theorem State.Entered.withRecord (h : s.Entered) (r : Record) : (s.withRecord r).Entered :=
  ⟨h.held, h.chunkSize, h.missing, h.skipping⟩

theorem read_buffer (hb : s.buffer = w ++ rest) : (s.read w.length c).buffer = rest := by
  rw [State.read, hb]
  exact List.drop_left

theorem read_text (e : List UInt8) (hb : s.buffer = w ++ (e ++ rest)) :
    (s.read (w.length + e.length) c).buffer = rest := by
  rw [← List.length_append]
  exact read_buffer (by rw [hb, List.append_assoc])

/-- A call of the scanner whose token is shifted, on a stack that is not deep. -/
theorem path_token (hQ : Q (top stack)) (h : Lexes (scan tools) (enter s) k v s')
    (ha : action (top stack) k = .shift q) (hc : consistent (top stack) = none)
    (hdepth : stack.length < 9000) :
    Path (parser tools) Q ⟨stack, .empty, s⟩ ⟨(q, v) :: stack, .empty, s'⟩ := by
  have hf : top stack ≠ (parser tools).final := by
    intro hf
    rw [hf] at ha
    cases k <;> simp [parser, action] at ha
  refine (path_lex hQ hf hc h).trans (path_shift hQ hf hc ha ?_)
  simp only [full, parser, maxDepth, List.length_cons, decide_eq_false_iff_not]
  omega

theorem path_default (args rest : List (ℕ × Value)) {rule : GrammarRule}
    (hQ : Q (top (args ++ rest))) (h : consistent (top (args ++ rest)) = some rule)
    (ha : args.length = arity rule)
    (hv : semantics tools rule (args.map Prod.snd).reverse s = .value v s')
    (hdepth : rest.length < 9000) :
    Path (parser tools) Q ⟨args ++ rest, look, s⟩ ⟨(goto (top rest) rule, v) :: rest, look, s'⟩ := by
  refine path_reduce args rest hQ (fun hf => ?_) (Or.inl h) ha hv ?_
  · rw [hf] at h
    simp [parser, consistent] at h
  · simp only [full, parser, maxDepth, List.length_cons, decide_eq_false_iff_not]
    omega

/-- What the grammar makes of a header line. -/
def store (tools : StringTools) (headers : Headers) (f : Field) : Headers :=
  if f.Plain then headers.insert (tools.tolower f.name) f.value else headers

theorem matchHeader_text (f : Field) :
    matchHeader f.text = if f.Plain then some (f.name, f.value) else none := by
  have htext : f.text = f.name ++ 58 :: 32 :: f.value := by
    rw [Field.text, List.append_assoc]
    rfl
  have hname : ∀ a ∈ f.name, decide (a ≠ 58) = true := fun a ha =>
    decide_eq_true fun h => f.colon (h ▸ ha)
  rw [matchHeader, htext, List.takeWhile_append_of_pos hname, List.dropWhile_append_of_pos hname]
  simp [f.name_ne, f.value_ne, isSpace, Field.Plain]

def Record.withFields (tools : StringTools) (fs : List Field) (r : Record) : Record :=
  { r with headers := fs.foldl (store tools) r.headers }

theorem semantics_headers {f : Field} (hf : f.name ≠ headerContentEncoding) :
    semantics tools .headers [v, .sval f.text] s =
      .value .none (s.withRecord (s.record.withFields tools [f])) := by
  simp only [semantics, storeHeader, matchHeader_text, Record.withFields, List.foldl, store]
  split_ifs with hplain
  · simp only [if_neg hf]
    rfl
  · rfl

theorem semantics_encoding {f : Field} (hf : f.name = headerContentEncoding) (hplain : f.Plain) :
    semantics tools .headers [v, .sval f.text] s = .fault (.encoding headerContentEncoding) := by
  simp only [semantics, storeHeader, matchHeader_text, if_pos hplain, hf, if_true]

/-- The states between two header lines, for the two kinds of messages. -/
def InHeaders (q base : ℕ) : Prop := q = 15 ∧ base = 7 ∨ q = 18 ∧ base = 10

theorem read_zero : s.read 0 s.start = s := by
  have hadvance : Block.advance 0 = id := rfl
  rw [State.read, State.advance, Heap.advance, hadvance, List.modify_id]
  simp

theorem path_field {base : ℕ} {u : ℕ × Value} (hq : InHeaders q base) (hQ : Q q) {f : Field}
    (hs : s.Entered) (hsel : select rules s.start s.buffer = some (.header, f.text.length + 2))
    (hb : s.buffer = f.text ++ (crlf ++ rest)) :
    Path (parser tools) Q ⟨[(q, .none), (base, .none), u], .empty, s⟩
      ⟨[(22, .sval f.text), (q, .none), (base, .none), u], .empty,
        s.read (f.text.length + crlf.length) s.start⟩ := by
  have hlex : Lexes (scan tools) (enter s) .header (.sval f.text)
      (s.read (f.text.length + crlf.length) s.start) :=
    lexes_text hs hb (by simp [crlf]) (hb ▸ hsel) fun s' hs' => by rw [act, hs', crlf]; rfl
  have hshift : consistent q = none ∧ action q .header = .shift 22 := by
    rcases hq with ⟨rfl, -⟩ | ⟨rfl, -⟩ <;> exact ⟨rfl, rfl⟩
  exact path_token hQ hlex hshift.2 hshift.1 (by simp)

theorem path_stored {base : ℕ} {u : ℕ × Value} (hq : InHeaders q base) (hQ' : Q 22) {f : Field}
    (hf : f.name ≠ headerContentEncoding) :
    Path (parser tools) Q ⟨[(22, .sval f.text), (q, .none), (base, .none), u], .empty, s⟩
      ⟨[(q, .none), (base, .none), u], .empty, s.withRecord (s.record.withFields tools [f])⟩ := by
  have hreduce : Path (parser tools) Q
      ⟨[(22, .sval f.text), (q, .none), (base, .none), u], .empty, s⟩
      ⟨[(goto base .headers, .none), (base, .none), u], .empty,
        s.withRecord (s.record.withFields tools [f])⟩ :=
    path_default [(22, .sval f.text), (q, .none)] [(base, .none), u] hQ' rfl rfl
      (semantics_headers hf) (by simp)
  have hgoto : goto base .headers = q := by
    rcases hq with ⟨rfl, rfl⟩ | ⟨rfl, rfl⟩ <;> rfl
  rwa [hgoto] at hreduce

theorem fieldsText_cons (f : Field) (fs : List Field) (rest : List UInt8) :
    fieldsText (f :: fs) ++ (crlf ++ rest) = f.text ++ (crlf ++ (fieldsText fs ++ (crlf ++ rest))) := by
  simp [fieldsText, List.append_assoc]

theorem path_fields {base : ℕ} {u : ℕ × Value} (hq : InHeaders q base) (hQ : Q q) (hQ' : Q 22)
    {fs : List Field} (hs : s.Entered) (hacc : Accepts s.start fs rest)
    (hun : ∀ f ∈ fs, f.name ≠ headerContentEncoding) (hb : s.buffer = fieldsText fs ++ (crlf ++ rest)) :
    Path (parser tools) Q ⟨[(q, .none), (base, .none), u], .empty, s⟩
      ⟨[(q, .none), (base, .none), u], .empty,
        (s.read (fieldsText fs).length s.start).withRecord (s.record.withFields tools fs)⟩ := by
  induction fs generalizing s with
  | nil =>
    rw [show (fieldsText []).length = 0 from rfl, read_zero]
    exact .refl _
  | cons f fs ih =>
    obtain ⟨hsel, hacc⟩ := hacc
    obtain ⟨hf, hun⟩ := List.forall_mem_cons.1 hun
    rw [fieldsText_cons] at hb
    refine ((path_field hq hQ hs (hb ▸ hsel) hb).trans (path_stored hq hQ' hf)).trans ?_
    have hbuffer : (s.read (f.text.length + crlf.length) s.start).buffer =
        fieldsText fs ++ (crlf ++ rest) := read_text crlf hb
    have hrest := ih ((hs.read (f.text.length + crlf.length) s.start).withRecord
      (s.record.withFields tools [f])) hacc hun hbuffer
    have hlength : (fieldsText (f :: fs)).length =
        f.text.length + crlf.length + (fieldsText fs).length := by
      simp [fieldsText, Nat.add_assoc]
    have hfields : (s.record.withFields tools [f]).withFields tools fs =
        s.record.withFields tools (f :: fs) := rfl
    rw [hlength]
    simpa [hfields] using hrest

/-- The first header line for which `encoding` is called ends the program. -/
theorem stopsBefore_fields {base : ℕ} {u : ℕ × Value} (hq : InHeaders q base) {fs : List Field}
    (hs : s.Entered) (hacc : Accepts s.start fs rest)
    (hplain : ∀ f ∈ fs, f.name = headerContentEncoding → f.Plain)
    (hen : ∃ f ∈ fs, f.name = headerContentEncoding) (hb : s.buffer = fieldsText fs ++ (crlf ++ rest)) :
    (parser tools).StopsBefore 12 ⟨[(q, .none), (base, .none), u], .empty, s⟩
      (.fault (.encoding headerContentEncoding)) := by
  have hq' : q ≠ 12 := by rcases hq with ⟨rfl, -⟩ | ⟨rfl, -⟩ <;> decide
  induction fs generalizing s with
  | nil => simp at hen
  | cons f fs ih =>
    obtain ⟨hsel, hacc⟩ := hacc
    obtain ⟨hf, hplain⟩ := List.forall_mem_cons.1 hplain
    rw [fieldsText_cons] at hb
    refine .of_path (path_field (Q := (· ≠ 12)) hq hq' hs (hb ▸ hsel) hb) ?_
    by_cases hname : f.name = headerContentEncoding
    · refine ⟨_, .refl _, by simp [top], ?_⟩
      have hreduces : Reduces (parser tools) (top [(22, Value.sval f.text), (q, .none), (base, .none), u])
          (.empty : Look Token Value) .headers := Or.inl rfl
      rw [step_of_reduces (by simp [top, parser]) hreduces]
      have hfault : semantics tools .headers [.none, .sval f.text]
          (s.read (f.text.length + crlf.length) s.start) = .fault (.encoding headerContentEncoding) :=
        semantics_encoding hname (hf hname)
      exact (reduce_append (p := parser tools) [(22, .sval f.text), (q, .none)] [(base, .none), u] rfl).trans
        (by simp only [parser, List.map_cons, List.map_nil, List.reverse_cons, List.reverse_nil,
          List.nil_append, List.cons_append, hfault])
    · refine .of_path (path_stored hq (by decide) hname) ?_
      refine ih ((hs.read _ _).withRecord _) hacc hplain ?_ (read_text (c := s.start) crlf hb)
      obtain ⟨g, hg, hgname⟩ := hen
      rcases List.mem_cons.1 hg with rfl | hg
      · exact absurd hgname hname
      · exact ⟨g, hg, hgname⟩

/-- What the record has behind the head. -/
def Head.record (tools : StringTools) (h : Head) : Record :=
  match h.line with
  | .request method uri version _ _ _ =>
    Record.withFields tools h.fields
      { method := methodToType method, uri := uri, version := versionToType version }
  | .status version code reason _ _ _ =>
    Record.withFields tools h.fields
      { version := versionToType (version.drop 5), status := number 10 code, reason := reason }

/-- The start condition behind the head. -/
def Head.next (tools : StringTools) (h : Head) : Start :=
  if h.line.isStatus then entityStart tools (h.record tools) else .body

def State.behind (tools : StringTools) (h : Head) (s : State) : State :=
  (s.read h.text.length (h.next tools)).withRecord (h.record tools)

theorem matchVersion_version (hw : w ∈ version.lang) : matchVersion w = some (w.drop 5) := by
  obtain ⟨a, b, ha, hb, rfl⟩ := mem_version.1 hw
  simp [matchVersion, versionStringPrefix, ascii, ha, hb]

/-- The header lines and the empty line, read up to the delimiter. -/
theorem path_delimiter {base : ℕ} {u : ℕ × Value} {next : Start} (hq : InHeaders q base) (hQ : Q q)
    (hQ' : Q 22) {fs : List Field} (hs : s.Entered) (hacc : Accepts s.start fs rest)
    (hun : ∀ f ∈ fs, f.name ≠ headerContentEncoding) (hb : s.buffer = fieldsText fs ++ (crlf ++ rest))
    {name : RuleName}
    (hsel : select rules s.start (crlf ++ rest) = some (name, 2))
    (hact : ∀ s', s'.record = s.record.withFields tools fs →
      act tools name crlf s' = .token .delimiter (.ival 2) { s'.advance 2 with start := next }) :
    Path (parser tools) Q ⟨[(q, .none), (base, .none), u], .empty, s⟩
      ⟨[(q, .none), (base, .none), u], .token .delimiter (.ival 2),
        (s.read ((fieldsText fs).length + 2) next).withRecord (s.record.withFields tools fs)⟩ := by
  refine (path_fields hq hQ hQ' hs hacc hun hb).trans ?_
  have hentered := (hs.read (fieldsText fs).length s.start).withRecord (s.record.withFields tools fs)
  have hlex : Lexes (scan tools) (enter _) .delimiter (.ival 2)
      (State.read 2 next ((s.read (fieldsText fs).length s.start).withRecord
        (s.record.withFields tools fs))) :=
    lexes_delimiter hentered (read_buffer (c := s.start) hb) hsel hact
  have hq' : q ≠ (parser tools).final ∧ consistent q = none := by
    rcases hq with ⟨rfl, -⟩ | ⟨rfl, -⟩ <;> exact ⟨by simp [parser], rfl⟩
  rw [read_withRecord, read_read] at hlex
  exact path_lex hQ hq'.1 hq'.2 hlex

def bodyStack : List (ℕ × Value) := [(12, .ival 2), (4, .none)]

/-- The delimiter ends the header lines, and the head is complete. -/
theorem path_headRest {base k next : ℕ} {value : Value} {headRest head : GrammarRule}
    (hq : InHeaders q base)
    (hrest : action q .delimiter = .reduce headRest ∧ arity headRest = 2 ∧ goto k headRest = next ∧
      ∀ vs s, semantics tools headRest vs s = .value .none s)
    (hhead : consistent next = some head ∧ arity head = 2 ∧ goto 0 head = 4 ∧ next ≠ 12)
    (hv : semantics tools head [value, .none] s = .value .none s') :
    Path (parser tools) (· ≠ 12)
      ⟨[(q, .none), (base, .none), (k, value)], .token .delimiter (.ival 2), s⟩
      ⟨bodyStack, .empty, s'⟩ := by
  obtain ⟨haction, harity, rfl, hvalue⟩ := hrest
  obtain ⟨hconsistent, harity', hgoto', hnext⟩ := hhead
  have hq' : q ≠ 12 ∧ q ≠ (parser tools).final ∧ consistent q = none := by
    rcases hq with ⟨rfl, -⟩ | ⟨rfl, -⟩ <;> exact ⟨by decide, by simp [parser], rfl⟩
  have hpath₁ : Path (parser tools) (· ≠ 12)
      ⟨[(q, .none), (base, .none), (k, value)], .token .delimiter (.ival 2), s⟩
      ⟨[(goto k headRest, .none), (k, value)], .token .delimiter (.ival 2), s⟩ :=
    path_reduce [(q, .none), (base, .none)] [(k, value)] hq'.1 hq'.2.1
      (Or.inr ⟨hq'.2.2, .delimiter, .ival 2, rfl, haction⟩) harity.symm (hvalue _ _) rfl
  have hpath₂ : Path (parser tools) (· ≠ 12)
      ⟨[(goto k headRest, .none), (k, value)], .token .delimiter (.ival 2), s⟩
      ⟨[(goto 0 head, .none)], .token .delimiter (.ival 2), s'⟩ :=
    path_default [(goto k headRest, .none), (k, value)] [] hnext hconsistent harity'.symm hv (by simp)
  rw [hgoto'] at hpath₂
  have hpath₃ : Path (parser tools) (· ≠ 12) ⟨[(4, .none)], .token .delimiter (.ival 2), s'⟩
      ⟨bodyStack, .empty, s'⟩ :=
    path_shift (by simp [top]) (by simp [top, parser]) rfl rfl rfl
  exact (hpath₁.trans hpath₂).trans hpath₃

variable {fs : List Field} {version : List UInt8}

/-- The tokens, the automaton states and the rules of a first line; both kinds have three tokens. -/
structure LineTables (k₁ k₂ k₃ : Token) (q₁ q₂ q₃ q₄ base q : ℕ) (lineRest1 lineRest2 : GrammarRule) :
    Prop where
  headers : InHeaders q base
  shift₁ : action 0 k₁ = .shift q₁
  shift₂ : action q₁ k₂ = .shift q₂ ∧ consistent q₁ = none ∧ q₁ ≠ 12
  shift₃ : action q₂ k₃ = .shift q₃ ∧ consistent q₂ = none ∧ q₂ ≠ 12
  reduce₂ : consistent q₃ = some lineRest2 ∧ arity lineRest2 = 1 ∧ goto q₂ lineRest2 = q₄ ∧ q₃ ≠ 12
  reduce₁ : consistent q₄ = some lineRest1 ∧ arity lineRest1 = 2 ∧ goto q₁ lineRest1 = base ∧ q₄ ≠ 12

theorem requestTables :
    LineTables .method .uri .version 1 5 13 14 7 15 .requestLineRest1 .requestLineRest2 :=
  ⟨Or.inl ⟨rfl, rfl⟩, rfl, ⟨rfl, rfl, by decide⟩, ⟨rfl, rfl, by decide⟩, ⟨rfl, rfl, rfl, by decide⟩,
    ⟨rfl, rfl, rfl, by decide⟩⟩

theorem statusTables :
    LineTables .version .status .reason 2 8 16 17 10 18 .statusLineRest1 .statusLineRest2 :=
  ⟨Or.inr ⟨rfl, rfl⟩, rfl, ⟨rfl, rfl, by decide⟩, ⟨rfl, rfl, by decide⟩, ⟨rfl, rfl, rfl, by decide⟩,
    ⟨rfl, rfl, rfl, by decide⟩⟩

theorem path_line {k₁ k₂ k₃ : Token} {q₁ q₂ q₃ q₄ base : ℕ} {lineRest1 lineRest2 : GrammarRule}
    {v₁ v₂ v₃ : Value} {s₁ s₂ s₃ s₄ s₅ : State}
    (h : LineTables k₁ k₂ k₃ q₁ q₂ q₃ q₄ base q lineRest1 lineRest2)
    (hlex₁ : Lexes (scan tools) (enter s) k₁ v₁ s₁) (hlex₂ : Lexes (scan tools) (enter s₁) k₂ v₂ s₂)
    (hlex₃ : Lexes (scan tools) (enter s₂) k₃ v₃ s₃)
    (hv₂ : semantics tools lineRest2 [v₃] s₃ = .value .none s₄)
    (hv₁ : semantics tools lineRest1 [v₂, .none] s₄ = .value .none s₅) :
    Path (parser tools) (· ≠ 12) (Parser.start s)
      ⟨[(q, .none), (base, .none), (q₁, v₁)], .empty, s₅⟩ := by
  obtain ⟨hshift₂, hnone₁, hq₁⟩ := h.shift₂
  obtain ⟨hshift₃, hnone₂, hq₂⟩ := h.shift₃
  obtain ⟨hrule₂, harity₂, hgoto₂, hq₃⟩ := h.reduce₂
  obtain ⟨hrule₁, harity₁, hgoto₁, hq₄⟩ := h.reduce₁
  have hempty : consistent base = some .headersEmpty ∧ goto base .headersEmpty = q ∧ base ≠ 12 := by
    rcases h.headers with ⟨rfl, rfl⟩ | ⟨rfl, rfl⟩ <;> exact ⟨rfl, rfl, by decide⟩
  have hpath₁ : Path (parser tools) (· ≠ 12) (Parser.start s) ⟨[(q₁, v₁)], .empty, s₁⟩ :=
    path_token (by decide) hlex₁ h.shift₁ rfl (by simp)
  have hpath₂ : Path (parser tools) (· ≠ 12) ⟨[(q₁, v₁)], .empty, s₁⟩
      ⟨[(q₂, v₂), (q₁, v₁)], .empty, s₂⟩ :=
    path_token hq₁ hlex₂ hshift₂ hnone₁ (by simp)
  have hpath₃ : Path (parser tools) (· ≠ 12) ⟨[(q₂, v₂), (q₁, v₁)], .empty, s₂⟩
      ⟨[(q₃, v₃), (q₂, v₂), (q₁, v₁)], .empty, s₃⟩ :=
    path_token hq₂ hlex₃ hshift₃ hnone₂ (by simp)
  have hpath₄ : Path (parser tools) (· ≠ 12) ⟨[(q₃, v₃), (q₂, v₂), (q₁, v₁)], .empty, s₃⟩
      ⟨[(goto q₂ lineRest2, .none), (q₂, v₂), (q₁, v₁)], .empty, s₄⟩ :=
    path_default [(q₃, v₃)] [(q₂, v₂), (q₁, v₁)] hq₃ hrule₂ harity₂.symm hv₂ (by simp)
  rw [hgoto₂] at hpath₄
  have hpath₅ : Path (parser tools) (· ≠ 12) ⟨[(q₄, .none), (q₂, v₂), (q₁, v₁)], .empty, s₄⟩
      ⟨[(goto q₁ lineRest1, .none), (q₁, v₁)], .empty, s₅⟩ :=
    path_default [(q₄, .none), (q₂, v₂)] [(q₁, v₁)] hq₄ hrule₁ harity₁.symm hv₁ (by simp)
  rw [hgoto₁] at hpath₅
  have hpath₆ : Path (parser tools) (· ≠ 12) ⟨[(base, .none), (q₁, v₁)], .empty, s₅⟩
      ⟨[(goto base .headersEmpty, .none), (base, .none), (q₁, v₁)], .empty, s₅⟩ :=
    path_default [] [(base, .none), (q₁, v₁)] hempty.2.2 hempty.1 rfl rfl (by simp)
  rw [hempty.2.1] at hpath₆
  exact hpath₁.trans (hpath₂.trans (hpath₃.trans (hpath₄.trans (hpath₅.trans hpath₆))))

/-- The record that knows the first line, but for what is read of it last. -/
def StartLine.record (line : StartLine) (r : Record) : Record :=
  match line with
  | .request _ uri version _ _ _ => { r with version := versionToType version, uri := uri }
  | .status _ code reason _ _ _ => { r with reason := reason, status := number 10 code }

def State.behindLine (line : StartLine) (s : State) : State :=
  (s.read (line.text.length + 2) line.headersStart).withRecord (line.record s.record)

theorem State.Entered.behindLine (hs : s.Entered) (line : StartLine) : (s.behindLine line).Entered :=
  (hs.read _ _).withRecord _

theorem buffer_behindLine {line : StartLine} (hb : s.buffer = line.text ++ (crlf ++ rest)) :
    (s.behindLine line).buffer = rest := read_text (c := line.headersStart) crlf hb

theorem path_requestLine {method uri : List UInt8} (hmethod : method ∈ Http.method.lang)
    (huri : uri ∈ requestUri.lang) (hversion : version ∈ Http.version.lang) (hs : s.Entered)
    (hstart : s.start = .initial)
    (hb : s.buffer = method ++ ([32] ++ (uri ++ ([32] ++ (version ++ (crlf ++ rest)))))) :
    Path (parser tools) (· ≠ 12) (Parser.start s)
      ⟨[(15, .none), (7, .none), (1, .sval method)], .empty,
        s.behindLine (.request method uri version hmethod huri hversion)⟩ := by
  have hlex₁ : Lexes (scan tools) (enter s) .method (.sval method) (s.read (method.length + 1) .uri) :=
    lexes_method hs hstart hmethod hb
  set s₁ := s.read (method.length + 1) .uri with hs₁
  have hb₁ : s₁.buffer = uri ++ ([32] ++ (version ++ (crlf ++ rest))) := read_text [32] hb
  have hlex₂ : Lexes (scan tools) (enter s₁) .uri (.sval uri) (s₁.read (uri.length + 1) .version) :=
    lexes_ended (hs.read _ _) rfl hb₁ rfl (by decide) huri fun _ _ => rfl
  set s₂ := s₁.read (uri.length + 1) .version with hs₂
  have hb₂ : s₂.buffer = version ++ (crlf ++ rest) := read_text [32] hb₁
  have hlex₃ : Lexes (scan tools) (enter s₂) .version (.sval version)
      (s₂.read (version.length + 2) .requestHeaders) :=
    lexes_ended ((hs.read _ _).read _ _) rfl hb₂ rfl (by decide) hversion fun _ _ => rfl
  have hline : Path (parser tools) (· ≠ 12) _ _ := path_line requestTables hlex₁ hlex₂ hlex₃ rfl rfl
  have hlength : method.length + 1 + (uri.length + 1 + (version.length + 2)) =
      (StartLine.request method uri version hmethod huri hversion).text.length + 2 := by
    simp only [StartLine.text, List.length_append, List.length_cons, List.length_nil]
    omega
  have hbehind : s.behindLine (.request method uri version hmethod huri hversion) =
      (s₂.read (version.length + 2) .requestHeaders).withRecord
        { s.record with version := versionToType version, uri := uri } := by
    rw [hs₂, hs₁, read_read, read_read, hlength]
    rfl
  rw [hbehind]
  exact hline

theorem path_statusLine {code reason : List UInt8} (hversion : version ∈ Http.version.lang)
    (hcode : code ∈ (digits 3).lang) (hreason : reason ∈ Http.reason.lang) (hs : s.Entered)
    (hstart : s.start = .initial)
    (hb : s.buffer = version ++ ([32] ++ (code ++ ([32] ++ (reason ++ (crlf ++ rest)))))) :
    Path (parser tools) (· ≠ 12) (Parser.start s)
      ⟨[(18, .none), (10, .none), (2, .sval version)], .empty,
        s.behindLine (.status version code reason hversion hcode hreason)⟩ := by
  have hlex₁ : Lexes (scan tools) (enter s) .version (.sval version)
      (s.read (version.length + 1) .status) :=
    lexes_responseVersion hs hstart hversion hb
  set s₁ := s.read (version.length + 1) .status with hs₁
  have hb₁ : s₁.buffer = code ++ ([32] ++ (reason ++ (crlf ++ rest))) := read_text [32] hb
  have hlex₂ : Lexes (scan tools) (enter s₁) .status (.sval code) (s₁.read (code.length + 1) .reason) :=
    lexes_ended (hs.read _ _) rfl hb₁ rfl (by decide) hcode fun _ _ => rfl
  set s₂ := s₁.read (code.length + 1) .reason with hs₂
  have hb₂ : s₂.buffer = reason ++ (crlf ++ rest) := read_text [32] hb₁
  have hlex₃ : Lexes (scan tools) (enter s₂) .reason (.sval reason)
      (s₂.read (reason.length + 2) .responseHeaders) :=
    lexes_ended ((hs.read _ _).read _ _) rfl hb₂ rfl (by decide) hreason fun _ _ => rfl
  have hline : Path (parser tools) (· ≠ 12) _ _ := path_line statusTables hlex₁ hlex₂ hlex₃ rfl rfl
  have hlength : version.length + 1 + (code.length + 1 + (reason.length + 2)) =
      (StartLine.status version code reason hversion hcode hreason).text.length + 2 := by
    simp only [StartLine.text, List.length_append, List.length_cons, List.length_nil]
    omega
  have hbehind : s.behindLine (.status version code reason hversion hcode hreason) =
      (s₂.read (reason.length + 2) .responseHeaders).withRecord
        { s.record with reason := reason, status := number 10 code } := by
    rw [hs₂, hs₁, read_read, read_read, hlength]
    rfl
  rw [hbehind]
  exact hline

theorem text_append (h : Head) (rest : List UInt8) :
    h.text ++ rest = h.line.text ++ (crlf ++ (fieldsText h.fields ++ (crlf ++ rest))) := by
  simp only [Head.text, List.append_assoc]

theorem length_text (h : Head) :
    h.text.length = h.line.text.length + 2 + ((fieldsText h.fields).length + 2) := by
  simp only [Head.text, crlf, List.length_append, List.length_cons, List.length_nil]

theorem path_startLine (h : Head) (hs : s.Entered) (hstart : s.start = .initial)
    (hb : s.buffer = h.text ++ rest) : ∃ q base u, InHeaders q base ∧
      Path (parser tools) (· ≠ 12) (Parser.start s)
        ⟨[(q, .none), (base, .none), u], .empty, s.behindLine h.line⟩ := by
  rw [text_append] at hb
  obtain ⟨line, fs⟩ := h
  cases line with
  | request method uri version hmethod huri hversion =>
    exact ⟨_, _, _, Or.inl ⟨rfl, rfl⟩, path_requestLine hmethod huri hversion hs hstart
      (by simpa [StartLine.text] using hb)⟩
  | status version code reason hversion hcode hreason =>
    exact ⟨_, _, _, Or.inr ⟨rfl, rfl⟩, path_statusLine hversion hcode hreason hs hstart
      (by simpa [StartLine.text] using hb)⟩

theorem path_request {method uri : List UInt8} (hmethod : method ∈ Http.method.lang)
    (huri : uri ∈ requestUri.lang) (hversion : version ∈ Http.version.lang)
    (hacc : Accepts .requestHeaders fs rest) (hun : ∀ f ∈ fs, f.name ≠ headerContentEncoding)
    (hs : s.Entered) (hstart : s.start = .initial) (hrecord : s.record = {})
    (hb : s.buffer = method ++ ([32] ++ (uri ++ ([32] ++ (version ++ (crlf ++
      (fieldsText fs ++ (crlf ++ rest)))))))) :
    Path (parser tools) (· ≠ 12) (Parser.start s) ⟨bodyStack, .empty,
      s.behind tools ⟨.request method uri version hmethod huri hversion, fs⟩⟩ := by
  have hline : Path (parser tools) (· ≠ 12) _ _ := path_requestLine hmethod huri hversion hs hstart hb
  set line := StartLine.request method uri version hmethod huri hversion with hline'
  have hheaders : Path (parser tools) (· ≠ 12)
      ⟨[(15, .none), (7, .none), (1, .sval method)], .empty, s.behindLine line⟩
      ⟨_, _, ((s.behindLine line).read ((fieldsText fs).length + 2) .body).withRecord
        ((s.behindLine line).record.withFields tools fs)⟩ :=
    path_delimiter (Or.inl ⟨rfl, rfl⟩) (by decide) (by decide) (hs.behindLine line) hacc hun
      (buffer_behindLine (by simpa [hline', StartLine.text] using hb))
      (select_delimiter rfl rfl) fun _ _ => rfl
  have hbehind : (((s.behindLine line).read ((fieldsText fs).length + 2) .body).withRecord
      { (s.behindLine line).record.withFields tools fs with method := methodToType method }) =
      s.behind tools ⟨line, fs⟩ := by
    rw [State.behind, length_text, State.behindLine]
    simp only [read_withRecord, read_read, withRecord_withRecord, withRecord_record, hrecord]
    rfl
  rw [← hbehind]
  exact hline.trans (hheaders.trans (path_headRest (Or.inl ⟨rfl, rfl⟩) ⟨rfl, rfl, rfl, fun _ _ => rfl⟩
    ⟨rfl, rfl, rfl, by decide⟩ rfl))

theorem path_status {code reason : List UInt8} (hversion : version ∈ Http.version.lang)
    (hcode : code ∈ (digits 3).lang) (hreason : reason ∈ Http.reason.lang)
    (hacc : Accepts .responseHeaders fs rest) (hun : ∀ f ∈ fs, f.name ≠ headerContentEncoding)
    (hs : s.Entered) (hstart : s.start = .initial) (hrecord : s.record = {})
    (hb : s.buffer = version ++ ([32] ++ (code ++ ([32] ++ (reason ++ (crlf ++
      (fieldsText fs ++ (crlf ++ rest)))))))) :
    Path (parser tools) (· ≠ 12) (Parser.start s) ⟨bodyStack, .empty,
      s.behind tools ⟨.status version code reason hversion hcode hreason, fs⟩⟩ := by
  have hline : Path (parser tools) (· ≠ 12) _ _ := path_statusLine hversion hcode hreason hs hstart hb
  set line := StartLine.status version code reason hversion hcode hreason with hline'
  set next := entityStart tools ((s.behindLine line).record.withFields tools fs) with hnext
  have hheaders : Path (parser tools) (· ≠ 12)
      ⟨[(18, .none), (10, .none), (2, .sval version)], .empty, s.behindLine line⟩
      ⟨_, _, ((s.behindLine line).read ((fieldsText fs).length + 2) next).withRecord
        ((s.behindLine line).record.withFields tools fs)⟩ :=
    path_delimiter (Or.inr ⟨rfl, rfl⟩) (by decide) (by decide) (hs.behindLine line) hacc hun
      (buffer_behindLine (by simpa [hline', StartLine.text] using hb))
      (select_delimiter rfl rfl) fun s' hs' => by rw [hnext, ← hs']; rfl
  have hbehind : (((s.behindLine line).read ((fieldsText fs).length + 2) next).withRecord
      { (s.behindLine line).record.withFields tools fs with version := versionToType (version.drop 5) }) =
      s.behind tools ⟨line, fs⟩ := by
    rw [State.behind, length_text, hnext, State.behindLine]
    simp only [read_withRecord, read_read, withRecord_withRecord, withRecord_record, hrecord]
    rfl
  rw [← hbehind]
  refine hline.trans (hheaders.trans (path_headRest (Or.inr ⟨rfl, rfl⟩)
    ⟨rfl, rfl, rfl, fun _ _ => rfl⟩ ⟨rfl, rfl, rfl, by decide⟩ ?_))
  rw [semantics, matchVersion_version hversion]
  rfl

theorem path_head {h : Head} (hun : h.Unencoded) (hs : s.Entered) (hstart : s.start = .initial)
    (hrecord : s.record = {}) (hacc : h.Accepted rest) (hb : s.buffer = h.text ++ rest) :
    Path (parser tools) (· ≠ 12) (Parser.start s) ⟨bodyStack, .empty, s.behind tools h⟩ := by
  rw [text_append] at hb
  obtain ⟨line, fs⟩ := h
  cases line with
  | request method uri version hmethod huri hversion =>
    exact path_request hmethod huri hversion hacc hun hs hstart hrecord
      (by simpa [StartLine.text] using hb)
  | status version code reason hversion hcode hreason =>
    exact path_status hversion hcode hreason hacc hun hs hstart hrecord
      (by simpa [StartLine.text] using hb)

end ACENetwork.Http
