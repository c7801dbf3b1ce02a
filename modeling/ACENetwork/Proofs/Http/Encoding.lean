import Mathlib
import ACENetwork.Spec.Http.Encoding
import ACENetwork.Proofs.Http.Driver

/-! The calls of `encoding`: the grammar compares the name by letter case and hands on the name in
place of the value, and no parse comes back from the call. -/

namespace ACENetwork.Http

open Flex Bison Parser

variable {tools : StringTools} {s s' : State} {line : List UInt8} {lines : List (List UInt8)}
  {stack : List (ℕ × Value)} {v : Value}

theorem encodingCall_eq_some {value : List UInt8} : encodingCall line = some value ↔
    value = headerContentEncoding ∧ ∃ v, matchHeader line = some (headerContentEncoding, v) := by
  rw [encodingCall]
  cases hmatch : matchHeader line with
  | none => simp
  | some header =>
    obtain ⟨name, v⟩ := header
    by_cases hname : name = headerContentEncoding
    · simp [hname, eq_comm]
    · simp [hname]

theorem semantics_line : semantics tools .headers [v, .sval line] s =
    match encodingCall line with
    | some argument => .fault (.encoding argument)
    | none => .value .none (s.storeLine tools line) := by
  simp only [semantics, storeHeader, encodingCall, State.storeLine, Record.storeLine]
  cases matchHeader line with
  | none => rfl
  | some header =>
    obtain ⟨name, value⟩ := header
    by_cases hname : name = headerContentEncoding <;> simp [hname]

theorem semantics_line_value {w : Value} : semantics tools .headers [v, .sval line] s = .value w s' ↔
    encodingCall line = none ∧ w = .none ∧ s' = s.storeLine tools line := by
  rw [semantics_line]
  cases encodingCall line <;> simp [eq_comm]

theorem goesOn_iff (h : Takes tools s lines s') :
    GoesOn tools s lines s' ↔ ∀ line ∈ lines, encodingCall line = none := by
  induction h with
  | last s line =>
    rw [List.forall_mem_singleton]
    constructor
    · intro hgoes
      cases hgoes with
      | last hv => exact (semantics_line_value.1 hv).1
    · exact fun hcall => .last (semantics_line_value.2 ⟨hcall, rfl, rfl⟩)
  | more hlex _ ih =>
    rw [List.forall_mem_cons, ← ih]
    constructor
    · intro hgoes
      cases hgoes with
      | more hv hlex' hrest =>
        obtain ⟨hcall, -, rfl⟩ := semantics_line_value.1 hv
        obtain ⟨-, -, rfl⟩ := hlex.unique hlex'
        exact ⟨hcall, hrest⟩
    · rintro ⟨hcall, hrest⟩
      exact .more (semantics_line_value.2 ⟨hcall, rfl, rfl⟩) hlex hrest

theorem matchHeader_eq {name value : List UInt8} (h : matchHeader line = some (name, value)) :
    name = lineName line ∧ value = lineValue line := by
  rw [matchHeader] at h
  split at h
  · rename_i hdrop
    split_ifs at h with hmatch
    obtain ⟨rfl, rfl⟩ := Prod.mk.inj (Option.some.inj h)
    rw [lineName, lineValue, hdrop]
    exact ⟨rfl, (if_pos hmatch.2.1).symm⟩
  · exact absurd h (by simp)

theorem encodingCall_eq_none (h : ¬ NamesEncoding line) : encodingCall line = none := by
  refine Option.eq_none_iff_forall_ne_some.2 fun value hcall => ?_
  obtain ⟨-, v, hmatch⟩ := encodingCall_eq_some.1 hcall
  refine h ?_
  rw [NamesEncoding, ← (matchHeader_eq hmatch).1]
  exact Std.ReflCmp.compare_self

/-- The automaton between the header lines: it shifts the next one, and is where it was when it has
reduced it. -/
theorem inLines_cases (hstack : InLines stack) : ∃ q base rest, stack = (q, .none) :: (base, .none) :: rest ∧
    goto base .headers = q ∧ consistent q = none ∧ action q .header = .shift 22 ∧ q ≠ 11 ∧
    rest.length ≤ 3 := by
  cases hstack with
  | request => exact ⟨_, _, _, rfl, rfl, rfl, rfl, by decide, by simp⟩
  | response => exact ⟨_, _, _, rfl, rfl, rfl, rfl, by decide, by simp⟩
  | trailer => exact ⟨_, _, _, rfl, rfl, rfl, rfl, by decide, by simp⟩

theorem path_lineToken (hstack : InLines stack) :
    Path (parser tools) (fun _ => True) ⟨stack, .token .header (.sval line), s⟩
      ⟨(22, .sval line) :: stack, .empty, s⟩ := by
  obtain ⟨q, base, rest, rfl, -, hconsistent, haction, hfinal, hlength⟩ := inLines_cases hstack
  refine path_shift trivial hfinal hconsistent haction ?_
  simp only [full, parser, maxDepth, List.length_cons, decide_eq_false_iff_not]
  omega

theorem path_lineStored (hstack : InLines stack)
    (hv : semantics tools .headers [.none, .sval line] s = .value v s') :
    Path (parser tools) (fun _ => True) ⟨stack, .token .header (.sval line), s⟩ ⟨stack, .empty, s'⟩ := by
  refine (path_lineToken hstack).trans ?_
  obtain ⟨q, base, rest, rfl, hgoto, -, -, -, hlength⟩ := inLines_cases hstack
  obtain ⟨-, rfl, -⟩ := semantics_line_value.1 hv
  have hreduce : Path (parser tools) (fun _ => True)
      ⟨[(22, .sval line), (q, .none)] ++ (base, .none) :: rest, .empty, s⟩
      ⟨(goto base .headers, .none) :: (base, .none) :: rest, .empty, s'⟩ :=
    path_default [(22, .sval line), (q, .none)] ((base, .none) :: rest) trivial rfl rfl hv
      (by rw [List.length_cons]; omega)
  rwa [hgoto] at hreduce

theorem halts_call (hstack : InLines stack) {argument : List UInt8} (hcall : encodingCall line = some argument)
    (r : Result Fault State) :
    (parser tools).Halts ⟨stack, .token .header (.sval line), s⟩ r ↔ r = .fault (.encoding argument) := by
  rw [(path_lineToken hstack).halts]
  obtain ⟨q, base, rest, rfl, -⟩ := inLines_cases hstack
  let args : List (ℕ × Value) := [(22, .sval line), (q, .none)]
  have hfinal : top (args ++ (base, .none) :: rest) ≠ (parser tools).final := by simp [args, top, parser]
  have hreduces : Reduces (parser tools) (top (args ++ (base, .none) :: rest)) .empty .headers := Or.inl rfl
  have hv : (parser tools).semantics .headers (args.map Prod.snd).reverse s = .fault (.encoding argument) := by
    change semantics tools .headers [.none, .sval line] s = .fault (.encoding argument)
    rw [semantics_line, hcall]
  exact halts_reduce_fault args ((base, .none) :: rest) hfinal hreduces rfl hv

theorem path_lines (hstack : InLines stack) (h : GoesOn tools s lines s') :
    Path (parser tools) (fun _ => True) ⟨stack, .token .header (.sval (lines.headD [])), s⟩
      ⟨stack, .empty, s'⟩ := by
  induction h with
  | last hv => exact path_lineStored hstack hv
  | @more s s₁ s₂ s' line next lines v hv hlex _ ih =>
    have hlexed : Path (parser tools) (fun _ => True) ⟨stack, .empty, s₁⟩
        ⟨stack, .token .header (.sval next), s₂⟩ := by
      obtain ⟨q, base, rest, rfl, -, hconsistent, -, hfinal, -⟩ := inLines_cases hstack
      exact path_lex trivial hfinal hconsistent hlex
    exact ((path_lineStored hstack hv).trans hlexed).trans ih

/-- The calls say what they are to say where there is nothing to say. -/
theorem encoding_reports_iff (hstack : InLines stack) (h : Takes tools s (line :: lines) s') :
    Reports tools stack s (line :: lines) s' ↔ ∀ header ∈ line :: lines, ¬ NamesEncoding header := by
  constructor
  · intro hreports header hheader hnames
    have hcalls := (goesOn_iff h).1 hreports.goesOn
    have hnone : (line :: lines).filterMap encodingCall = [] := List.filterMap_eq_nil_iff.2 hcalls
    have hvalues := hreports.values
    rw [hnone, eq_comm, List.map_eq_nil_iff, List.filter_eq_nil_iff] at hvalues
    exact hvalues header hheader (decide_eq_true hnames)
  · intro hnames
    have hcalls : ∀ header ∈ line :: lines, encodingCall header = none := fun header hheader =>
      encodingCall_eq_none (hnames header hheader)
    have hgoes := (goesOn_iff h).2 hcalls
    have hfilter : (line :: lines).filter NamesEncoding = [] :=
      List.filter_eq_nil_iff.2 fun header hheader => by simpa using hnames header hheader
    refine ⟨hgoes, path_lines hstack hgoes, ?_, ?_⟩
    · rw [hfilter, List.map_nil]
      exact List.filterMap_eq_nil_iff.2 hcalls
    · simp [hfilter]

def linesState (line : List UInt8) : State where
  start := .responseHeaders
  buffer := line ++ (crlf ++ crlf)
  heap := [Block.received (line ++ (crlf ++ crlf))]
  blocking := true

theorem lexes_linesState (tools : StringTools) (line : List UInt8)
    (hsel : select rules .responseHeaders (line ++ (crlf ++ crlf)) = some (.header, line.length + 2)) :
    ∃ s, Lexes (scan tools) (enter (linesState line)) .header (.sval line) s :=
  ⟨_, lexes_text ⟨rfl, rfl, rfl, rfl⟩ rfl (by simp [crlf]) hsel fun _ hs' => by rw [act, hs', crlf]; rfl⟩

/-- The state of the parser behind a status line. -/
def statusStack : List (ℕ × Value) := [(18, .none), (10, .none), (2, .sval (ascii "HTTP/1.1"))]

theorem encoding_reports_five : ∃ s s',
    Lexes (scan asciiTools) (enter (linesState fiveField.text)) .header (.sval fiveField.text) s ∧
      Takes asciiTools s [fiveField.text] s' ∧
      Reports asciiTools statusStack s [fiveField.text] s' := by
  obtain ⟨s, hlex⟩ := lexes_linesState asciiTools fiveField.text (by decide +kernel)
  have htakes : Takes asciiTools s [fiveField.text] _ := .last s fiveField.text
  exact ⟨s, _, hlex, htakes, (encoding_reports_iff (.response (.sval (ascii "HTTP/1.1"))) htakes).2
    (by decide +kernel)⟩

def gzipLine : List UInt8 := ascii "Content-Encoding: gzip"

def lowerLine : List UInt8 := ascii "content-encoding: gzip"

/-- The name is what is reported, and the parse ends there; or nothing is. -/
theorem not_reports_gzip :
    (∃ s s', Lexes (scan asciiTools) (enter (linesState gzipLine)) .header (.sval gzipLine) s ∧
      Takes asciiTools s [gzipLine] s' ∧
      (∀ r, (parser asciiTools).Halts ⟨statusStack, .token .header (.sval gzipLine), s⟩ r ↔
        r = .fault (.encoding headerContentEncoding)) ∧
      ¬ Reports asciiTools statusStack s [gzipLine] s') ∧
    ∃ s s', Lexes (scan asciiTools) (enter (linesState lowerLine)) .header (.sval lowerLine) s ∧
      Takes asciiTools s [lowerLine] s' ∧
      Path (parser asciiTools) (fun _ => True) ⟨statusStack, .token .header (.sval lowerLine), s⟩
        ⟨statusStack, .empty, s'⟩ ∧
      ¬ Reports asciiTools statusStack s [lowerLine] s' := by
  have hstack : InLines statusStack := .response (.sval (ascii "HTTP/1.1"))
  have hgzip : encodingCall gzipLine = some headerContentEncoding := by decide +kernel
  have hlower : encodingCall lowerLine = none := by decide +kernel
  constructor
  · obtain ⟨s, hlex⟩ := lexes_linesState asciiTools gzipLine (by decide +kernel)
    refine ⟨s, _, hlex, .last s gzipLine, halts_call hstack hgzip, fun h => ?_⟩
    have hcalls := (goesOn_iff (.last s gzipLine)).1 h.goesOn gzipLine (by simp)
    rw [hgzip] at hcalls
    cases hcalls
  · obtain ⟨s, hlex⟩ := lexes_linesState asciiTools lowerLine (by decide +kernel)
    have hgoes : GoesOn asciiTools s [lowerLine] (s.storeLine asciiTools lowerLine) :=
      .last (semantics_line_value.2 ⟨hlower, rfl, rfl⟩)
    refine ⟨s, _, hlex, .last s lowerLine, path_lines hstack hgoes, fun h => ?_⟩
    exact absurd h.values (by decide +kernel)

end ACENetwork.Http
