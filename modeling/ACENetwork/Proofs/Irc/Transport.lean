import Mathlib
import ACENetwork.Spec.Irc.Transport
import ACENetwork.Proofs.Irc.Bisector
import ACENetwork.Proofs.Irc.Driver
import ACENetwork.Proofs.Irc.ModuleParser
import ACENetwork.Proofs.Irc.RoundTrip

/-! Messages from one stream to another. They all arrive, each once and in order, if every one
with a prefix is read from the initial start condition. -/

namespace ACENetwork.Irc

open Flex Bison Bison.Parser Bisector ModuleParser

variable {c c' : Start} {b b' w : List UInt8} {n : ℕ} {record : Record} {stack : List (ℕ × Value)}
  {look : Look Token Value} {ps : List (List UInt8)}

/-- Behind the parameters the scanner has its two tokens for the end, and stops in `c₁`. -/
def Leaves : Look Token Value → Start → List UInt8 → Start → Prop
  | .empty, c, b, c₁ => ∃ c' b' b₁, Call c b .end_ .none c' b' ∧ Call c' b' .end_ .none c₁ b₁
  | .token k v, c, b, c₁ => k = .end_ ∧ v = .none ∧ ∃ b₁, Call c b .end_ .none c₁ b₁
  | .scanning, _, _, _ => False

theorem call_end_initial (c : Start) (hc : c = .initial ∨ c = .params ∨ c = .trailing) :
    Call c frameBoundary .end_ .none .initial [] := by
  have hlex : Lexes scan ⟨c, frameBoundary, 0, {}⟩ .end_ .none ⟨.initial, [], 1, {}⟩ := by
    rcases hc with rfl | rfl | rfl <;> exact .more rfl (.more rfl (.token rfl))
  exact (Call.of_lexes hlex).1

theorem leaves_initial : Leaves (.token .end_ .none) .initial [] .initial :=
  ⟨rfl, rfl, [], .nil .initial⟩

theorem tail_frameBoundary (hc : onCommand c = true ∨ c = .params) :
    ∃ look c' b', Tail c frameBoundary [] look c' b' ∧
      Leaves look c' b' (if c = .command then .command else .initial) := by
  by_cases hcommand : c = .command
  · subst hcommand
    have hcr : Call .command frameBoundary .end_ .none .command [10] := .of_scan rfl
    have hlf : Call .command [10] .end_ .none .command [] := .of_scan rfl
    exact ⟨_, _, _, .stop (by decide) hcr, rfl, rfl, _, hlf⟩
  · rw [if_neg hcommand]
    have hinitial : c = .initial ∨ c = .params ∨ c = .trailing := by
      rcases hc with hc | rfl
      · exact Or.inl ((of_decide_eq_true hc).resolve_right hcommand)
      · exact Or.inr (Or.inl rfl)
    exact ⟨_, _, _, .stop (by decide) (call_end_initial c hinitial), leaves_initial⟩

theorem call_gap (hc : onCommand c = true ∨ c = .params) {k : ℕ} (hb : ∀ a ∈ b.head?, a ≠ space) :
    Call c (gap k ++ b) .space (.ival (gap k).length) .params b := by
  rcases hc with hc | rfl
  · exact .of_scan (scan_gap_command hc hb)
  · exact .of_scan (scan_gap_params hb)

/-- A text of parameters up to the end of its frame. Without any, the scanner stays where the
command was. -/
theorem tail_parametersText (hb : ParametersText b ps) (hc : onCommand c = true ∨ c = .params) :
    ∃ look c' b', Tail c (b ++ frameBoundary) ps look c' b' ∧
      Leaves look c' b' (if b = [] ∧ c = .command then .command else .initial) := by
  induction hb generalizing c with
  | none =>
    obtain ⟨look, c', b', htail, hleaves⟩ := tail_frameBoundary hc
    exact ⟨look, c', b', htail, by simpa using hleaves⟩
  | gap k =>
    obtain ⟨look, c', b', htail, hleaves⟩ := tail_frameBoundary (c := .params) (Or.inr rfl)
    have hspace : Call c (gap k ++ frameBoundary) .space _ .params frameBoundary :=
      call_gap hc (by simp [frameBoundary]; decide)
    exact ⟨look, c', b', .space hspace htail, by simpa [gap] using hleaves⟩
  | @middle k w b ps hw hb ih =>
    obtain ⟨hne, hmiddle, -⟩ := mem_param.1 hw
    obtain ⟨look, c', b', htail, hleaves⟩ := ih (c := .params) (Or.inr rfl)
    have hspace : Call c (gap k ++ (w ++ (b ++ frameBoundary))) .space _ .params
        (w ++ (b ++ frameBoundary)) := call_gap hc fun a ha => by
      rw [List.head?_append_of_ne_nil _ hne] at ha
      exact ne_of_class (hmiddle a (List.mem_of_mem_head? ha)) rfl
    have hparam : Call .params (w ++ (b ++ frameBoundary)) .param (.sval w) .params
        (b ++ frameBoundary) := .of_scan (scan_param hw fun a ha => by
      rcases head?_parametersText hb a ha with rfl | rfl <;> rfl)
    refine ⟨look, c', b', ?_, by simpa [gap] using hleaves⟩
    rw [List.append_assoc, List.append_assoc]
    exact .space hspace (.param hparam htail)
  | @trailing k w hw =>
    have hspace : Call c (gap k ++ colon :: (w ++ frameBoundary)) .space _ .params
        (colon :: (w ++ frameBoundary)) := call_gap hc (by simp; decide)
    have hcolon : Call .params (colon :: (w ++ frameBoundary)) .colon (.ival 1) .trailing
        (w ++ frameBoundary) := .of_scan scan_trailing
    have hend : Call .trailing frameBoundary .end_ .none .initial [] :=
      call_end_initial _ (Or.inr (Or.inr rfl))
    have hinitial : ¬ (gap k ++ colon :: w = [] ∧ c = .command) := by simp [gap]
    rw [List.append_assoc, List.cons_append, if_neg hinitial]
    by_cases hne : w = []
    · subst hne
      exact ⟨_, _, _, .space hspace (.colon hcolon (by decide) hend), leaves_initial⟩
    · have hparam : Call .trailing (w ++ frameBoundary) .param (.sval w) .trailing frameBoundary :=
        .of_scan (scan_trailingParam hne hw (by simp [frameBoundary]; decide))
      rw [if_neg hne]
      exact ⟨_, _, _, .space hspace (.trailing hcolon hparam), .initial, [], [], hend, .nil .initial⟩

/-- The parser accepts, and its scanner stands in `c₁`. -/
def Accepted (x : Config Token Value State) (record : Record) (c₁ : Start) : Prop :=
  ∃ s : State, s.start = c₁ ∧ s.record = record ∧ ∀ r, parser.Halts x r ↔ r = .returned .accepted s

theorem Accepted.congr {x x' : Config Token Value State} {c₁ : Start} (h : Accepted x' record c₁)
    (hx : ∀ r, parser.Halts x r ↔ parser.Halts x' r) : Accepted x record c₁ := by
  obtain ⟨s, hs, hrecord, hhalts⟩ := h
  exact ⟨s, hs, hrecord, fun r => (hx r).trans (hhalts r)⟩

theorem accepted_message {c₁ : Start} {b₁ : List UInt8} (h : Call c b .end_ .none c₁ b₁) (n : ℕ)
    (record : Record) : Accepted ⟨[(5, .none)], .empty, ⟨c, b, n, record⟩⟩ record c₁ := by
  have hreads : Reads (top [(5, Value.none)]) := ⟨by decide, rfl⟩
  obtain ⟨n', hlex⟩ := h.lexes n
  exact ⟨⟨c₁, b₁, n', record⟩, rfl, rfl, fun r =>
    (halts_lex_shift (q := 10) hreads.1 hreads.2 (hlex record) rfl rfl).trans (halts_final rfl)⟩

theorem accepted_body (hst : stack = [] ∨ stack = [(6, .none)]) {c₁ : Start} (h : Leaves look c b c₁)
    (n : ℕ) (record : Record) :
    Accepted ⟨params ((8, .none) :: stack), look, ⟨c, b, n, record⟩⟩ record c₁ := by
  have hreads : Reads (top ((15, Value.none) :: (8, .none) :: stack)) := ⟨by simp [top, parser], rfl⟩
  have hread : ∀ {c b n b₁}, Call c b .end_ .none c₁ b₁ →
      Accepted ⟨params ((8, .none) :: stack), .token .end_ .none, ⟨c, b, n, record⟩⟩ record c₁ := by
    intro c b n b₁ hcall
    refine (accepted_message hcall n record).congr fun r => ?_
    refine (halts_shift (q := 24) hreads.1 hreads.2 rfl rfl).trans ?_
    refine (halts_default [(24, .none), (15, .none), (8, .none)] stack rfl rfl rfl).trans ?_
    rcases hst with rfl | rfl
    · exact halts_default [(7, .none)] [] rfl rfl rfl
    · exact halts_default [(11, .none), (6, .none)] [] rfl rfl rfl
  cases look with
  | empty =>
    obtain ⟨c', b', b₁, hfirst, hsecond⟩ := h
    obtain ⟨n', hcall⟩ := halts_call hreads hfirst n
    exact (hread (n := n') hsecond).congr (hcall record)
  | token k v =>
    obtain ⟨rfl, rfl, b₁, hcall⟩ := h
    exact hread hcall
  | scanning => exact h.elim

theorem accepted_command {command : Command} (hst : stack = [] ∨ stack = [(6, .none)])
    (hc : onCommand c = true) (hcommand : command.Valid) (hb : ParametersText b ps)
    (hr : record.command = .invalid ∧ record.parameters = []) (n : ℕ) :
    Accepted ⟨stack, .empty, ⟨c, commandFrame command ++ (b ++ frameBoundary), n, record⟩⟩
      { record with command := command, parameters := ps }
      (if b = [] ∧ c = .command then .command else .initial) := by
  have hq : top stack = 0 ∨ top stack = 6 := by rcases hst with rfl | rfl <;> decide
  have hhead : ∀ a ∈ (b ++ frameBoundary).head?, isAlpha a = false := fun a ha => by
    rcases head?_parametersText hb a ha with rfl | rfl <;> rfl
  have hparams : InParams (top ((8, Value.none) :: stack)) := Or.inl rfl
  obtain ⟨look, c', b', htail, hleaves⟩ := tail_parametersText hb (Or.inl hc)
  obtain ⟨n', hrest⟩ := htail.halts hparams n
  have haccepted := accepted_body hst hleaves n'
    { record with command := command, parameters := ps ++ record.parameters }
  rw [hr.2, List.append_nil] at haccepted
  refine haccepted.congr fun r => (halts_command hcommand hc hq hhead hr.1).trans ?_
  refine (hrest _ r).trans ?_
  rw [hr.2, List.append_nil]

namespace Transport

theorem separated_eq_nil {ps : List (List UInt8)} : separated ps = [] ↔ ps = [] := by
  unfold separated
  split_ifs with h <;> simp [h]

theorem accepted_frame {r : Record} (h : r.Valid) (n : ℕ)
    (hc : c = .initial ∨ (c = .command ∧ r.prefix_ = {})) :
    Accepted (Parser.start ⟨c, frame r, n, {}⟩) ⟨r.prefix_, r.command, received r.parameters, []⟩
      (startBehind c r) := by
  have hempty : ({} : Record).command = .invalid ∧ ({} : Record).parameters = [] := ⟨rfl, rfl⟩
  have htext := parametersText_separated h.parameters
  simp only [startBehind, ← separated_eq_nil]
  by_cases hp : r.prefix_ = {}
  · have hon : onCommand c = true := by rcases hc with rfl | ⟨rfl, -⟩ <;> rfl
    have hframe : frame r = commandFrame r.command ++ (separated r.parameters ++ frameBoundary) := by
      rw [frame, hp]
      rfl
    rw [hframe, hp]
    simpa [Bison.Parser.start] using accepted_command (Or.inl rfl) hon h.command htext hempty n
  · obtain rfl : c = .initial := hc.resolve_right fun hc => hp hc.2
    obtain ⟨horigin, huser, hhost⟩ := h.prefix_.resolve_left hp
    have hframe : frame r = prefixText r.prefix_ 0 ++
        (commandFrame r.command ++ (separated r.parameters ++ frameBoundary)) := rfl
    rw [hframe]
    have hcommand : onCommand .command = true := rfl
    have hprefix : ({ prefix_ := r.prefix_ } : Record).command = .invalid ∧
        ({ prefix_ := r.prefix_ } : Record).parameters = [] := hempty
    have haccepted := accepted_command (Or.inr rfl) hcommand h.command htext hprefix n
    have hif : (if separated r.parameters = [] ∧ (Start.initial = .command ∨ r.prefix_ ≠ {}) then
        Start.command else .initial) =
          if separated r.parameters = [] ∧ Start.command = .command then .command else .initial := by
      simp [hp]
    rw [hif]
    exact haccepted.congr fun x =>
      halts_prefixText horigin huser hhost (head?_commandFrame h.command) rfl

def asReceived (r : Record) : Record := ⟨r.prefix_, r.command, received r.parameters, []⟩

theorem asReceived_eq {r : Record} (h : r.Valid) : asReceived r = r ↔ Marked r := by
  refine Iff.trans ⟨fun hr => ?_, fun hr => ?_⟩ (received_eq r.parameters)
  · exact congrArg Record.parameters hr
  · obtain ⟨p, command, ps, ranges⟩ := r
    obtain rfl : ranges = [] := h.ranges
    exact congrArg (fun ps => Record.mk p command ps []) hr

variable {capacity : ℕ} {d : Driver} {chain : Chain} {chains : List Chain} {r : Record}
  {rs records : List Record}

theorem scanned_chain (hne : chain ≠ []) (hfits : chain.flatten.length + flexBufferBoundarySize ≤ capacity) :
    ∃ block cont, chain = block :: cont ∧ scanned capacity true block cont = .ok chain.flatten := by
  obtain ⟨block, cont, rfl⟩ := List.exists_cons_of_ne_nil hne
  rw [List.flatten_cons] at hfits ⊢
  have hscanned := scanned_crunch capacity block cont
  rw [if_pos hfits] at hscanned
  exact ⟨block, cont, rfl, hscanned⟩

/-- The records of a frame and of those behind it, whatever state the driver is in. -/
theorem delivers_cons (hne : chain ≠ []) (hfits : chain.flatten.length + flexBufferBoundarySize ≤ capacity) :
    Delivers capacity d (chain :: chains) records ↔ ∃ code s passed records',
      d.Halts chain.flatten (.returned code s) ∧ handled (parsed (.returned code s)) = .passed passed ∧
        Delivers capacity ⟨s.start, s.messageCount⟩ chains records' ∧ records = passed ++ records' := by
  obtain ⟨block, cont, rfl, hscanned⟩ := scanned_chain hne hfits
  constructor
  · intro h
    cases h with
    | cons hs hp hh h =>
      rw [hscanned] at hs
      obtain rfl := Except.ok.inj hs
      exact ⟨_, _, _, _, hp, hh, h, rfl⟩
  · intro h
    obtain ⟨code, s, passed, records', hp, hh, h, rfl⟩ := h
    exact .cons hscanned hp hh h

theorem delivers_frame (h : r.Valid) (hc : d.start = .initial ∨ (d.start = .command ∧ r.prefix_ = {}))
    (hne : chain ≠ []) (hframe : chain.flatten = frame r)
    (hfits : (frame r).length + flexBufferBoundarySize ≤ capacity) :
    ∃ d' : Driver, d'.start = startBehind d.start r ∧ ∀ records,
      Delivers capacity d (chain :: chains) records ↔
        ∃ records', Delivers capacity d' chains records' ∧ records = asReceived r :: records' := by
  obtain ⟨s, hstart, hrecord, hhalts⟩ := accepted_frame h d.messageCount hc
  have hpassed : handled (parsed (.returned .accepted s)) = .passed [asReceived r] := by
    rw [asReceived, ← hrecord]
    rfl
  refine ⟨⟨s.start, s.messageCount⟩, hstart, fun records => ?_⟩
  rw [delivers_cons hne (by rwa [hframe]), hframe]
  constructor
  · intro hd
    obtain ⟨code, s', passed, records', hp, hh, hd, rfl⟩ := hd
    obtain ⟨rfl, rfl⟩ := Result.returned.inj ((hhalts _).1 hp)
    rw [hpassed] at hh
    obtain rfl := Handled.passed.inj hh
    exact ⟨records', hd, rfl⟩
  · intro hd
    obtain ⟨records', hd, rfl⟩ := hd
    exact ⟨.accepted, s, [asReceived r], records', (hhalts _).2 rfl, hpassed, hd, rfl⟩

theorem delivers_elsewhere (h : r.Valid) (hc : ¬ (d.start = .initial ∨ (d.start = .command ∧ r.prefix_ = {})))
    (hne : chain ≠ []) (hframe : chain.flatten = frame r)
    (hfits : (frame r).length + flexBufferBoundarySize ≤ capacity)
    (hd : Delivers capacity d (chain :: chains) records) :
    ∃ d' passed records', Delivers capacity d' chains records' ∧ records = passed ++ records' ∧
      (passed = [] ∨ passed = [{}]) := by
  rw [delivers_cons hne (by rwa [hframe]), hframe] at hd
  obtain ⟨code, s, passed, records', hp, hh, hd, rfl⟩ := hd
  refine ⟨_, passed, records', hd, rfl, ?_⟩
  have hkeeps : Keeps {} (.returned code s) := keeps_of_frameText (frameText_frame h)
    ⟨fun hi => hc (Or.inl hi), fun hcommand hp => hc (Or.inr ⟨hcommand, hp⟩)⟩ hp
  have hrecord : s.record = {} := hkeeps code s rfl
  simp only [parsed, hrecord] at hh
  cases code with
  | accepted => exact Or.inr (Handled.passed.inj hh).symm
  | _ => exact Or.inl (Handled.passed.inj hh).symm

theorem Delivers.length_le (h : Delivers capacity d chains records) : records.length ≤ chains.length := by
  induction h with
  | nil d => simp
  | @cons d block fragment cont chains code s records passed hs hp hh h ih =>
    have hpassed : passed.length ≤ 1 := by
      cases code with
      | accepted => simp [← Handled.passed.inj hh]
      | _ => simp [← Handled.passed.inj hh]
    simp only [List.length_append, List.length_cons]
    omega

theorem startBehind_eq (c : Start) (r : Record) : startBehind c r = .initial ∨ startBehind c r = .command := by
  unfold startBehind
  split_ifs <;> simp

theorem readable_head {d : Driver} (hd : d.start = .initial ∨ d.start = .command) :
    (d.start = .initial ∨ (d.start = .command ∧ r.prefix_ = {})) ↔ d.start = .initial ∨ r.prefix_ = {} := by
  rcases hd with hd | hd <;> simp [hd]

/-- Frames that can be read have their records, in order. The induction carries the start
condition. -/
theorem delivers_of_readable (hd : d.start = .initial ∨ d.start = .command) (hread : Readable d.start rs)
    (hvalid : ∀ r ∈ rs, r.Valid) (hne : ∀ chain ∈ chains, chain ≠ [])
    (hframes : chains.map List.flatten = rs.map frame)
    (hfits : ∀ r ∈ rs, (frame r).length + flexBufferBoundarySize ≤ capacity) (records : List Record) :
    Delivers capacity d chains records ↔ records = rs.map asReceived := by
  induction rs generalizing d chains records with
  | nil =>
    obtain rfl : chains = [] := by simpa using hframes
    constructor
    · intro h
      cases h
      rfl
    · rintro rfl
      exact .nil d
  | cons r rs ih =>
    obtain ⟨chain, chains, rfl⟩ : ∃ chain chains', chains = chain :: chains' := by
      cases chains with
      | nil => simp at hframes
      | cons chain chains => exact ⟨chain, chains, rfl⟩
    obtain ⟨hframe, hframes⟩ := List.cons.inj hframes
    obtain ⟨d', hd', hdelivers⟩ := delivers_frame (hvalid r List.mem_cons_self)
      ((readable_head hd).2 hread.1) (hne chain List.mem_cons_self) hframe (hfits r List.mem_cons_self)
    have hrest := ih (d := d') (hd' ▸ startBehind_eq d.start r) (hd' ▸ hread.2)
      (fun r' hr' => hvalid r' (List.mem_cons_of_mem r hr'))
      (fun x hx => hne x (List.mem_cons_of_mem chain hx)) hframes
      (fun r' hr' => hfits r' (List.mem_cons_of_mem r hr'))
    rw [hdelivers]
    constructor
    · intro h
      obtain ⟨records', h, rfl⟩ := h
      rw [(hrest records').1 h]
      rfl
    · rintro rfl
      exact ⟨rs.map asReceived, (hrest _).2 rfl, rfl⟩

/-- Where the records are those that were sent, each frame could be read and lost nothing. -/
theorem readable_of_delivers (hd : d.start = .initial ∨ d.start = .command) (hvalid : ∀ r ∈ rs, r.Valid)
    (hne : ∀ chain ∈ chains, chain ≠ []) (hframes : chains.map List.flatten = rs.map frame)
    (hfits : ∀ r ∈ rs, (frame r).length + flexBufferBoundarySize ≤ capacity)
    (h : Delivers capacity d chains rs) : Readable d.start rs ∧ ∀ r ∈ rs, Marked r := by
  induction rs generalizing d chains with
  | nil => exact ⟨trivial, by simp⟩
  | cons r rs ih =>
    obtain ⟨chain, chains, rfl⟩ : ∃ chain chains', chains = chain :: chains' := by
      cases chains with
      | nil => simp at hframes
      | cons chain chains => exact ⟨chain, chains, rfl⟩
    obtain ⟨hframe, hframes⟩ := List.cons.inj hframes
    have hr := hvalid r List.mem_cons_self
    by_cases hc : d.start = .initial ∨ (d.start = .command ∧ r.prefix_ = {})
    · obtain ⟨d', hd', hdelivers⟩ := delivers_frame hr hc
        (hne chain List.mem_cons_self) hframe (hfits r List.mem_cons_self)
      obtain ⟨records', hrest, hrecords⟩ := (hdelivers _).1 h
      obtain ⟨hreceived, rfl⟩ := List.cons.inj hrecords
      obtain ⟨hread, hmarked⟩ := ih (d := d') (hd' ▸ startBehind_eq d.start r)
        (fun r' hr' => hvalid r' (List.mem_cons_of_mem r hr'))
        (fun x hx => hne x (List.mem_cons_of_mem chain hx)) hframes
        (fun r' hr' => hfits r' (List.mem_cons_of_mem r hr')) hrest
      refine ⟨⟨(readable_head hd).1 hc, hd' ▸ hread⟩, fun r' hr' => ?_⟩
      rcases List.mem_cons.1 hr' with rfl | hr'
      · exact (asReceived_eq hr).1 hreceived.symm
      · exact hmarked r' hr'
    · obtain ⟨d', passed, records', hrest, hrecords, hpassed⟩ := delivers_elsewhere hr hc
        (hne chain List.mem_cons_self) hframe (hfits r List.mem_cons_self) h
      exfalso
      rcases hpassed with rfl | rfl
      · have hlen := hrest.length_le
        have hmap := congrArg List.length hframes
        rw [List.nil_append] at hrecords
        rw [List.length_map, List.length_map] at hmap
        simp [← hrecords] at hlen
        omega
      · obtain ⟨rfl, -⟩ := List.cons.inj hrecords
        exact hr.command.elim

theorem clean_append {u v : List UInt8} (hu : Clean u) (hv : Clean v) : Clean (u ++ v) := by
  intro a ha
  exact (List.mem_append.1 ha).elim (hu a) (hv a)

theorem clean_cons {a : UInt8} {v : List UInt8} (ha : isMessage a = true) (hv : Clean v) :
    Clean (a :: v) := by
  intro x hx
  rcases List.mem_cons.1 hx with rfl | hx
  · exact ha
  · exact hv x hx

theorem clean_of_class {p : UInt8 → Bool} {u : List UInt8} (hu : ∀ a ∈ u, p a = true)
    (hcr : p 13 = false) (hlf : p 10 = false) : Clean u := by
  intro a ha
  exact decide_eq_true ⟨ne_of_class (hu a ha) hcr, ne_of_class (hu a ha) hlf⟩

theorem clean_optional {mark : UInt8} {part : List UInt8} (hmark : isMessage mark = true)
    (hpart : Clean part) : Clean (optional mark part) := by
  unfold optional
  split_ifs
  · nofun
  · exact clean_cons hmark hpart

theorem clean_prefixFrame {p : Prefix} (h : p.Valid) : Clean (prefixFrame p) := by
  rcases h with rfl | ⟨horigin, huser, hhost⟩
  · nofun
  have horigin' : Clean p.origin := clean_of_class (mem_origin horigin).2 rfl rfl
  have huser' : Clean p.user := by
    rcases huser with h | h
    · rw [h]
      nofun
    · exact clean_of_class (mem_user.1 h).2 rfl rfl
  have hhost' : Clean p.host := by
    rcases hhost with h | h
    · rw [h]
      nofun
    · exact clean_of_class (mem_host.1 h).2 rfl rfl
  unfold prefixFrame
  split_ifs
  · nofun
  · exact clean_cons rfl (clean_append horigin' (clean_append (clean_optional rfl huser')
      (clean_append (clean_optional rfl hhost') (clean_cons rfl nofun))))

theorem clean_commandFrame {command : Command} (h : command.Valid) : Clean (commandFrame command) := by
  cases command with
  | numeric m => exact clean_of_class isDigit_decimal rfl rfl
  | string w => exact clean_of_class h.2 rfl rfl
  | invalid => exact h.elim

theorem clean_lastFrame {p : List UInt8} (h : ∀ a ∈ p, isTrailing a = true) : Clean (lastFrame p) := by
  have hp : Clean p := clean_of_class h rfl rfl
  unfold lastFrame
  split_ifs
  · exact clean_cons rfl hp
  · exact hp

theorem clean_parametersFrame {ps : List (List UInt8)} (h : ValidParameters ps) :
    Clean (parametersFrame ps) := by
  induction ps with
  | nil => nofun
  | cons p ps ih =>
    cases ps with
    | nil => exact clean_lastFrame h
    | cons q ps =>
      obtain ⟨⟨-, hmiddle, -⟩, hrest⟩ := h
      exact clean_append (clean_of_class hmiddle rfl rfl) (clean_cons rfl (ih hrest))

def line (r : Record) : List UInt8 :=
  prefixFrame r.prefix_ ++ (commandFrame r.command ++ separated r.parameters)

theorem frame_eq (r : Record) : frame r = line r ++ frameBoundary := by
  simp [frame, line]

theorem clean_line {r : Record} (h : r.Valid) : Clean (line r) := by
  refine clean_append (clean_prefixFrame h.prefix_) (clean_append (clean_commandFrame h.command) ?_)
  unfold separated
  split_ifs
  · nofun
  · exact clean_cons rfl (clean_parametersFrame h.parameters)

theorem joined_lines (rs : List Record) : Bisector.joined (rs.map line) = (rs.map frame).flatten := by
  rw [Bisector.joined, List.map_map]
  exact congrArg List.flatten (List.map_congr_left fun r _ => (frame_eq r).symm)

theorem written_eq {size : ℕ} (hvalid : ∀ r ∈ rs, r.Valid) (hsize : maximumFrameSize ≤ size)
    (hfits : ∀ r ∈ rs, (frame r).length ≤ size) : written size rs = .ok (rs.map frame) := by
  induction rs with
  | nil => rfl
  | cons r rs ih =>
    obtain ⟨m, hm, hcontent⟩ := Streamer.handleDataMessage_frame (hvalid r List.mem_cons_self) hsize
      (hfits r List.mem_cons_self)
    have hrest := ih (fun r' hr' => hvalid r' (List.mem_cons_of_mem r hr'))
      fun r' hr' => hfits r' (List.mem_cons_of_mem r hr')
    rw [written] at hrest ⊢
    rw [List.mapM_cons, hrest, hm, List.map_cons, ← hcontent]
    rfl

/-- A line that has not ended is shorter than the frame that it becomes. -/
theorem partial_lt {rest tail u : List UInt8} {lines : List (List UInt8)} (hrest : Partial rest)
    (h : rest ++ tail = Bisector.joined (u :: lines)) : rest.length < (u ++ frameBoundary).length := by
  by_contra hlen
  have hprefix : u ++ frameBoundary <+: rest :=
    List.prefix_of_prefix_length_le ⟨Bisector.joined lines, by rw [h]; rfl⟩ ⟨tail, rfl⟩ (by omega)
  have hmem : (10 : UInt8) ∈ rest := hprefix.subset (by simp [frameBoundary])
  obtain ⟨w, hw, rfl | rfl⟩ := hrest
  · exact absurd (hw 10 hmem) (by decide)
  · rcases List.mem_append.1 hmem with hmem | hmem
    · exact absurd (hw 10 hmem) (by decide)
    · simp at hmem

variable {fs gs : List Fragment} {texts : List (List UInt8)}

theorem not_begunAlone (h : NoneAlone (rs.map frame) fs) :
    ∀ i < (rs.map line).length, ¬ BegunAlone fs (rs.map line) i := by
  intro i hi hbegun
  obtain ⟨gs, f, hs, hfs, hgs, hlen⟩ := hbegun
  rw [← List.map_take, joined_lines, List.map_take] at hgs
  have := h i (by simpa using hi) gs f hs hfs hgs
  omega

theorem exec_frames (hvalid : ∀ r ∈ rs, r.Valid) (hlen : ∀ r ∈ rs, (frame r).length < 2 ^ 32)
    (hfs : bytes fs = (rs.map frame).flatten) (halone : NoneAlone (rs.map frame) fs) (hgs : gs <+: fs) :
    ∃ m k rest, Transition.exec Module.step {} gs = some m ∧
      m.pushed.map List.flatten = (rs.take k).map frame ∧
      bytes gs = ((rs.take k).map frame).flatten ++ rest ∧ ∀ r ∈ rs[k]?, rest.length < (frame r).length := by
  obtain ⟨hs, rfl⟩ := hgs
  have hlines : ∀ l ∈ rs.map line, Clean l := by
    intro l hl
    obtain ⟨r, hr, rfl⟩ := List.mem_map.1 hl
    exact clean_line (hvalid r hr)
  have hnil : Partial [] := ⟨[], nofun, Or.inl rfl⟩
  have hbytes : bytes (gs ++ hs) = Bisector.joined (rs.map line) ++ [] := by
    rw [List.append_nil, joined_lines, hfs]
  obtain ⟨k, hk⟩ := framed_of_lines hlines hnil hbytes (not_begunAlone halone) rfl
  have hreg : ∀ y ∈ (framing gs).frames, y.Regular := by
    intro y hy
    rw [hk.frames] at hy
    obtain ⟨l, hl, rfl⟩ := List.mem_map.1 hy
    have hmem := List.mem_of_mem_take hl
    obtain ⟨r, hr, rfl⟩ := List.mem_map.1 hmem
    exact ⟨rfl, by simpa [lineFrame, frame_eq] using hlen r hr, line r, hlines _ hmem, rfl⟩
  obtain ⟨m, hm, hagrees⟩ := exec_agrees gs hreg
  refine ⟨m, k, (framing gs).pending, hm, ?_, ?_, ?_⟩
  · rw [hagrees.pushed, hk.frames, List.map_map, ← List.map_take, List.map_map]
    exact List.map_congr_left fun r _ => (frame_eq r).symm
  · rw [hk.bytes_eq, ← List.map_take, joined_lines]
  · intro r hr
    obtain ⟨hlt, rfl⟩ := List.getElem?_eq_some_iff.1 hr
    have hdrop : (rs.map line).drop k = line rs[k] :: (rs.map line).drop (k + 1) := by
      rw [List.drop_eq_getElem_cons (by simpa using hlt), List.getElem_map]
    have htail : (framing gs).pending ++ bytes hs = Bisector.joined ((rs.map line).drop k) := by
      have hsplit : bytes (gs ++ hs) = bytes gs ++ bytes hs := by simp [bytes]
      rw [hfs, ← joined_lines, hk.bytes_eq, ← joined_take_drop k, List.append_assoc] at hsplit
      exact (List.append_cancel_left hsplit).symm
    rw [frame_eq]
    exact partial_lt hk.partial_ (htail.trans (congrArg Bisector.joined hdrop))

/-- All texts are there if what is behind some of them is shorter than the next one. -/
theorem le_of_short {k : ℕ} {rest : List UInt8} (h : texts.flatten = (texts.take k).flatten ++ rest)
    (hrest : ∀ t ∈ texts[k]?, rest.length < t.length) : texts.length ≤ k := by
  by_contra hlt
  rw [not_le] at hlt
  have hdrop : texts.drop k = texts[k] :: texts.drop (k + 1) := List.drop_eq_getElem_cons hlt
  have hflatten : texts.flatten = (texts.take k).flatten ++ (texts.drop k).flatten := by
    rw [← List.flatten_append, List.take_append_drop]
  rw [hflatten, hdrop, List.flatten_cons] at h
  have hlen := congrArg List.length (List.append_cancel_left h)
  have hshort := hrest texts[k] (by simp [hlt])
  rw [List.length_append] at hlen
  omega

theorem chains_ne_nil {chains : List Chain} (h : chains.map List.flatten = rs.map frame) :
    ∀ chain ∈ chains, chain ≠ [] := by
  rintro chain hchain rfl
  have hmem : ([] : List UInt8) ∈ rs.map frame := h ▸ List.mem_map_of_mem (f := List.flatten) hchain
  obtain ⟨r, -, hr⟩ := List.mem_map.1 hmem
  simp [frame_eq, frameBoundary] at hr

theorem Readable.take {c : Start} (h : Readable c rs) (k : ℕ) : Readable c (rs.take k) := by
  induction rs generalizing c k with
  | nil => simpa using h
  | cons r rs ih =>
    cases k with
    | zero => trivial
    | succ k => exact ⟨h.1, ih h.2 k⟩

theorem receives_iff {m : Module} (hm : Transition.exec Module.step {} gs = some m) :
    Receives capacity gs records ↔ Delivers capacity {} m.pushed records := by
  constructor
  · intro h
    obtain ⟨m', hm', h⟩ := h
    rw [hm] at hm'
    obtain rfl := Option.some.inj hm'
    exact h
  · intro h
    exact ⟨m, hm, h⟩

theorem frames_of_written (hvalid : ∀ r ∈ rs, r.Valid)
    (hcapacity : maximumFrameSize ≤ capacity ∧ capacity < 2 ^ 32)
    (hfits : ∀ r ∈ rs, (frame r).length + flexBufferBoundarySize ≤ capacity)
    (hwritten : written capacity rs = .ok texts) :
    texts = rs.map frame ∧ ∀ r ∈ rs, (frame r).length < 2 ^ 32 := by
  constructor
  · rw [written_eq hvalid hcapacity.1 fun r hr => by have := hfits r hr; omega] at hwritten
    exact (Except.ok.inj hwritten).symm
  · intro r hr
    have := hfits r hr
    omega

theorem transports_of_readable (hvalid : ∀ r ∈ rs, r.Valid)
    (hcapacity : maximumFrameSize ≤ capacity ∧ capacity < 2 ^ 32)
    (hfits : ∀ r ∈ rs, (frame r).length + flexBufferBoundarySize ≤ capacity)
    (hwritten : written capacity rs = .ok texts) (hfs : bytes fs = texts.flatten)
    (halone : NoneAlone texts fs) (hread : Readable .initial rs) (hmarked : ∀ r ∈ rs, Marked r) :
    Transports capacity rs texts fs := by
  obtain ⟨rfl, hlen⟩ := frames_of_written hvalid hcapacity hfits hwritten
  intro gs hgs
  obtain ⟨m, k, rest, hm, hpushed, hbytes, hrest⟩ := exec_frames hvalid hlen hfs halone hgs
  have hmem : ∀ r ∈ rs.take k, r ∈ rs := fun r hr => List.mem_of_mem_take hr
  refine ⟨k, rest, by rw [hbytes, List.map_take], ?_, fun records => ?_⟩
  · simpa using hrest
  · rw [receives_iff hm, delivers_of_readable (Or.inl rfl) (hread.take k) (fun r hr => hvalid r (hmem r hr))
      (chains_ne_nil hpushed) hpushed fun r hr => hfits r (hmem r hr)]
    have hmap : (rs.take k).map asReceived = rs.take k := by
      refine (List.map_congr_left fun r hr => ?_).trans (List.map_id _)
      exact (asReceived_eq (hvalid r (hmem r hr))).2 (hmarked r (hmem r hr))
    rw [hmap]

/-- However the octets of valid messages are cut into fragments, if no message begins with a
fragment of one octet: each message is delivered when its last octet is there, once and in order,
exactly when none is written unmarked, and none with a prefix is read behind one that has a prefix
and no parameters. -/
theorem transports_iff (hvalid : ∀ r ∈ rs, r.Valid)
    (hcapacity : maximumFrameSize ≤ capacity ∧ capacity < 2 ^ 32)
    (hfits : ∀ r ∈ rs, (frame r).length + flexBufferBoundarySize ≤ capacity)
    (hwritten : written capacity rs = .ok texts) (hfs : bytes fs = texts.flatten)
    (halone : NoneAlone texts fs) :
    Transports capacity rs texts fs ↔ Readable .initial rs ∧ ∀ r ∈ rs, Marked r := by
  constructor
  · intro h
    obtain ⟨rfl, hlen⟩ := frames_of_written hvalid hcapacity hfits hwritten
    obtain ⟨k, rest, hbytes, hrest, hreceives⟩ := h fs List.prefix_rfl
    have hk : rs.length ≤ k := by simpa using le_of_short (hfs.symm.trans hbytes) hrest
    obtain ⟨m, j, rest', hm, hpushed, hbytes', hrest'⟩ := exec_frames hvalid hlen hfs halone List.prefix_rfl
    rw [List.map_take] at hbytes'
    have hj : rs.length ≤ j := by
      simpa using le_of_short (hfs.symm.trans hbytes') (by simpa using hrest')
    rw [List.take_of_length_le hj] at hpushed
    have hdelivers := (receives_iff hm).1 ((hreceives rs).2 (List.take_of_length_le hk).symm)
    exact readable_of_delivers (Or.inl rfl) hvalid (chains_ne_nil hpushed) hpushed hfits hdelivers
  · rintro ⟨hread, hmarked⟩
    exact transports_of_readable hvalid hcapacity hfits hwritten hfs halone hread hmarked

/-- `:ab QUIT`, and then `PING a`, which is read behind the rules for a command. -/
theorem transports_quit : Transports 514 [⟨⟨[97, 98], [], []⟩, .string [81, 85, 73, 84], [], []⟩,
      ⟨{}, .string [80, 73, 78, 71], [[97]], []⟩]
    [[58, 97, 98, 32, 81, 85, 73, 84, 13, 10], [80, 73, 78, 71, 32, 97, 13, 10]]
    [ofBytes [58, 97, 98, 32, 81, 85, 73] (by decide), ofBytes [84, 13, 10, 80] (by decide),
      ofBytes [73, 78, 71, 32, 97, 13, 10] (by decide)] := by
  have hquit : Record.Valid ⟨⟨[97, 98], [], []⟩, .string [81, 85, 73, 84], [], []⟩ :=
    { prefix_ := Or.inr ⟨Or.inr (mem_host.2 ⟨by decide, List.all_eq_true.1 (by decide)⟩),
        Or.inl rfl, Or.inl rfl⟩
      command := ⟨by decide, List.all_eq_true.1 (by decide)⟩
      ranges := rfl
      parameters := trivial }
  have hping : Record.Valid ⟨{}, .string [80, 73, 78, 71], [[97]], []⟩ :=
    { prefix_ := Or.inl rfl
      command := ⟨by decide, List.all_eq_true.1 (by decide)⟩
      ranges := rfl
      parameters := List.all_eq_true.1 (by decide) }
  refine (transports_iff ?_ ⟨?_, ?_⟩ ?_ ?_ ?_ ?_).2 ?_
  · simp only [List.mem_cons, List.not_mem_nil, or_false]
    rintro r (rfl | rfl)
    · exact hquit
    · exact hping
  · decide
  · decide
  · decide
  · rfl
  · rfl
  · intro i hi gs f hs hfs hgs
    have hf : f ∈ gs ++ f :: hs := by simp
    rw [← hfs] at hf
    fin_cases hf <;> decide
  · decide

end Transport

end ACENetwork.Irc
