import Mathlib
import ACENetwork.Spec.Http.Message

/-! The tokens of a head. Every rule there is ended by what its text cannot contain, and all of
them move the positions by the length of the match. -/

namespace ACENetwork.Http

open Flex Bison

variable {tools : StringTools} {s s' : State} {w rest : List UInt8} {name : RuleName} {n : ℕ}

/-- The state behind a match of `n` octets. -/
def State.read (n : ℕ) (next : Start) (s : State) : State :=
  { s.advance n with start := next, buffer := s.buffer.drop n }

/-- A state that the scanner can be called in as it is. -/
structure State.Entered (s : State) : Prop where
  held : s.held = s.fragment
  chunkSize : s.chunkSize = 0
  missing : s.missing = 0
  skipping : s.skipping = none

theorem State.Entered.enter (h : s.Entered) : Http.enter s = s := by
  obtain ⟨hheld, hsize, hmissing, hskipping⟩ := h
  cases s
  simp_all [Http.enter]

theorem State.Entered.read (h : s.Entered) (n : ℕ) (next : Start) : (s.read n next).Entered :=
  ⟨h.held, h.chunkSize, h.missing, h.skipping⟩

theorem scan_select (hs : s.skipping = none) (hb : s.buffer ≠ [])
    (hsel : select rules s.start s.buffer = some (name, n)) :
    scan tools s = act tools name (s.buffer.take n) { s with buffer := s.buffer.drop n } := by
  simp [scan, hs, hb, hsel]

abbrev Rule := Flex.Rule Start UInt8 RuleName

/-- The last rule, for any single octet. -/
def octetRule : Rule := ⟨fun _ => true, Pattern.any, .octet⟩

theorem select_ended {c : Start} {p : Pattern UInt8} {a : UInt8} {e : List UInt8}
    (hc : (rules.filter fun r => r.on c) = [⟨on c, .seq p (.literal (a :: e)), name⟩, octetRule])
    (hp : p.avoids a = true) (hw : w ∈ p.lang) :
    select rules c (w ++ (a :: e ++ rest)) = some (name, w.length + (e.length + 1)) :=
  select_rule hc rfl (by omega) (Pattern.longest_ended rest hp hw)

theorem select_delimiter {c : Start}
    (hc : candidates rules c 13 = [⟨on c, crlfPattern, name⟩, octetRule]) (hon : on c c = true) :
    select rules c (crlf ++ rest) = some (name, 2) := by
  have hlast : octetRule.pattern = Pattern.any := rfl
  refine select_word (r := ⟨on c, crlfPattern, name⟩) ?_ (by decide) hon hlast
    (Pattern.longest_literal crlf rest)
  intro a ha
  obtain rfl : 13 = a := by simpa [crlf] using ha
  exact hc

theorem mem_method : w ∈ method.lang ↔ w = ascii "GET" ∨ w = ascii "HEAD" ∨ w = ascii "POST" := by
  simp only [method, oneOf, text, List.map_cons, List.map_nil, Pattern.lang, Language.mem_add,
    Pattern.mem_lang_literal]

theorem mem_version :
    w ∈ version.lang ↔ ∃ a b, isDigit a = true ∧ isDigit b = true ∧ w = ascii "HTTP/" ++ [a, 46, b] := by
  have hdigits : ∀ v : List UInt8, v ∈ (digits 1).lang ↔ ∃ a, isDigit a = true ∧ v = [a] := by
    intro v
    rw [digits, Pattern.mem_lang_exactly, List.length_eq_one_iff]
    refine ⟨fun h => ?_, fun h => ?_⟩
    · obtain ⟨⟨a, rfl⟩, ha⟩ := h
      exact ⟨a, ha a List.mem_cons_self, rfl⟩
    · obtain ⟨a, ha, rfl⟩ := h
      exact ⟨⟨a, rfl⟩, fun b hb => List.mem_singleton.1 hb ▸ ha⟩
  simp only [version, all, Pattern.lang, Language.mem_mul, text, Pattern.mem_lang_literal, hdigits]
  refine ⟨fun h => ?_, fun h => ?_⟩
  · obtain ⟨_, rfl, _, ⟨_, ⟨a, ha, rfl⟩, _, ⟨_, rfl, _, ⟨b, hb, rfl⟩, rfl⟩, rfl⟩, rfl⟩ := h
    exact ⟨a, b, ha, hb, rfl⟩
  · obtain ⟨a, b, ha, hb, rfl⟩ := h
    exact ⟨_, rfl, _, ⟨[a], ⟨a, ha, rfl⟩, _, ⟨_, rfl, [b], ⟨b, hb, rfl⟩, rfl⟩, rfl⟩, rfl⟩

theorem initial_rules {r : Rule} (hr : r ∈ rules)
    (hon : r.on .initial = true) :
    r = ⟨on .initial, version, .responseStart⟩ ∨ r = ⟨on .initial, method, .requestStart⟩ ∨
      r = octetRule := by
  have h : r ∈ rules.filter fun r => r.on .initial := List.mem_filter.2 ⟨hr, hon⟩
  have hrules : (rules.filter fun r => r.on .initial) =
      [⟨on .initial, version, .responseStart⟩, ⟨on .initial, method, .requestStart⟩, octetRule] := rfl
  simpa [hrules] using h

theorem longest_octet (h : octetRule.pattern.longest w = some n) : n = 1 := by
  rw [octetRule, Pattern.longest_any] at h
  split_ifs at h
  exact (Option.some.inj h).symm

theorem length_method (hw : w ∈ method.lang) : 3 ≤ w.length ∧ w.length ≤ 4 := by
  rcases mem_method.1 hw with rfl | rfl | rfl <;> decide

theorem length_version (hw : w ∈ version.lang) : w.length = 8 := by
  obtain ⟨a, b, -, -, rfl⟩ := mem_version.1 hw
  rfl

theorem longest_method (h : method.longest w = some n) : n ≤ 4 := by
  obtain ⟨hn, hmem, -⟩ := Pattern.longest_sound h
  have := (length_method hmem).2
  rw [List.length_take, min_eq_left hn] at this
  exact this

theorem longest_version (hw : w ∈ method.lang) : version.longest (w ++ rest) = none := by
  refine (Pattern.longest_eq_none _ _).2 fun n hn hmem => ?_
  obtain ⟨a, b, -, -, h⟩ := mem_version.1 hmem
  have hlen : n = 8 := by
    have := length_version hmem
    rwa [List.length_take, min_eq_left hn] at this
  have htake : w.take 2 = [72, 84] := by
    have h2 := congrArg (List.take 2) h
    rw [List.take_take, hlen] at h2
    have := (length_method hw).1
    rwa [List.take_append_of_le_length (by omega)] at h2
  rcases mem_method.1 hw with rfl | rfl | rfl <;> exact absurd htake (by decide)

/-- In front of the first line the scanner looks which of the two kinds it is. -/
theorem select_requestStart (hw : w ∈ method.lang) :
    ∃ n, select rules .initial (w ++ rest) = some (.requestStart, n) := by
  obtain ⟨m, hm, hle⟩ := Pattern.exists_longest rest hw
  have hrule : (⟨on .initial, method, .requestStart⟩ : Rule) ∈ rules := by simp [rules]
  obtain ⟨name, n, hsel, hmn⟩ := le_select (c := Start.initial) hrule rfl hm
  obtain ⟨r, hr, hon, hname, hlong⟩ := select_sound hsel
  have := (length_method hw).1
  rcases initial_rules hr hon with rfl | rfl | rfl
  · rw [longest_version hw] at hlong
    exact absurd hlong (by simp)
  · exact ⟨n, by rw [hsel, ← hname]⟩
  · have := longest_octet hlong
    omega

theorem select_responseStart (hw : w ∈ version.lang) :
    ∃ n, select rules .initial (w ++ rest) = some (.responseStart, n) := by
  obtain ⟨m, hm, hle⟩ := Pattern.exists_longest rest hw
  have hrule : (⟨on .initial, version, .responseStart⟩ : Rule) ∈ rules := by simp [rules]
  obtain ⟨name, n, hsel, hmn⟩ := le_select (c := Start.initial) hrule rfl hm
  obtain ⟨r, hr, hon, hname, hlong⟩ := select_sound hsel
  have := length_version hw
  rcases initial_rules hr hon with rfl | rfl | rfl
  · exact ⟨n, by rw [hsel, ← hname]⟩
  · have := longest_method hlong
    omega
  · have := longest_octet hlong
    omega

theorem lexes_text {k : Token} {next : Start} {e : List UInt8} (hs : s.Entered)
    (hb : s.buffer = w ++ (e ++ rest)) (he : e ≠ [])
    (hsel : select rules s.start (w ++ (e ++ rest)) = some (name, w.length + e.length))
    (hact : ∀ s', s'.start = s.start →
      act tools name (w ++ e) s' = textToken k e.length next (w ++ e) s') :
    Lexes (scan tools) (enter s) k (.sval w) (s.read (w.length + e.length) next) := by
  rw [hs.enter]
  have htake : s.buffer.take (w.length + e.length) = w ++ e := by
    rw [hb, ← List.append_assoc, List.take_left' (List.length_append)]
  refine .token ((scan_select hs.skipping (by simp [hb, he]) (by rw [hb, hsel])).trans ?_)
  rw [htake, hact, textToken, List.length_append, Nat.add_sub_cancel, List.take_left]
  · rfl
  · rfl

theorem lexes_delimiter {next : Start} (hs : s.Entered) (hb : s.buffer = crlf ++ rest)
    (hsel : select rules s.start (crlf ++ rest) = some (name, 2))
    (hact : ∀ s', s'.record = s.record →
      act tools name crlf s' = .token .delimiter (.ival 2) { s'.advance 2 with start := next }) :
    Lexes (scan tools) (enter s) .delimiter (.ival 2) (s.read 2 next) := by
  rw [hs.enter]
  have htake : s.buffer.take 2 = crlf := by
    rw [hb]
    rfl
  refine .token ((scan_select hs.skipping (by simp [hb, crlf]) (by rw [hb, hsel])).trans ?_)
  rw [htake, hact]
  · rfl
  · rfl

/-- The first token of a message is behind a rule that only finds out which kind it is. -/
theorem lexes_first {k : Token} {start next : Start} {name' : RuleName} {e : List UInt8} (hs : s.Entered)
    (hb : s.buffer = w ++ (e ++ rest)) (he : e ≠ [])
    (hfirst : select rules s.start (w ++ (e ++ rest)) = some (name', n))
    (hact' : ∀ yytext s', act tools name' yytext s' =
      .more { s' with start := start, buffer := yytext ++ s'.buffer })
    (hsel : select rules start (w ++ (e ++ rest)) = some (name, w.length + e.length))
    (hact : ∀ s', act tools name (w ++ e) s' = textToken k e.length next (w ++ e) s') :
    Lexes (scan tools) (enter s) k (.sval w) (s.read (w.length + e.length) next) := by
  have hscan : scan tools s = .more { s with start := start } := by
    rw [scan_select hs.skipping (by simp [hb, he]) (by rw [hb, hfirst]), hact', List.take_append_drop]
  have hentered : ({ s with start := start } : State).Entered :=
    ⟨hs.held, hs.chunkSize, hs.missing, hs.skipping⟩
  have hlex : Lexes (scan tools) (enter { s with start := start }) k (.sval w)
      (State.read (w.length + e.length) next { s with start := start }) :=
    lexes_text hentered hb he hsel fun s' _ => hact s'
  rw [hentered.enter] at hlex
  rw [hs.enter]
  exact .more hscan hlex

theorem lexes_method (hs : s.Entered) (hstart : s.start = .initial) (hw : w ∈ method.lang)
    (hb : s.buffer = w ++ ([32] ++ rest)) :
    Lexes (scan tools) (enter s) .method (.sval w) (s.read (w.length + 1) .uri) := by
  have hfirst : ∃ n, select rules .initial (w ++ ([32] ++ rest)) = some (.requestStart, n) :=
    select_requestStart hw
  obtain ⟨n, hfirst⟩ := hfirst
  rw [← hstart] at hfirst
  exact lexes_first hs hb (by simp) hfirst (fun _ _ => rfl) (select_ended rfl (by decide) hw)
    fun _ => rfl

theorem lexes_responseVersion (hs : s.Entered) (hstart : s.start = .initial) (hw : w ∈ version.lang)
    (hb : s.buffer = w ++ ([32] ++ rest)) :
    Lexes (scan tools) (enter s) .version (.sval w) (s.read (w.length + 1) .status) := by
  have hfirst : ∃ n, select rules .initial (w ++ ([32] ++ rest)) = some (.responseStart, n) :=
    select_responseStart hw
  obtain ⟨n, hfirst⟩ := hfirst
  rw [← hstart] at hfirst
  exact lexes_first hs hb (by simp) hfirst (fun _ _ => rfl) (select_ended rfl (by decide) hw)
    fun _ => rfl

theorem lexes_ended {k : Token} {c next : Start} {p : Pattern UInt8} {a : UInt8} {e : List UInt8}
    (hs : s.Entered) (hstart : s.start = c) (hb : s.buffer = w ++ (a :: e ++ rest))
    (hc : (rules.filter fun r => r.on c) = [⟨on c, .seq p (.literal (a :: e)), name⟩, octetRule])
    (hp : p.avoids a = true) (hw : w ∈ p.lang)
    (hact : ∀ yytext s', act tools name yytext s' = textToken k (e.length + 1) next yytext s') :
    Lexes (scan tools) (enter s) k (.sval w) (s.read (w.length + (e.length + 1)) next) := by
  subst hstart
  exact lexes_text hs hb (by simp) (select_ended hc hp hw) fun s' _ => hact _ s'

end ACENetwork.Http
