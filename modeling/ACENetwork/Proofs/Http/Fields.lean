import Mathlib
import ACENetwork.Proofs.Http.Head

/-! The headers that a record has behind the head, and where the scanner goes on because of
them. -/

namespace ACENetwork.Http

open Flex Bison Parser

variable {tools : StringTools} {fs : List Field} {key : List UInt8} {f : Field} {headers : Headers}

theorem lastValue_append : lastValue tools (fs ++ [f]) key =
    if f.isNamed tools key then some f.value else lastValue tools fs key := by
  rw [lastValue, List.filter_append]
  split_ifs with h
  · simp [h]
  · simp [h, lastValue]

/-- The value of a header is that of its last line without CR and LF. -/
theorem getElem?_foldl_store :
    (fs.foldl (store tools) headers)[key]? =
      (lastValue tools (fs.filter fun f => f.Plain) key).or headers[key]? := by
  induction fs using List.reverseRecOn with
  | nil => simp [lastValue]
  | append_singleton fs f ih =>
    rw [List.foldl_append, List.foldl_cons, List.foldl_nil, List.filter_append, store]
    by_cases hplain : f.Plain
    · rw [if_pos hplain, Std.TreeMap.getElem?_insert, ih]
      have hfilter : ([f].filter fun f => f.Plain) = [f] := by simp [hplain]
      rw [hfilter, lastValue_append, Field.isNamed]
      by_cases hnamed : compareNames (tools.tolower f.name) key = .eq <;> simp [hnamed]
    · rw [if_neg hplain, ih]
      simp [hplain]

theorem getElem?_record (h : Head) (key : List UInt8) :
    (h.record tools).headers[key]? = lastValue tools (h.fields.filter fun f => f.Plain) key := by
  have hheaders : (h.record tools).headers = h.fields.foldl (store tools) ∅ := by
    obtain ⟨line, fs⟩ := h
    cases line <;> rfl
  rw [hheaders, getElem?_foldl_store]
  simp

theorem find_record (h : Head) (name : List UInt8) :
    (h.record tools).find tools name =
      lastValue tools (h.fields.filter fun f => f.Plain) (tools.tolower name) :=
  getElem?_record h (tools.tolower name)

/-- A text that is a name, a colon, SP and a value is so in one way. -/
theorem mem_named {name : String} {p : Pattern UInt8} (hname : 58 ∉ ascii name)
    (h : f.text ∈ (named name p).lang) : f.name = ascii name ∧ f.value ∈ p.lang := by
  simp only [named, all, Pattern.lang, Language.mem_mul, text, sp, Pattern.mem_lang_literal] at h
  obtain ⟨_, rfl, _, ⟨_, rfl, _, ⟨_, rfl, v, hv, rfl⟩, rfl⟩, htext⟩ := h
  have hsplit : ascii name ++ 58 :: ([32] ++ v) = f.name ++ 58 :: ([32] ++ f.value) := by
    rw [Field.text, List.append_assoc] at htext
    exact htext
  obtain ⟨hname', hvalue⟩ := Pattern.append_cons_cancel hname f.colon hsplit
  obtain rfl : v = f.value := by simpa using hvalue
  exact ⟨hname'.symm, hv⟩

theorem plain_of_avoids {p : Pattern UInt8} (hp : p.avoids 13 = true ∧ p.avoids 10 = true)
    (h : f.value ∈ p.lang) : f.Plain := by
  rw [Field.Plain, List.all_eq_true]
  intro a ha
  refine decide_eq_true ⟨?_, ?_⟩
  · rintro rfl
    exact Pattern.notMem_of_avoids hp.1 h ha
  · rintro rfl
    exact Pattern.notMem_of_avoids hp.2 h ha

/-- The headers that may have a quoted string or a comment in their values. -/
def quotingNames : List (List UInt8) :=
  ["Pragma", "User-Agent", "Server", "WWW-Authenticate", "Content-Type"].map ascii

theorem plain_of_named {name : String} {p : Pattern UInt8} (hname : 58 ∉ ascii name)
    (hp : (p.avoids 13 = true ∧ p.avoids 10 = true) ∨ ascii name ∈ quotingNames)
    (h : f.text ∈ (named name p).lang) : f.Plain ∨ f.name ∈ quotingNames := by
  obtain ⟨hfname, hvalue⟩ := mem_named hname h
  rw [hfname]
  exact hp.imp_left fun hp => plain_of_avoids hp hvalue

theorem plain_of_header (h : f.text ∈ header.lang) : f.Plain := by
  rw [Field.Plain, List.all_eq_true]
  intro a ha
  have hmem : a ∈ f.text := List.mem_append_right _ ha
  refine decide_eq_true ⟨?_, ?_⟩
  · rintro rfl
    exact Pattern.notMem_of_avoids (by decide) h hmem
  · rintro rfl
    exact Pattern.notMem_of_avoids (by decide) h hmem

theorem plain_of_generalHeader (h : f.text ∈ generalHeader.lang) : f.Plain ∨ f.name ∈ quotingNames := by
  rcases h with h | h
  · exact plain_of_named (by decide) (Or.inl (by decide)) h
  · exact plain_of_named (by decide) (Or.inr (by decide)) h

theorem plain_of_requestHeader (h : f.text ∈ requestHeader.lang) : f.Plain ∨ f.name ∈ quotingNames := by
  rcases h with h | h | h | h | h
  · exact plain_of_named (by decide) (Or.inl (by decide)) h
  · exact plain_of_named (by decide) (Or.inl (by decide)) h
  · exact plain_of_named (by decide) (Or.inl (by decide)) h
  · exact plain_of_named (by decide) (Or.inl (by decide)) h
  · exact plain_of_named (by decide) (Or.inr (by decide)) h

theorem plain_of_responseHeader (h : f.text ∈ responseHeader.lang) :
    f.Plain ∨ f.name ∈ quotingNames := by
  rcases h with h | h | h
  · exact plain_of_named (by decide) (Or.inl (by decide)) h
  · exact plain_of_named (by decide) (Or.inr (by decide)) h
  · exact plain_of_named (by decide) (Or.inr (by decide)) h

theorem plain_of_entityHeader (h : f.text ∈ entityHeader.lang) : f.Plain ∨ f.name ∈ quotingNames := by
  rcases h with h | h | h | h | h | h | h
  · exact plain_of_named (by decide) (Or.inl (by decide)) h
  · exact plain_of_named (by decide) (Or.inl (by decide)) h
  · exact plain_of_named (by decide) (Or.inl (by decide)) h
  · exact plain_of_named (by decide) (Or.inr (by decide)) h
  · exact plain_of_named (by decide) (Or.inl (by decide)) h
  · exact plain_of_named (by decide) (Or.inl (by decide)) h
  · exact Or.inl (plain_of_header h)

theorem header_rule {r : Rule} (hr : r ∈ rules) (hname : r.name = .header) :
    ∃ p, r.pattern = .seq p crlfPattern ∧
      (p = generalHeader ∨ p = requestHeader ∨ p = responseHeader ∨ p = entityHeader) := by
  have h : r ∈ rules.filter fun r => decide (r.name = .header) :=
    List.mem_filter.2 ⟨hr, decide_eq_true hname⟩
  have hrules : (rules.filter fun r => decide (r.name = .header)) =
      [⟨on .requestHeaders, .seq generalHeader crlfPattern, .header⟩,
        ⟨on .requestHeaders, .seq requestHeader crlfPattern, .header⟩,
        ⟨on .requestHeaders, .seq entityHeader crlfPattern, .header⟩,
        ⟨on .responseHeaders, .seq generalHeader crlfPattern, .header⟩,
        ⟨on .responseHeaders, .seq responseHeader crlfPattern, .header⟩,
        ⟨on .responseHeaders, .seq entityHeader crlfPattern, .header⟩,
        ⟨on .chunkedBody, .seq entityHeader crlfPattern, .header⟩] := rfl
  rw [hrules] at h
  simp only [List.mem_cons, List.not_mem_nil, or_false] at h
  rcases h with rfl | rfl | rfl | rfl | rfl | rfl | rfl <;> exact ⟨_, rfl, by simp⟩

/-- A header line that the scanner takes has no CR and LF in its value, unless it is one of a few
headers. -/
theorem plain_of_select {c : Start} {rest : List UInt8}
    (h : select rules c (f.text ++ (crlf ++ rest)) = some (.header, f.text.length + 2)) :
    f.Plain ∨ f.name ∈ quotingNames := by
  obtain ⟨r, hr, -, hname, hlong⟩ := select_sound h
  obtain ⟨p, hp, hgroup⟩ := header_rule hr hname
  obtain ⟨-, hmem, -⟩ := Pattern.longest_sound hlong
  have htake : (f.text ++ (crlf ++ rest)).take (f.text.length + 2) = f.text ++ crlf := by
    rw [← List.append_assoc, List.take_left' (by simp [crlf])]
  rw [hp, htake, crlfPattern, Pattern.mem_lang_ended] at hmem
  obtain ⟨w, hw, htext⟩ := hmem
  obtain rfl := List.append_cancel_right htext
  rcases hgroup with rfl | rfl | rfl | rfl
  · exact plain_of_generalHeader hw
  · exact plain_of_requestHeader hw
  · exact plain_of_responseHeader hw
  · exact plain_of_entityHeader hw

theorem plain_of_accepts {c : Start} {rest : List UInt8} (h : Accepts c fs rest) (hf : f ∈ fs) :
    f.Plain ∨ f.name ∈ quotingNames := by
  induction fs with
  | nil => exact absurd hf List.not_mem_nil
  | cons g fs ih =>
    rcases List.mem_cons.1 hf with rfl | hf
    · exact plain_of_select h.1
    · exact ih h.2 hf

theorem plain_of_encoding {c : Start} {rest : List UInt8} (h : Accepts c fs rest) (hf : f ∈ fs)
    (hname : f.name = headerContentEncoding) : f.Plain := by
  refine (plain_of_accepts h hf).resolve_right ?_
  rw [hname]
  decide

variable {s s₀ : State} {h : Head} {rest : List UInt8}

theorem stopsBefore_encoded (hen : ¬ h.Unencoded) (hs : s.Entered) (hstart : s.start = .initial)
    (hacc : h.Accepted rest) (hb : s.buffer = h.text ++ rest) :
    (parser tools).StopsBefore 12 (Parser.start s) (.fault (.encoding headerContentEncoding)) := by
  obtain ⟨q, base, u, hq, hpath⟩ : ∃ q base u, InHeaders q base ∧
      Path (parser tools) (· ≠ 12) (Parser.start s)
        ⟨[(q, .none), (base, .none), u], .empty, s.behindLine h.line⟩ := path_startLine h hs hstart hb
  have hexists : ∃ f ∈ h.fields, f.name = headerContentEncoding := by
    simpa [Head.Unencoded] using hen
  rw [text_append] at hb
  exact .of_path hpath (stopsBefore_fields hq (hs.behindLine h.line) hacc
    (fun f hf => plain_of_encoding hacc hf) hexists (buffer_behindLine hb))

/-- The parser gets to the end of the head where `encoding` is not called, and there is in one
state. -/
theorem entityAt_iff (hs : s.Entered) (hstart : s.start = .initial) (hrecord : s.record = {})
    (hacc : h.Accepted rest) (hb : s.buffer = h.text ++ rest) :
    EntityAt tools s s₀ ↔ h.Unencoded ∧ s₀ = s.behind tools h := by
  by_cases hun : h.Unencoded
  · have hpath : Path (parser tools) (· ≠ 12) (Parser.start s) ⟨bodyStack, .empty, s.behind tools h⟩ :=
      path_head hun hs hstart hrecord hacc hb
    simp only [hun, true_and]
    refine ⟨fun h₀ => ?_, fun h₀ => ?_⟩
    · obtain ⟨stack, henters⟩ := h₀
      have huniq := henters.unique ⟨hpath, rfl⟩
      simp only [Config.mk.injEq] at huniq
      exact huniq.2.2
    · subst h₀
      exact ⟨bodyStack, hpath, rfl⟩
  · refine iff_of_false ?_ fun hboth => hun hboth.1
    rintro ⟨stack, henters⟩
    exact (stopsBefore_encoded hun hs hstart hacc hb).not_enters henters

theorem entered_begin (d : Driver) (fragment : List UInt8) (conts queue : List (List UInt8)) :
    (d.begin fragment conts queue).Entered := ⟨rfl, rfl, rfl, rfl⟩

theorem entityAt_begin {d : Driver} {conts queue : List (List UInt8)} (hd : d.start = .initial)
    (hacc : h.Accepted rest) : EntityAt tools (d.begin (h.text ++ rest) conts queue) s₀ ↔
      h.Unencoded ∧ s₀ = (d.begin (h.text ++ rest) conts queue).behind tools h :=
  entityAt_iff (entered_begin _ _ _ _) hd rfl hacc rfl

theorem halts_encoded {d : Driver} {conts queue : List (List UInt8)} {r : Result Fault State}
    (hen : ¬ h.Unencoded) (hd : d.start = .initial) (hacc : h.Accepted rest) :
    (parser tools).Halts (Parser.start (d.begin (h.text ++ rest) conts queue)) r ↔
      r = .fault (.encoding headerContentEncoding) :=
  (stopsBefore_encoded hen (entered_begin _ _ _ _) hd hacc rfl).halts

theorem unencoded_of_returned {d : Driver} {conts queue : List (List UInt8)} {code : Code} {s : State}
    (hd : d.start = .initial) (hacc : h.Accepted rest)
    (hhalts : (parser tools).Halts (Parser.start (d.begin (h.text ++ rest) conts queue))
      (.returned code s)) : h.Unencoded := by
  by_contra hen
  rw [halts_encoded hen hd hacc] at hhalts
  cases hhalts

theorem compareNames_eq_iff {a b : List UInt8} :
    compareNames a b = .eq ↔ (cString a).map toLower = (cString b).map toLower := by
  rw [compareNames, compareOn, Std.compare_eq_iff_eq]

theorem toLower_toLower (a : UInt8) : toLower (toLower a) = toLower a := by
  unfold toLower
  grind

theorem toLower_ne_zero (a : UInt8) : toLower a ≠ 0 ↔ a ≠ 0 := by
  unfold toLower
  grind

theorem cString_map_toLower (s : List UInt8) : cString (s.map toLower) = (cString s).map toLower := by
  rw [cString, cString, List.takeWhile_map]
  congr 2
  funext a
  exact decide_eq_decide.2 (toLower_ne_zero a)

theorem map_toLower_map (s : List UInt8) : (s.map toLower).map toLower = s.map toLower := by
  rw [List.map_map]
  exact List.map_congr_left fun a _ => toLower_toLower a

theorem compareNames_tolower (htools : tools.Lowers) {a b : List UInt8} :
    compareNames (tools.tolower a) b = .eq ↔ compareNames a b = .eq := by
  rw [compareNames_eq_iff, compareNames_eq_iff, htools, cString_map_toLower, map_toLower_map]

theorem isNamed_iff (htools : tools.Lowers) {name : List UInt8} :
    f.isNamed tools (tools.tolower name) = true ↔ f.Names name := by
  rw [Field.isNamed, beq_iff_eq, compareNames_tolower htools, Field.Names, compareNames_eq_iff,
    compareNames_eq_iff, htools, cString_map_toLower, map_toLower_map]

theorem plain_of_names {c : Start} {rest name : List UInt8} (hacc : Accepts c fs rest) (hf : f ∈ fs)
    (hname : ∀ q ∈ quotingNames, compareNames q name ≠ .eq) (hnames : f.Names name) : f.Plain := by
  refine (plain_of_accepts hacc hf).resolve_right fun hquoting => ?_
  exact hname f.name hquoting hnames

theorem lastValue_plain {c : Start} {rest name : List UInt8} (htools : tools.Lowers)
    (hacc : Accepts c fs rest) (hname : ∀ q ∈ quotingNames, compareNames q name ≠ .eq) :
    lastValue tools (fs.filter fun f => f.Plain) (tools.tolower name) =
      lastValue tools fs (tools.tolower name) := by
  rw [lastValue, lastValue, List.filter_filter]
  congr 2
  refine List.filter_congr fun f hf => ?_
  by_cases hnamed : f.isNamed tools (tools.tolower name) = true
  · simp [plain_of_names hacc hf hname ((isNamed_iff htools).1 hnamed)]
  · simp [hnamed]

theorem lastValue_eq_none : lastValue tools fs key = none ↔ ∀ f ∈ fs, f.isNamed tools key = false := by
  rw [lastValue, Option.map_eq_none_iff, List.getLast?_eq_none_iff, List.filter_eq_nil_iff]
  simp

theorem entityStart_eq_iff (r : Record) : entityStart tools r = .chunkedBody ↔
    r.find tools headerContentLength = none ∧
      ∃ v, r.find tools headerTransferEncoding = some v ∧
        (tools.strip v).map toLower = transferEncodingChunked := by
  rw [entityStart]
  cases r.find tools headerContentLength with
  | some v => simp
  | none => cases r.find tools headerTransferEncoding <;> simp

/-- The scanner goes on with a chunked body behind a status line, when `encoding` is not called, there
is no content length and the transfer encoding is that of chunks. -/
theorem goesOnChunked_iff (htools : tools.Lowers) (blocking : Bool) {h : Head} {first : List UInt8}
    (conts queue : List (List UInt8)) (hacc : h.Accepted first) :
    GoesOnChunked tools blocking h first conts queue ↔
      h.Unencoded ∧ h.line.isStatus = true ∧ (∀ f ∈ h.fields, ¬ f.Names headerContentLength) ∧
        ∃ v, lastValue tools h.fields (tools.tolower headerTransferEncoding) = some v ∧
          (tools.strip v).map toLower = transferEncodingChunked := by
  have hlength : (h.record tools).find tools headerContentLength = none ↔
      ∀ f ∈ h.fields, ¬ f.Names headerContentLength := by
    rw [find_record, lastValue_plain htools hacc (by decide), lastValue_eq_none]
    simp only [← isNamed_iff htools, Bool.not_eq_true]
  have hencoding : (h.record tools).find tools headerTransferEncoding =
      lastValue tools h.fields (tools.tolower headerTransferEncoding) := by
    rw [find_record, lastValue_plain htools hacc (by decide)]
  have hstart : GoesOnChunked tools blocking h first conts queue ↔
      h.Unencoded ∧ h.next tools = .chunkedBody := by
    have hentity (s₀ : State) :
        EntityAt tools (Driver.begin { blocking := blocking } (h.text ++ first) conts queue) s₀ ↔
          h.Unencoded ∧
            s₀ = (Driver.begin { blocking := blocking } (h.text ++ first) conts queue).behind tools h :=
      entityAt_begin rfl hacc
    simp only [GoesOnChunked, hentity, and_assoc, exists_and_left, exists_eq_left]
    rfl
  rw [hstart, Head.next, ← hencoding, ← hlength]
  cases h.line.isStatus with
  | false => simp
  | true => simpa using fun _ => entityStart_eq_iff (h.record tools)

/-- `tolower` and `strip` for texts in US-ASCII. -/
def asciiTools : StringTools where
  tolower := List.map toLower
  strip s := ((s.dropWhile isSpace).reverse.dropWhile isSpace).reverse

def okLine : StartLine :=
  .status (ascii "HTTP/1.1") (ascii "200") (ascii "OK") (Pattern.mem_lang_of_longest (by decide +kernel))
    (Pattern.mem_lang_of_longest (by decide +kernel)) (Pattern.mem_lang_of_longest (by decide +kernel))

def postLine : StartLine :=
  .request (ascii "POST") (ascii "/") (ascii "HTTP/1.1")
    (Pattern.mem_lang_of_longest (by decide +kernel)) (Pattern.mem_lang_of_longest (by decide +kernel))
    (Pattern.mem_lang_of_longest (by decide +kernel))

def getLine : StartLine :=
  .request (ascii "GET") (ascii "/") (ascii "HTTP/1.0")
    (Pattern.mem_lang_of_longest (by decide +kernel)) (Pattern.mem_lang_of_longest (by decide +kernel))
    (Pattern.mem_lang_of_longest (by decide +kernel))

def chunkedField : Field :=
  ⟨headerTransferEncoding, transferEncodingChunked, by decide, by decide, by decide⟩

def fiveField : Field := ⟨headerContentLength, ascii "5", by decide, by decide, by decide⟩

theorem goesOnChunked_ok :
    Head.Accepted ⟨okLine, [chunkedField]⟩ (ascii "0\r\n\r\n") ∧
      GoesOnChunked asciiTools true ⟨okLine, [chunkedField]⟩ (ascii "0\r\n\r\n") [] [] := by
  have hok : Head.Accepted ⟨okLine, [chunkedField]⟩ (ascii "0\r\n\r\n") := ⟨by decide +kernel, trivial⟩
  exact ⟨hok, (goesOnChunked_iff (fun _ => rfl) true [] [] hok).2
    ⟨by decide, rfl, by decide, ascii "chunked", by decide, by decide⟩⟩

/-- A request, and a response that has a content length as well. -/
theorem not_goesOnChunked_post_length :
    (Head.Accepted ⟨postLine, [chunkedField]⟩ (ascii "0\r\n\r\n") ∧
      ¬ GoesOnChunked asciiTools true ⟨postLine, [chunkedField]⟩ (ascii "0\r\n\r\n") [] []) ∧
    Head.Accepted ⟨okLine, [fiveField, chunkedField]⟩ (ascii "0\r\n\r\n") ∧
      ¬ GoesOnChunked asciiTools true ⟨okLine, [fiveField, chunkedField]⟩ (ascii "0\r\n\r\n") [] [] := by
  have hpost : Head.Accepted ⟨postLine, [chunkedField]⟩ (ascii "0\r\n\r\n") :=
    ⟨by decide +kernel, trivial⟩
  have hok : Head.Accepted ⟨okLine, [fiveField, chunkedField]⟩ (ascii "0\r\n\r\n") :=
    ⟨by decide +kernel, by decide +kernel, trivial⟩
  refine ⟨⟨hpost, ?_⟩, hok, ?_⟩
  · rintro ⟨s₀, hentity, hstart⟩
    rw [((entityAt_begin rfl hpost).1 hentity).2] at hstart
    exact absurd hstart (by decide)
  · rintro ⟨s₀, hentity, hstart⟩
    rw [((entityAt_begin rfl hok).1 hentity).2] at hstart
    have hnext : entityStart asciiTools (Head.record asciiTools ⟨okLine, [fiveField, chunkedField]⟩) =
        .chunkedBody := hstart
    have hfind := ((entityStart_eq_iff _).1 hnext).1
    rw [find_record] at hfind
    exact absurd hfind (by decide)

end ACENetwork.Http
