import Mathlib
import ACENetwork.Spec.Http.RoundTrip
import ACENetwork.Proofs.Http.Streamer
import ACENetwork.Proofs.Http.Decoding
import ACENetwork.Proofs.Http.ModuleParser

/-! A form that the streamer writes is what the parser module reads. -/

namespace ACENetwork.Http

open Flex Bison Parser

variable {tools : StringTools} {r : FormRecord} {f : Field} {fs : List Field} {s : List UInt8}

theorem guarded_quoted (p : Pattern UInt8) : (Pattern.seq (text "\"") p).Guarded 13 34 :=
  Pattern.guarded_literal (by decide) p

theorem guarded_named {p : Pattern UInt8} (name : String) (hname : 13 ∉ ascii name)
    (hp : p.Guarded 13 34) : (named name p).Guarded 13 34 := by
  have htext : (text name).Guarded 13 34 := by
    rintro w hw u v rfl
    rw [text, Pattern.mem_lang_literal] at hw
    exact absurd (hw ▸ List.mem_append_right _ List.mem_cons_self) hname
  exact htext.seq ((Pattern.guarded_of_avoids _ (by decide)).seq
    ((Pattern.guarded_of_avoids _ (by decide)).seq hp))

theorem guarded_generalHeader : generalHeader.Guarded 13 34 := by
  refine (Pattern.guarded_of_avoids _ (by decide)).alt (guarded_named _ (by decide) ?_)
  refine (Pattern.guarded_of_avoids _ (by decide)).alt ?_
  refine (Pattern.guarded_of_avoids _ (by decide)).seq (Pattern.Guarded.alt ?_ ?_)
  · refine (Pattern.guarded_of_avoids _ (by decide)).seq (Pattern.Guarded.alt ?_ (guarded_quoted _))
    exact Pattern.guarded_of_avoids _ (by decide)
  · exact Pattern.guarded_of_avoids _ (by decide)

theorem guarded_requestHeader : requestHeader.Guarded 13 34 := by
  refine (Pattern.guarded_of_avoids _ (by decide)).alt ?_
  refine (Pattern.guarded_of_avoids _ (by decide)).alt ?_
  refine (Pattern.guarded_of_avoids _ (by decide)).alt ?_
  refine (Pattern.guarded_of_avoids _ (by decide)).alt (guarded_named _ (by decide) ?_)
  exact (Pattern.guarded_of_avoids _ (by decide)).alt (guarded_quoted _)

theorem guarded_mediaType : mediaType.Guarded 13 34 := by
  refine (Pattern.guarded_of_avoids _ (by decide)).seq ?_
  refine (Pattern.guarded_of_avoids _ (by decide)).seq ?_
  refine (Pattern.guarded_of_avoids _ (by decide)).seq (Pattern.Guarded.star ?_)
  refine (Pattern.guarded_of_avoids _ (by decide)).seq ?_
  refine (Pattern.guarded_of_avoids _ (by decide)).seq ?_
  refine (Pattern.guarded_of_avoids _ (by decide)).seq ?_
  exact (Pattern.guarded_of_avoids _ (by decide)).alt (guarded_quoted _)

theorem guarded_entityHeader : entityHeader.Guarded 13 34 := by
  refine (Pattern.guarded_of_avoids _ (by decide)).alt ?_
  refine (Pattern.guarded_of_avoids _ (by decide)).alt ?_
  refine (Pattern.guarded_of_avoids _ (by decide)).alt ?_
  refine (guarded_named _ (by decide) guarded_mediaType).alt ?_
  exact Pattern.guarded_of_avoids _ (by decide)

theorem unquoted_notMem (h : Unquoted s) : 13 ∉ s ∧ 34 ∉ s := by
  refine ⟨fun hmem => ?_, fun hmem => (h.2 34 hmem).2 rfl⟩
  exact absurd (h.2 13 hmem).1 (by decide)

theorem mem_header (hname : Unquoted f.name) (hvalue : Unquoted f.value) :
    f.text ∈ entityHeader.lang := by
  have htokens : ∀ {s}, Unquoted s → s ∈ tokens.lang := fun {s} h =>
    (Pattern.mem_lang_plus isToken s).2 ⟨h.1, fun a ha => (h.2 a ha).1⟩
  have hheader : f.text ∈ header.lang := by
    rw [Field.text, List.append_assoc]
    refine ⟨_, htokens hname, _, ⟨[58], (Pattern.mem_lang_literal _ _).2 rfl, _, ⟨[32],
      (Pattern.mem_lang_literal _ _).2 rfl, _, htokens hvalue, rfl⟩, rfl⟩, rfl⟩
  simp only [entityHeader, oneOf, Pattern.lang, Language.mem_add]
  exact .inr (.inr (.inr (.inr (.inr (.inr hheader)))))

theorem requestHeaders_rules {rule : Rule} (hr : rule ∈ rules) (hon : rule.on .requestHeaders = true) :
    (∃ p : Pattern UInt8, rule = ⟨on .requestHeaders, .seq p crlfPattern, .header⟩ ∧ p.Guarded 13 34) ∨
      rule = ⟨on .requestHeaders, crlfPattern, .requestDelimiter⟩ ∨ rule = octetRule := by
  have h : rule ∈ rules.filter fun r => r.on .requestHeaders := List.mem_filter.2 ⟨hr, hon⟩
  have hrules : (rules.filter fun r => r.on .requestHeaders) =
      [⟨on .requestHeaders, .seq generalHeader crlfPattern, .header⟩,
        ⟨on .requestHeaders, .seq requestHeader crlfPattern, .header⟩,
        ⟨on .requestHeaders, .seq entityHeader crlfPattern, .header⟩,
        ⟨on .requestHeaders, crlfPattern, .requestDelimiter⟩, octetRule] := rfl
  rw [hrules] at h
  simp only [List.mem_cons, List.not_mem_nil, or_false] at h
  rcases h with rfl | rfl | rfl | rfl | rfl
  · exact .inl ⟨_, rfl, guarded_generalHeader⟩
  · exact .inl ⟨_, rfl, guarded_requestHeader⟩
  · exact .inl ⟨_, rfl, guarded_entityHeader⟩
  · exact .inr (.inl rfl)
  · exact .inr (.inr rfl)

/-- Whatever stands behind it, a header line is taken to its end and no further. -/
theorem select_unquoted (hname : Unquoted f.name) (hvalue : Unquoted f.value) (rest : List UInt8) :
    select rules .requestHeaders (f.text ++ (crlf ++ rest)) = some (.header, f.text.length + 2) := by
  have hquote : 34 ∉ f.text := by
    simp only [Field.text, List.mem_append, not_or]
    exact ⟨⟨(unquoted_notMem hname).2, by decide⟩, (unquoted_notMem hvalue).2⟩
  have hpos : 0 < f.text.length := by
    have := List.length_pos_iff.2 hname.1
    simp only [Field.text, List.length_append]
    omega
  have hline : f.text ++ crlf ∈ (Pattern.seq entityHeader crlfPattern).lang :=
    (Pattern.mem_lang_ended _ _ _).2 ⟨_, mem_header hname hvalue, rfl⟩
  obtain ⟨m, hm, hle⟩ := Pattern.exists_longest rest hline
  rw [List.append_assoc] at hm
  have hrule : (⟨on .requestHeaders, .seq entityHeader crlfPattern, .header⟩ : Rule) ∈ rules := by
    simp [rules]
  obtain ⟨name, n, hsel, hmn⟩ := le_select (c := Start.requestHeaders) hrule rfl hm
  have hlen : f.text.length + 2 ≤ n := by
    rw [List.length_append] at hle
    exact hle.trans hmn
  obtain ⟨rule, hr, hon, rfl, hlong⟩ := select_sound hsel
  rcases requestHeaders_rules hr hon with ⟨p, rfl, hp⟩ | rfl | rfl
  · have hn : n ≤ f.text.length + 2 := Pattern.length_of_guarded hp hquote hlong
    rw [hsel, show n = f.text.length + 2 by omega]
  · obtain ⟨hn, hmem, -⟩ := Pattern.longest_sound hlong
    have hcrlf := congrArg List.length ((Pattern.mem_lang_literal _ _).1 hmem)
    rw [List.length_take, min_eq_left hn] at hcrlf
    change n = 2 at hcrlf
    omega
  · have := longest_octet hlong
    omega

theorem accepts_unquoted (h : ∀ f ∈ fs, Unquoted f.name ∧ Unquoted f.value) (rest : List UInt8) :
    Accepts .requestHeaders fs rest := by
  induction fs with
  | nil => trivial
  | cons f fs ih =>
    obtain ⟨hname, hvalue⟩ := h f List.mem_cons_self
    exact ⟨select_unquoted hname hvalue _, ih fun g hg => h g (List.mem_cons_of_mem f hg)⟩

theorem decimal_lt {n : ℕ} (h : n < 10) : Streamer.decimal n = [48 + UInt8.ofNat n] := by
  interval_cases n <;> rfl

theorem decimal_ge {n : ℕ} (h : 10 ≤ n) :
    Streamer.decimal n = Streamer.decimal (n / 10) ++ Streamer.decimal (n % 10) := by
  have hdigits (n : ℕ) : (toString n).toList = Nat.toDigits 10 n := by
    rw [Nat.toString_eq_ofList_toDigits, String.toList_ofList]
  simp only [Streamer.decimal, ascii, hdigits]
  rw [Nat.toDigits_of_base_le (by decide) h, Nat.toDigits_of_lt_base (n := n % 10) (by omega),
    List.map_append]

theorem number_append (base : ℕ) (a : UInt8) (s : List UInt8) :
    number base (s ++ [a]) = base * number base s + digit a := by
  simp only [number, List.reverse_append, List.reverse_singleton, List.singleton_append, List.map_cons,
    Nat.ofDigits_cons]
  exact Nat.add_comm _ _

/-- A number is written in digits, and they are read as that number. -/
theorem decimal_digits (n : ℕ) : Streamer.decimal n ≠ [] ∧ (Streamer.decimal n).all isDigit = true ∧
    number 10 (Streamer.decimal n) = n := by
  induction n using Nat.strongRecOn with
  | ind n ih =>
    have hdigit : ∀ k < 10, isDigit (48 + UInt8.ofNat k) = true ∧ digit (48 + UInt8.ofNat k) = k := by
      decide
    by_cases h : n < 10
    · rw [decimal_lt h]
      refine ⟨by simp, by simp [hdigit n h], ?_⟩
      simp [number, (hdigit n h).2]
    · obtain ⟨-, hall, hnumber⟩ := ih (n / 10) (by omega)
      obtain ⟨hd, hvalue⟩ := hdigit (n % 10) (by omega)
      rw [decimal_ge (by omega), decimal_lt (n := n % 10) (by omega)]
      refine ⟨by simp, by simp [hall, hd], ?_⟩
      rw [number_append, hnumber, hvalue]
      omega

/-- The entry of the headers that a line is written for. -/
def Field.entry (f : Field) : List UInt8 × List UInt8 := (f.name, f.value)

theorem exists_fields {entries : List (List UInt8 × List UInt8)}
    (h : ∀ entry ∈ entries, (Unquoted entry.1 ∧ 58 ∉ entry.1) ∧ Unquoted entry.2) :
    ∃ fs : List Field, fs.map Field.entry = entries := by
  induction entries with
  | nil => exact ⟨[], rfl⟩
  | cons entry entries ih =>
    obtain ⟨⟨hname, hcolon⟩, hvalue⟩ := h entry List.mem_cons_self
    obtain ⟨fs, rfl⟩ := ih fun e he => h e (List.mem_cons_of_mem entry he)
    exact ⟨⟨entry.1, entry.2, hname.1, hcolon, hvalue.1⟩ :: fs, rfl⟩

theorem fieldsText_eq (fs : List Field) :
    fieldsText fs = (fs.map Field.entry).flatMap Streamer.headerLine := by
  rw [fieldsText, List.flatMap_map]
  rfl

/-- A value is that of one entry, under the name that it was put in with. -/
theorem mem_of_getElem? {headers : Headers} {key v : List UInt8} (h : headers[key]? = some v) :
    ∃ name, headers.getKey? key = some name ∧ compareNames name key = .eq ∧
      (name, v) ∈ headers.toList := by
  have hkey : key ∈ headers := Std.TreeMap.mem_iff_isSome_getElem?.2 (by rw [h]; rfl)
  obtain ⟨name, hname⟩ : ∃ name, headers.getKey? key = some name :=
    Option.isSome_iff_exists.1 (Std.TreeMap.isSome_getKey?_iff_mem.2 hkey)
  have hself : compareNames name key = .eq := by
    have hcompare := Std.TreeMap.compare_getKey?_self (t := headers) (k := key)
    rw [hname] at hcompare
    exact of_decide_eq_true hcompare
  refine ⟨name, hname, hself, ?_⟩
  rw [Std.TreeMap.mem_toList_iff_getKey?_eq_some_and_getElem?_eq_some]
  exact ⟨(Std.TreeMap.getKey?_congr hself).trans hname, (Std.TreeMap.getElem?_congr hself).trans h⟩

theorem lastValue_entries (htools : tools.Lowers) {headers : Headers}
    (h : ∀ entry, entry ∈ fs.map Field.entry ↔ entry ∈ headers.toList) (key : List UInt8) :
    lastValue tools fs key = headers[key]? := by
  have hfield : ∀ f ∈ fs, f.isNamed tools key = true → headers[key]? = some f.value := by
    intro f hf hnamed
    rw [Field.isNamed, beq_iff_eq, compareNames_tolower htools] at hnamed
    have hmem := (h f.entry).1 (List.mem_map_of_mem hf)
    rw [Field.entry, Std.TreeMap.mem_toList_iff_getKey?_eq_some_and_getElem?_eq_some] at hmem
    rw [← hmem.2]
    exact (Std.TreeMap.getElem?_congr hnamed).symm
  cases hlast : lastValue tools fs key with
  | some v =>
    obtain ⟨f, hf, rfl⟩ := Option.map_eq_some_iff.1 hlast
    obtain ⟨hmem, hnamed⟩ := List.mem_filter.1 (List.mem_of_getLast? hf)
    exact (hfield f hmem hnamed).symm
  | none =>
    rw [lastValue_eq_none] at hlast
    refine (Std.TreeMap.getElem?_eq_none fun hkey => ?_).symm
    obtain ⟨v, hv⟩ : ∃ v, headers[key]? = some v :=
      Option.isSome_iff_exists.1 (Std.TreeMap.mem_iff_isSome_getElem?.1 hkey)
    obtain ⟨name, -, hself, hmem⟩ := mem_of_getElem? hv
    obtain ⟨f, hf, hentry⟩ := List.mem_map.1 ((h _).2 hmem)
    have hnamed : f.isNamed tools key = true := by
      rw [Field.isNamed, beq_iff_eq, compareNames_tolower htools]
      rwa [← (Prod.mk.inj hentry).1] at hself
    rw [hlast f hf] at hnamed
    cases hnamed

/-- An entry that the scanner has a rule for. -/
def Lined (entry : List UInt8 × List UInt8) : Prop :=
  (Unquoted entry.1 ∧ 58 ∉ entry.1) ∧ Unquoted entry.2

theorem lined_putHeader {headers : Headers} {name value : List UInt8}
    (h : ∀ entry ∈ headers.toList, Lined entry) (hentry : Lined (name, value)) :
    ∀ entry ∈ (Streamer.putHeader headers name value).toList, Lined entry := by
  intro entry hmem
  by_cases hname : compareNames name entry.1 = .eq
  · have hkey : Unquoted ((headers.getKey? name).getD name) ∧ 58 ∉ (headers.getKey? name).getD name := by
      cases hv : headers[name]? with
      | some v =>
        obtain ⟨key, hkey, -, hold⟩ := mem_of_getElem? hv
        rw [hkey]
        exact (h _ hold).1
      | none =>
        have hnot : name ∉ headers := fun hin => by
          rw [Std.TreeMap.mem_iff_isSome_getElem?, hv] at hin
          cases hin
        rw [Std.TreeMap.getKey?_eq_none hnot]
        exact hentry.1
    obtain ⟨key, v⟩ := entry
    rw [Std.TreeMap.mem_toList_iff_getKey?_eq_some_and_getElem?_eq_some, Streamer.getElem?_putHeader,
      if_pos hname, Streamer.putHeader, Std.TreeMap.getKey?_insert, Streamer.compare_key_eq,
      if_pos hname] at hmem
    obtain ⟨hk, hv⟩ := hmem
    obtain rfl := Option.some.inj hk
    obtain rfl := Option.some.inj hv
    exact ⟨hkey, hentry.2⟩
  · exact h entry ((Streamer.mem_putHeader hname).1 hmem)

theorem unquoted_digits {v : List UInt8} (hne : v ≠ []) (h : v.all isDigit = true) : Unquoted v := by
  refine ⟨hne, fun a ha => ?_⟩
  have hdigit := List.all_eq_true.1 h a ha
  simp only [isDigit, decide_eq_true_eq] at hdigit
  obtain ⟨hle, hge⟩ := hdigit
  refine ⟨?_, by grind⟩
  have hascii : a ≤ 127 := by grind
  have hcontrol : isControl a = false := by
    simp only [isControl, decide_eq_false_iff_not]
    grind
  simp [isToken, hascii, hcontrol]

theorem Postable.lined (h : Postable r) : ∀ entry ∈ (Streamer.headersOf r).toList, Lined entry := by
  obtain ⟨hne, hall, -⟩ := decimal_digits (Streamer.body r).length
  have hlength : Unquoted headerContentLength ∧ 58 ∉ headerContentLength := by decide +kernel
  have htype : Unquoted Streamer.headerContentType ∧ 58 ∉ Streamer.headerContentType := by
    decide +kernel
  rw [Streamer.headersOf, if_pos h.method]
  refine lined_putHeader (lined_putHeader ?_ ?_) ?_
  · exact fun entry hentry => ⟨h.names entry hentry, h.values entry hentry⟩
  · exact ⟨hlength, unquoted_digits hne hall⟩
  · exact ⟨htype, by decide +kernel⟩

theorem Postable.unencoded_headersOf (h : Postable r) :
    ∀ entry ∈ (Streamer.headersOf r).toList, entry.1 ≠ headerContentEncoding := by
  intro entry hentry hname
  have hlength : compareNames headerContentLength entry.1 ≠ .eq := by
    rw [hname]
    decide
  have htype : compareNames Streamer.headerContentType entry.1 ≠ .eq := by
    rw [hname]
    decide
  rw [Streamer.headersOf, if_pos h.method, Streamer.mem_putHeader htype, Streamer.mem_putHeader hlength]
    at hentry
  exact h.unencoded entry hentry hname

theorem Postable.complete (h : Postable r) : Streamer.Complete r where
  headers := by
    have hother : Streamer.otherType r = .response := by
      simp [Streamer.otherType, Streamer.isRequest, h.method]
    rw [hother]
    exact h.kinds
  method := by rw [h.method]; decide
  form := fun _ => h.form
  reason := fun hm => by rw [h.method] at hm; cases hm

theorem version_mem {v : Version} (h : v ∈ [Version.v0_9, .v1_0, .v1_1]) :
    Streamer.versionText v ∈ version.lang := by
  simp only [List.mem_cons, List.not_mem_nil, or_false] at h
  rcases h with rfl | rfl | rfl
  · exact mem_version.2 ⟨48, 57, by decide, by decide, rfl⟩
  · exact mem_version.2 ⟨49, 48, by decide, by decide, rfl⟩
  · exact mem_version.2 ⟨49, 49, by decide, by decide, rfl⟩

theorem method_mem : ascii "POST" ∈ method.lang := mem_method.2 (.inr (.inr rfl))

theorem Postable.head (h : Postable r) : ∃ head : Head,
    head.line = .request (ascii "POST") r.uri (Streamer.versionText r.version) method_mem h.uri
      (version_mem h.version) ∧
    (∀ entry, entry ∈ head.fields.map Field.entry ↔ entry ∈ (Streamer.headersOf r).toList) ∧
    Streamer.text r = head.text ++ Streamer.formText r.form := by
  obtain ⟨entries, hperm, hpasses⟩ := Streamer.passes_eq r (Streamer.headersOf r)
  have hsent : Streamer.sent r (Streamer.headersOf r) = (Streamer.headersOf r).toList := by
    refine List.filter_eq_self.2 fun entry hentry => ?_
    rw [Streamer.isNamed,
      decide_eq_false ((Streamer.forall_headersOf r).2 h.complete.headers entry hentry), Bool.not_false]
  rw [hsent] at hperm
  obtain ⟨fs, rfl⟩ := exists_fields fun entry hentry => h.lined entry (hperm.mem_iff.1 hentry)
  have hline : Streamer.line r =
      ascii "POST" ++ [32] ++ r.uri ++ [32] ++ Streamer.versionText r.version := by
    have htarget : Streamer.target r = r.uri := if_neg fun hget => by
      rw [h.method] at hget
      cases hget.1
    simp only [Streamer.line, h.method, htarget, Streamer.methodToString, List.intercalate_cons_cons,
      List.intercalate_singleton, List.append_assoc]
    rfl
  refine ⟨⟨.request _ _ _ method_mem h.uri (version_mem h.version), fs⟩, rfl,
    fun entry => hperm.mem_iff, ?_⟩
  rw [Streamer.text, hpasses, ← fieldsText_eq, hline, Streamer.body, if_pos h.method]
  simp only [Head.text, StartLine.text, List.append_assoc]

/-- In one fragment, and what is left of it behind the head is the entity. -/
theorem handles_whole {h : Head} {body : List UInt8} (hun : h.Unencoded) (hacc : h.Accepted body)
    (hann : Announces tools h.fields body.length) (hlt : body.length < 2 ^ 32) (hne : body ≠ []) :
    ∃ m chain, ModuleParser.Handles tools { driver := { blocking := false } } (h.text ++ body) m ∧
      m.pushed = [(chain, [h.record tools])] ∧ chain.flatMap Block.content = body := by
  set data := h.text ++ body with hdata
  have hs : (ModuleParser.begin { driver := { blocking := false } } data).Entered := entered_first _
  have hb : (ModuleParser.begin { driver := { blocking := false } } data).buffer = h.text ++ body :=
    buffer_first _
  have hupcoming : (ModuleParser.begin { driver := { blocking := false } } data).Upcoming ([] ++ []) := by
    rw [begin_first]
    exact upcoming_begin _ _ [] []
  set t := (ModuleParser.begin { driver := { blocking := false } } data).behind tools h with ht
  have hentered : t.Entered := entered_behind hs
  have hbuffer : t.buffer = body := buffer_behind hb
  have hbehind : t.Single ((Block.received data).advance h.text.length) :=
    ((single_first data).read hs h.text.length (h.next tools)).withRecord (h.record tools)
  have hin : InBody tools body.length ([] : List (List UInt8)).flatten [] (h.record tools) body.length
      [] t :=
    inBody_behind hann (List.length_pos_iff.2 hne) hlt hs hb hupcoming (Or.inl rfl) (by simp)
  have hscan := hin.scan_eq (by rw [hbuffer]; exact hne)
  rw [hbuffer, UInt32.sub_self, bodyToken, if_pos rfl] at hscan
  obtain ⟨s₁, hscan, hheap, hrecord, hrecords⟩ : ∃ s₁, scan tools t =
      .token .body (.ival (UInt32.ofNat body.length)) s₁ ∧ s₁.heap = t.heap ∧
      s₁.record = h.record tools ∧ s₁.records = [] := ⟨_, hscan, rfl, rfl, rfl⟩
  have hlex : Lexes (scan tools) (enter t) .body (.ival (UInt32.ofNat body.length)) s₁ := by
    rw [hentered.enter]
    exact .token hscan
  have hhalts : (parser tools).Halts
      (Parser.start (ModuleParser.begin { driver := { blocking := false } } data))
      (.returned .accepted s₁.deliver) := by
    refine (path_head hun hs rfl rfl hacc hb).halts.2 (halts_body hlex ?_)
    rw [hrecord]
    exact find_of_announces hann hlt
  refine ⟨_, s₁.deliver.heap.chain 0, .push hhalts rfl, ?_, ?_⟩
  · rw [State.deliver, hrecord, hrecords]
    rfl
  · change (Heap.chain s₁.heap 0).flatMap Block.content = body
    rw [hheap, hbehind.heap]
    change Block.content ((Block.received data).advance h.text.length) ++ [] = body
    rw [List.append_nil, content_advance, content_received, hdata, List.drop_left]

theorem ModuleParser.Handles.unique {m m₁ m₂ : ModuleParser} {data : List UInt8}
    (h₁ : m.Handles tools data m₁) (h₂ : m.Handles tools data m₂) : m₁ = m₂ := by
  cases h₁ with
  | error h hcode =>
    cases h₂ with
    | error h' _ =>
      obtain ⟨-, rfl⟩ := Result.returned.inj (h.unique h')
      rfl
    | wait h' _ | push h' _ =>
      obtain ⟨rfl, -⟩ := Result.returned.inj (h.unique h')
      exact absurd rfl hcode
  | wait h hfinished =>
    cases h₂ with
    | error h' hcode =>
      obtain ⟨rfl, -⟩ := Result.returned.inj (h.unique h')
      exact absurd rfl hcode
    | wait h' _ =>
      obtain ⟨-, rfl⟩ := Result.returned.inj (h.unique h')
      rfl
    | push h' hfinished' =>
      obtain ⟨-, rfl⟩ := Result.returned.inj (h.unique h')
      rw [hfinished] at hfinished'
      cases hfinished'
  | push h hfinished =>
    cases h₂ with
    | error h' hcode =>
      obtain ⟨rfl, -⟩ := Result.returned.inj (h.unique h')
      exact absurd rfl hcode
    | wait h' hfinished' =>
      obtain ⟨-, rfl⟩ := Result.returned.inj (h.unique h')
      rw [hfinished] at hfinished'
      cases hfinished'
    | push h' _ =>
      obtain ⟨-, rfl⟩ := Result.returned.inj (h.unique h')
      rfl

theorem Postable.sameRequest (h : Postable r) (htools : tools.Lowers) {head : Head}
    (hline : head.line = .request (ascii "POST") r.uri (Streamer.versionText r.version) method_mem h.uri
      (version_mem h.version))
    (hfields : ∀ entry, entry ∈ head.fields.map Field.entry ↔ entry ∈ (Streamer.headersOf r).toList) :
    SameRequest r (head.record tools) := by
  have hbody : Streamer.body r = Streamer.formText r.form := if_pos h.method
  have hvalue (key : List UInt8) :
      (head.record tools).headers[key]? = (Streamer.headersOf r)[key]? := by
    rw [getElem?_record, ← lastValue_entries htools hfields]
    refine lastValue_filter_iff.2 fun v hv => ?_
    obtain ⟨f, hf, rfl⟩ := lastValue_mem hv
    have hlined := (h.lined _ ((hfields _).1 (List.mem_map_of_mem hf))).2
    refine List.all_eq_true.2 fun a ha => decide_eq_true ⟨?_, ?_⟩
    · rintro rfl
      exact (unquoted_notMem hlined).1 ha
    · rintro rfl
      exact absurd (hlined.2 10 ha).1 (by decide)
  have hheaders : Streamer.headersOf r = Streamer.putHeader (Streamer.putHeader r.headers
      headerContentLength (Streamer.decimal (Streamer.formText r.form).length))
      Streamer.headerContentType Streamer.mimeTypeWwwUrlEncoding := by
    rw [Streamer.headersOf, if_pos h.method, hbody]
  have hrecord : (head.record tools).method = .post ∧ (head.record tools).uri = r.uri ∧
      (head.record tools).version = versionToType (Streamer.versionText r.version) := by
    obtain ⟨line, fs⟩ := head
    obtain rfl := hline
    exact ⟨rfl, rfl, rfl⟩
  constructor
  · exact hrecord.1.trans h.method.symm
  · exact hrecord.2.1
  · exact hrecord.2.2.trans (versionToType_version (version_mem h.version))
  · rw [hvalue, hheaders, Streamer.getElem?_putHeader, if_neg (by decide), Streamer.getElem?_putHeader,
      if_pos (by decide)]
  · rw [hvalue, hheaders, Streamer.getElem?_putHeader, if_pos (by decide)]
  · intro name hlength htype
    rw [hvalue, hheaders, Streamer.getElem?_putHeader, if_neg htype, Streamer.getElem?_putHeader,
      if_neg hlength]

theorem formText_ne_nil {form : Form} (h : form.isEmpty = false) : Streamer.formText form ≠ [] := by
  rw [← Std.TreeMap.isEmpty_toList] at h
  rw [Streamer.formText]
  cases hl : form.toList with
  | nil =>
    rw [hl] at h
    cases h
  | cons entry entries =>
    cases entries <;> simp [Streamer.pair, ascii, List.intercalate_cons_cons]

theorem Postable.readBack (h : Postable r) (htools : tools.Lowers) :
    ReadBack tools r (Streamer.text r) := by
  obtain ⟨head, hline, hfields, htext⟩ := h.head
  have hbody : Streamer.body r = Streamer.formText r.form := if_pos h.method
  obtain ⟨hne, hall, hnumber⟩ := decimal_digits (Streamer.formText r.form).length
  have hacc : head.Accepted (Streamer.formText r.form) := by
    rw [Head.Accepted, hline]
    refine accepts_unquoted (fun f hf => ?_) _
    have hlined := h.lined _ ((hfields _).1 (List.mem_map_of_mem hf))
    exact ⟨hlined.1.1, hlined.2⟩
  have hun : head.Unencoded := fun f hf =>
    h.unencoded_headersOf f.entry ((hfields _).1 (List.mem_map_of_mem hf))
  have hann : Announces tools head.fields (Streamer.formText r.form).length := by
    refine ⟨_, ?_, hne, hall, hnumber⟩
    rw [lastValue_entries htools hfields, Streamer.headersOf, if_pos h.method, hbody,
      Std.TreeMap.getElem?_congr ((compareNames_tolower htools).2 Std.ReflCmp.compare_self),
      Streamer.getElem?_putHeader, if_neg (by decide), Streamer.getElem?_putHeader, if_pos (by decide)]
  obtain ⟨m, chain, hhandles, hpushed, hcontent⟩ :=
    handles_whole hun hacc hann h.length_lt (formText_ne_nil h.form)
  exact ⟨m, chain, _, htext ▸ hhandles, hpushed, hcontent, h.sameRequest htools hline hfields⟩

/-- A form that the scanner has rules for is written and read back, when there is space for it. -/
theorem postable_readBack (htools : tools.Lowers) (h : Postable r) (m : MessageBlock) (hm : m.length = 0) :
    (m.space < Streamer.size r → Streamer.handleDataMessage r m = .released) ∧
      (Streamer.size r ≤ m.space → ∃ r' m', Streamer.handleDataMessage r m = .passed r' m' ∧
        Streamer.Written r r' m'.content ∧ ReadBack tools r m'.content) := by
  obtain ⟨hreleased, hpassed⟩ := Streamer.handleDataMessage_eq hm fun _ => h.form
  refine ⟨hreleased, fun hroom => ?_⟩
  obtain ⟨m', hm', hcontent⟩ := hpassed hroom
  exact ⟨_, m', hm', hcontent ▸ Streamer.written_of_complete h.complete, hcontent ▸ h.readBack htools⟩

def postEntry : FormRecord where
  method := .post
  uri := ascii "/"
  version := .v1_1
  headers := (∅ : Headers).insert (ascii "Host") (ascii "a")
  form := (∅ : Form).insert (ascii "k") (ascii "v")

theorem postEntry_readBack : ∃ r' m',
    Streamer.handleDataMessage postEntry (MessageBlock.allocate 256) = .passed r' m' ∧
      Streamer.Written postEntry r' m'.content ∧ ReadBack asciiTools postEntry m'.content := by
  have h : Postable postEntry :=
    { method := rfl
      form := by decide
      length_lt := by decide
      uri := Pattern.mem_lang_of_longest (by decide +kernel)
      version := by decide
      names := by decide +kernel
      values := by decide +kernel
      kinds := by decide +kernel
      unencoded := by decide +kernel }
  exact (postable_readBack (fun _ => rfl) h (MessageBlock.allocate 256) rfl).2 (by decide +kernel)

end ACENetwork.Http
