import Mathlib
import ACENetwork.Proofs.Http.Body

/-! Chunked bodies: the offset behind every chunk, and behind the last one. -/

namespace ACENetwork.Http

open Flex Bison Parser

variable {tools : StringTools} {s s' : State} {k : Token} {v : Value} {w rest bytes : List UInt8}
  {c : Chunk} {cs : List Chunk} {n : ℕ}

theorem matchChunkLine_eq {size : List UInt8} (h : matchChunkLine w = some size) :
    ∃ extensions, w = size ++ extensions ++ crlf ∧ size.all isXdigit = true ∧
      extensions.all isLine = true ∧ ∀ a ∈ extensions.head?, a = 59 := by
  rw [matchChunkLine] at h
  split_ifs at h with hline
  obtain ⟨-, hcrlf, hextensions⟩ := hline
  obtain rfl := Option.some.inj h
  set tail := w.dropWhile isXdigit
  refine ⟨tail.take (tail.length - 2), ?_, ?_, ?_, ?_⟩
  · rw [← hcrlf, List.append_assoc, List.take_append_drop, List.takeWhile_append_dropWhile]
  · exact List.all_takeWhile
  · rcases hextensions with hnil | ⟨-, -, hall⟩
    · rw [hnil]
      rfl
    · exact hall
  · rcases hextensions with hnil | ⟨hhead, -, -⟩
    · simp [hnil]
    · simp [hhead]

theorem takeWhile_size {size extensions : List UInt8} (hsize : size.all isXdigit = true)
    (hextensions : ∀ a ∈ extensions.head?, a = 59) :
    (size ++ extensions).takeWhile isXdigit = size := by
  rw [List.takeWhile_append_of_pos (List.all_eq_true.1 hsize)]
  cases extensions with
  | nil => simp
  | cons a extensions =>
    obtain rfl := hextensions a rfl
    simp [isXdigit, isDigit]

theorem notMem_line {size extensions : List UInt8} (hsize : size.all isXdigit = true)
    (hextensions : extensions.all isLine = true) : 13 ∉ size ++ extensions := by
  rw [List.mem_append, not_or]
  refine ⟨fun h => ?_, fun h => ?_⟩
  · exact absurd (List.all_eq_true.1 hsize 13 h) (by decide)
  · exact absurd (List.all_eq_true.1 hextensions 13 h) (by decide)

/-- In front of a chunk the regular expression takes the line of the chunk. -/
theorem matchChunkLine_line {size : List UInt8} (h : matchChunkLine w = some size)
    (hw : w ++ rest = c.line ++ bytes) : w = c.line ∧ size = c.size := by
  obtain ⟨extensions, rfl, hsize, hextensions, hhead⟩ := matchChunkLine_eq h
  have hsplit : (size ++ extensions) ++ 13 :: (10 :: rest) =
      (c.size ++ c.extensions) ++ 13 :: (10 :: bytes) := by
    simpa [Chunk.line, crlf] using hw
  obtain ⟨hline, -⟩ := Pattern.append_cons_cancel (notMem_line hsize hextensions)
    (notMem_line c.size_hex c.extensions_line) hsplit
  refine ⟨by rw [Chunk.line, hline], ?_⟩
  rw [← takeWhile_size hsize hhead, hline, takeWhile_size c.size_hex c.extensions_start]

theorem remains_switchBuffer (hb : s.buffer = []) (hblocking : s.blocking = true)
    (hswitch : s.switchBuffer = some s') (h : s.Remains bytes) : s'.Remains bytes := by
  obtain ⟨buffers, hupcoming, rfl⟩ := h
  cases buffers with
  | nil =>
    rw [switchBuffer_nil hupcoming] at hswitch
    exact absurd hswitch (by simp)
  | cons data buffers =>
    obtain ⟨s₁, hswitch', hbuffer, hnext⟩ := switchBuffer_cons hblocking hupcoming
    obtain rfl := Option.some.inj (hswitch.symm.trans hswitch')
    exact ⟨buffers, hnext, by rw [hb, hbuffer]; rfl⟩

theorem lexes_refill (h : Lexes (scan tools) s k v s') (hk : k ≠ .end_) (hskipping : s.skipping = none) :
    ∃ t, t.buffer ≠ [] ∧ t.start = s.start ∧ t.skipping = none ∧ t.offset = s.offset ∧
      (∀ bytes, s.Remains bytes → t.Remains bytes) ∧ Lexes (scan tools) t k v s' := by
  induction h with
  | @token s s' k v hscan =>
    refine ⟨s, fun hb => ?_, rfl, hskipping, rfl, fun _ h => h, .token hscan⟩
    rw [scan_nil hskipping hb] at hscan
    exact hk (wrap_token hscan).1
  | @more s s₁ s' k v hscan hlex ih =>
    by_cases hb : s.buffer = []
    · rw [scan_nil hskipping hb] at hscan
      obtain ⟨hblocking, hswitch⟩ := wrap_more hscan
      have hframe := switchBuffer_eq hswitch
      obtain ⟨t, hne, hstart, hskip, hoffset, hremains, hlex'⟩ := ih hk (by rw [hframe]; exact hskipping)
      refine ⟨t, hne, ?_, hskip, ?_, fun bytes hs => ?_, hlex'⟩
      · rw [hstart, hframe]
      · rw [hoffset, hframe]
      · exact hremains bytes (remains_switchBuffer hb hblocking hswitch hs)
    · exact ⟨s, hb, rfl, hskipping, rfl, fun _ h => h, .more hscan hlex⟩

theorem lexes_act (h : Lexes (scan tools) s k v s') (hskipping : s.skipping = none) (hb : s.buffer ≠ []) :
    ∃ name n, select rules s.start s.buffer = some (name, n) ∧
      (act tools name (s.buffer.take n) { s with buffer := s.buffer.drop n } = .token k v s' ∨
        ∃ s₁, act tools name (s.buffer.take n) { s with buffer := s.buffer.drop n } = .more s₁ ∧
          Lexes (scan tools) s₁ k v s') := by
  cases hsel : select rules s.start s.buffer with
  | none =>
    have hscan : scan tools s = .fault .jammed := by simp [scan, hskipping, hb, hsel]
    cases h with
    | token hs => rw [hscan] at hs; exact absurd hs (by simp)
    | more hs _ => rw [hscan] at hs; exact absurd hs (by simp)
  | some best =>
    obtain ⟨name, n⟩ := best
    have hscan : scan tools s =
        act tools name (s.buffer.take n) { s with buffer := s.buffer.drop n } :=
      scan_select hskipping hb hsel
    refine ⟨name, n, rfl, ?_⟩
    rw [← hscan]
    cases h with
    | token hs => exact Or.inl hs
    | more hs hlex => exact Or.inr ⟨_, hs, hlex⟩

/-- The token of a chunk: its data and the CR LF behind them count then. -/
structure EndsChunk (s : State) (k : Token) (s' : State) : Prop where
  token : k = .chunk
  start : s'.start = .chunkedBody
  offset : s'.offset = s.offset + (s.chunkSize + 2)

/-- Behind the data there is the token of the chunk, or the end of the input. -/
theorem endChunk_cases (line : ℕ) (s : State) :
    (∃ f, endChunk line s = .fault f) ∨
      ∃ k v s', endChunk line s = .token k v s' ∧ Silent s s' ∧ (k = .end_ ∨ EndsChunk s k s') := by
  rw [endChunk]
  split
  · exact Or.inl ⟨_, rfl⟩
  cases hswitch : s.switchBuffer with
  | none => exact Or.inr ⟨_, _, _, rfl, .refl s, Or.inl rfl⟩
  | some s₁ =>
    have hframe := switchBuffer_eq hswitch
    have hsilent := silent_switchBuffer hswitch
    dsimp only
    split
    · exact Or.inl ⟨_, rfl⟩
    split
    · split
      · split
        · exact Or.inr ⟨_, _, _, rfl, hsilent.trans ⟨rfl, rfl, rfl, rfl⟩, Or.inl rfl⟩
        · rename_i s₂ hswitch'
          have hframe' := switchBuffer_eq hswitch'
          have hsilent' := silent_switchBuffer hswitch'
          refine Or.inr ⟨_, _, _, rfl, ?_, Or.inr ⟨rfl, rfl, ?_⟩⟩
          · exact hsilent.trans ⟨hsilent'.record, hsilent'.records, hsilent'.finished, hsilent'.blocking⟩
          · rw [hframe', hframe]
      · refine Or.inr ⟨_, _, _, rfl, hsilent.trans ⟨rfl, rfl, rfl, rfl⟩, Or.inr ⟨rfl, rfl, ?_⟩⟩
        rw [hframe]
    · exact Or.inl ⟨_, rfl⟩

theorem skipChunk_cases (skip : Skip) (s : State) :
    (∃ f, skipChunk skip s = .fault f) ∨
      (∃ s', skipChunk skip s = .more s' ∧ Silent s s' ∧ s'.skipping ≠ none ∧ s'.offset = s.offset ∧
        s'.chunkSize = s.chunkSize) ∨
      ∃ k v s', skipChunk skip s = .token k v s' ∧ Silent s s' ∧
        (k = .end_ ∨ k = .endOfFragment ∨ EndsChunk s k s') := by
  have hend : ∀ {line : ℕ} {s₁ : State}, Silent s s₁ → s₁.offset = s.offset →
      s₁.chunkSize = s.chunkSize → (∃ f, endChunk line s₁ = .fault f) ∨
        (∃ s', endChunk line s₁ = .more s' ∧ Silent s s' ∧ s'.skipping ≠ none ∧ s'.offset = s.offset ∧
          s'.chunkSize = s.chunkSize) ∨
        ∃ k v s', endChunk line s₁ = .token k v s' ∧ Silent s s' ∧
          (k = .end_ ∨ k = .endOfFragment ∨ EndsChunk s k s') := by
    intro line s₁ hsilent hoffset hsize
    refine (endChunk_cases line s₁).imp_right fun h => Or.inr ?_
    obtain ⟨k, v, s', htoken, hsilent', hk⟩ := h
    refine ⟨k, v, s', htoken, hsilent.trans hsilent', hk.imp_right fun hends => Or.inr ?_⟩
    exact ⟨hends.token, hends.start, by rw [hends.offset, hoffset, hsize]⟩
  rw [skipChunk]
  dsimp only
  split
  · split
    · cases hswitch : State.switchBuffer { s with missing := s.missing - skip.available } with
      | none => exact Or.inr (Or.inr ⟨_, _, _, rfl, ⟨rfl, rfl, rfl, rfl⟩, Or.inl rfl⟩)
      | some s₁ =>
        have hframe := switchBuffer_eq hswitch
        have hsilent := silent_switchBuffer hswitch
        refine Or.inr (Or.inl ⟨_, rfl, ⟨hsilent.record, hsilent.records, hsilent.finished, hsilent.blocking⟩, by simp,
          ?_, ?_⟩)
        · rw [hframe]
        · rw [hframe]
    · exact Or.inr (Or.inr ⟨_, _, _, rfl, ⟨rfl, rfl, rfl, rfl⟩, Or.inr (Or.inl rfl)⟩)
  · split
    · exact hend ⟨rfl, rfl, rfl, rfl⟩ rfl rfl
    · split
      · exact hend ⟨rfl, rfl, rfl, rfl⟩ rfl rfl
      · exact Or.inl ⟨_, rfl⟩

theorem lexes_skipping (h : Lexes (scan tools) s k v s') (hskipping : s.skipping ≠ none) :
    k = .end_ ∨ k = .endOfFragment ∨ EndsChunk s k s' := by
  have hscan : ∀ {s : State}, s.skipping ≠ none → ∃ skip, scan tools s = skipChunk skip s := by
    intro s hskipping
    obtain ⟨skip, hskip⟩ := Option.ne_none_iff_exists'.1 hskipping
    exact ⟨skip, by simp [scan, hskip]⟩
  induction h with
  | @token s s' k v hs =>
    obtain ⟨skip, hskip⟩ := hscan hskipping
    rw [hskip] at hs
    rcases skipChunk_cases skip s with ⟨f, h⟩ | ⟨s₁, h, -⟩ | ⟨k₁, v₁, s₁, h, -, hk⟩
    · exact absurd (h.symm.trans hs) (by simp)
    · exact absurd (h.symm.trans hs) (by simp)
    · obtain ⟨rfl, -, rfl⟩ := Scan.token.inj (h.symm.trans hs)
      exact hk
  | @more s s₁ s' k v hs _ ih =>
    obtain ⟨skip, hskip⟩ := hscan hskipping
    rw [hskip] at hs
    rcases skipChunk_cases skip s with ⟨f, h⟩ | ⟨s₂, h, -, hnext, hoffset, hsize⟩ | ⟨k₁, v₁, s₂, h, -⟩
    · exact absurd (h.symm.trans hs) (by simp)
    · obtain rfl := Scan.more.inj (h.symm.trans hs)
      refine (ih hnext).imp_right fun h => h.imp_right fun hends => ?_
      exact ⟨hends.token, hends.start, by rw [hends.offset, hoffset, hsize]⟩
    · exact absurd (h.symm.trans hs) (by simp)

theorem chunkedBody_rules {r : Rule} (hr : r ∈ rules) (hon : r.on .chunkedBody = true) :
    r = ⟨on .chunkedBody, .seq chunkLine crlfPattern, .chunkSize⟩ ∨
      r = ⟨on .chunkedBody, .seq entityHeader crlfPattern, .header⟩ ∨
      r = ⟨on .chunkedBody, crlfPattern, .chunksDelimiter⟩ ∨ r = octetRule := by
  have h : r ∈ rules.filter fun r => r.on .chunkedBody := List.mem_filter.2 ⟨hr, hon⟩
  have hrules : (rules.filter fun r => r.on .chunkedBody) =
      [⟨on .chunkedBody, .seq chunkLine crlfPattern, .chunkSize⟩,
        ⟨on .chunkedBody, .seq entityHeader crlfPattern, .header⟩,
        ⟨on .chunkedBody, crlfPattern, .chunksDelimiter⟩, octetRule] := rfl
  simpa [hrules] using h

theorem act_octet (h : act tools .octet w s = .token k v s') : k = .endOfFragment := by
  rw [act] at h
  split at h
  · split at h
    · exact (Scan.token.inj h).1.symm
    · exact absurd h (by simp)
  · exact (Scan.token.inj h).1.symm

theorem act_octet_more (h : act tools .octet w s = .more s') : False := by
  rw [act] at h
  split at h
  · split at h <;> exact absurd h (by simp)
  · exact absurd h (by simp)

/-- What the offset grows by for a chunk of a size. -/
def chunkGrowth (line : ℕ) (size : UInt32) : UInt32 :=
  UInt32.ofNat line + if size = 0 then 3 else size + 2

theorem lexes_chunkLine (h : Lexes (scan tools) s k v s') (hstart : s.start = .chunk)
    (hskipping : s.skipping = none) (hb : s.buffer ≠ [])
    (hsel : select rules .chunk s.buffer = some (.chunk, n)) :
    k = .end_ ∨ k = .endOfFragment ∨
      k = .chunk ∧ s'.start = .chunkedBody ∧ s'.offset = s.offset + chunkGrowth n s.chunkSize := by
  obtain ⟨name, n', hsel', hact⟩ := lexes_act h hskipping hb
  rw [hstart, hsel] at hsel'
  obtain ⟨rfl, rfl⟩ : RuleName.chunk = name ∧ n = n' := by simpa using hsel'
  have hlength : (s.buffer.take n).length = n := by
    obtain ⟨r, -, -, -, hlong⟩ := select_sound hsel
    exact List.length_take_of_le (Pattern.longest_sound hlong).1
  simp only [act, hlength] at hact
  by_cases hsize : s.chunkSize = 0
  · simp only [State.advance, hsize, if_true] at hact
    rcases hact with htoken | ⟨s₁, hmore, -⟩
    · obtain ⟨rfl, -, rfl⟩ := Scan.token.inj htoken
      refine Or.inr (Or.inr ⟨rfl, rfl, ?_⟩)
      rw [chunkGrowth, if_pos hsize, UInt32.add_assoc]
    · exact absurd hmore (by simp)
  · simp only [State.advance, hsize, if_false] at hact
    rcases hact with htoken | ⟨s₁, hmore, hlex⟩
    · exact absurd htoken (by simp)
    · obtain rfl := Scan.more.inj hmore
      refine (lexes_skipping hlex (by simp)).imp_right fun h => h.imp_right fun hends => ?_
      refine ⟨hends.token, hends.start, ?_⟩
      rw [hends.offset, chunkGrowth, if_neg hsize, UInt32.add_assoc]

theorem lexes_chunkedBody (h : Lexes (scan tools) s k v s') (hstart : s.start = .chunkedBody)
    (hskipping : s.skipping = none) (hb : s.buffer ≠ []) (hk : k = .chunk ∨ k = .delimiter) :
    k = .delimiter ∧ s'.offset = s.offset + 2 ∨
      k = .chunk ∧ s'.start = .chunkedBody ∧ ∃ n size, n ≤ s.buffer.length ∧
        matchChunkLine (s.buffer.take n) = some size ∧
        s'.offset = s.offset + chunkGrowth n (extractHex size) := by
  obtain ⟨name, n, hsel, hact⟩ := lexes_act h hskipping hb
  rw [hstart] at hsel
  obtain ⟨r, hr, hon, rfl, hlong⟩ := select_sound hsel
  obtain ⟨hn, hmem, -⟩ := Pattern.longest_sound hlong
  rcases chunkedBody_rules hr hon with rfl | rfl | rfl | rfl
  · right
    simp only [act] at hact
    cases hmatch : matchChunkLine (s.buffer.take n) with
    | none =>
      rw [hmatch] at hact
      rcases hact with htoken | ⟨s₁, hmore, -⟩
      · obtain ⟨rfl, -, -⟩ := Scan.token.inj htoken
        exact absurd hk (by decide)
      · exact absurd hmore (by simp)
    | some size =>
      rw [hmatch] at hact
      rcases hact with htoken | ⟨s₁, hmore, hlex⟩
      · exact absurd htoken (by simp)
      · obtain rfl := Scan.more.inj hmore
        simp only [List.take_append_drop] at hlex
        have hpos : 0 < n := by
          obtain ⟨u, -, hu⟩ := (Pattern.mem_lang_ended _ _ _).1 hmem
          have hlength := congrArg List.length hu
          rw [List.length_take_of_le hn, List.length_append] at hlength
          simp only [crlf, List.length_cons, List.length_nil] at hlength
          omega
        have hrules : (rules.filter fun r => r.on .chunk) =
            [⟨on .chunk, .seq chunkLine crlfPattern, .chunk⟩, octetRule] := rfl
        have hsel' : select rules .chunk s.buffer = some (.chunk, n) :=
          select_rule hrules rfl hpos hlong
        rcases lexes_chunkLine hlex rfl hskipping hb hsel' with rfl | rfl | ⟨rfl, hnext, hoffset⟩
        · exact absurd hk (by decide)
        · exact absurd hk (by decide)
        · exact ⟨rfl, hnext, n, size, hn, hmatch, hoffset⟩
  · rcases hact with htoken | ⟨s₁, hmore, -⟩
    · obtain ⟨rfl, -, -⟩ := Scan.token.inj htoken
      exact absurd hk (by decide)
    · exact absurd hmore (by simp [act, textToken])
  · left
    rw [crlfPattern, Pattern.mem_lang_literal] at hmem
    rw [hmem] at hact
    rcases hact with htoken | ⟨s₁, hmore, -⟩
    · obtain ⟨rfl, -, rfl⟩ := Scan.token.inj htoken
      exact ⟨rfl, rfl⟩
    · exact absurd hmore (by simp [act])
  · rcases hact with htoken | ⟨s₁, hmore, -⟩
    · obtain rfl := act_octet htoken
      exact absurd hk (by decide)
    · exact (act_octet_more hmore).elim

theorem entityStart_cases (r : Record) :
    entityStart tools r = .body ∨ entityStart tools r = .chunkedBody ∨
      entityStart tools r = .responseHeaders := by
  rw [entityStart]
  split_ifs
  · exact Or.inl rfl
  · split
    · split_ifs
      · exact Or.inr (Or.inl rfl)
      · exact Or.inr (Or.inr rfl)
    · exact Or.inr (Or.inr rfl)

theorem next_cases (h : Head) :
    h.next tools = .body ∨ h.next tools = .chunkedBody ∨ h.next tools = .responseHeaders := by
  rw [Head.next]
  split_ifs
  · exact entityStart_cases _
  · exact Or.inl rfl

theorem lexes_body_ne (h : Lexes (scan tools) s k v s') (hstart : s.start = .body)
    (hskipping : s.skipping = none) : k ≠ .chunk := by
  induction h with
  | @token s s' k v hscan =>
    by_cases hb : s.buffer = []
    · rw [scan_nil hskipping hb] at hscan
      rw [(wrap_token hscan).1]
      decide
    · rw [scan_body hstart hskipping hb] at hscan
      rw [bodyAction_token hscan]
      decide
  | @more s s₁ s' k v hscan _ ih =>
    by_cases hb : s.buffer = []
    · rw [scan_nil hskipping hb] at hscan
      have hframe := switchBuffer_eq (wrap_more hscan).2
      exact ih (by rw [hframe]; exact hstart) (by rw [hframe]; exact hskipping)
    · rw [scan_body hstart hskipping hb] at hscan
      have hframe := bodyAction_next (congrArg Scan.next hscan)
      exact ih ((bodyAction_more hscan).trans hstart) (by rw [hframe]; exact hskipping)

theorem lexes_responseHeaders_ne (h : Lexes (scan tools) s k v s') (hstart : s.start = .responseHeaders)
    (hskipping : s.skipping = none) : k ≠ .chunk := by
  rintro rfl
  obtain ⟨t, hb, hstart', hskipping', -, -, hlex⟩ := lexes_refill h (by decide) hskipping
  obtain ⟨name, n, hsel, hact⟩ := lexes_act hlex hskipping' hb
  rw [hstart', hstart] at hsel
  obtain ⟨r, hr, hon, rfl, -⟩ := select_sound hsel
  have hname : r.name = .header ∨ r.name = .responseDelimiter ∨ r.name = .octet := by
    have h : r ∈ rules.filter fun r => r.on .responseHeaders := List.mem_filter.2 ⟨hr, hon⟩
    have hrules : (rules.filter fun r => r.on .responseHeaders).map Flex.Rule.name =
        [.header, .header, .header, .responseDelimiter, .octet] := rfl
    have hmem := List.mem_map_of_mem (f := Flex.Rule.name) h
    rw [hrules] at hmem
    simpa using hmem
  rcases hname with hname | hname | hname <;> rw [hname] at hact
  · rcases hact with htoken | ⟨s₁, hmore, -⟩
    · exact absurd htoken (by simp [act, textToken])
    · exact absurd hmore (by simp [act, textToken])
  · rcases hact with htoken | ⟨s₁, hmore, -⟩
    · exact absurd htoken (by simp [act])
    · exact absurd hmore (by simp [act])
  · rcases hact with htoken | ⟨s₁, hmore, -⟩
    · exact absurd (act_octet htoken) (by decide)
    · exact act_octet_more hmore

theorem extractHex_size (c : Chunk) : extractHex c.size = UInt32.ofNat c.data.length := by
  rw [extractHex, c.size_eq, saturate, if_pos c.size_lt]

theorem chunkGrowth_line (c : Chunk) : chunkGrowth c.line.length (extractHex c.size) =
    UInt32.ofNat c.text.length + if c.data = [] then 3 else 0 := by
  rw [chunkGrowth, extractHex_size, Chunk.text]
  by_cases hdata : c.data = []
  · simp [hdata]
  · have hsize : UInt32.ofNat c.data.length ≠ 0 :=
      ofNat_ne_zero (List.length_pos_iff.2 hdata) c.size_lt
    rw [if_neg hsize, if_neg hdata, if_neg hdata]
    simp only [List.length_append, UInt32.ofNat_add, UInt32.add_assoc, UInt32.add_zero]
    rfl

/-- The token of a chunk: the scanner counts three octets too many for the last one. -/
theorem lexes_chunk (h : Lexes (scan tools) (enter s) .chunk v s') (hstart : s.start = .chunkedBody)
    (hremains : s.Remains (c.text ++ bytes)) :
    s'.start = .chunkedBody ∧
      s'.offset = s.offset + (UInt32.ofNat c.text.length + if c.data = [] then 3 else 0) := by
  obtain ⟨t, hb, hstart', hskipping, hoffset, hbytes, hlex⟩ := lexes_refill h (by decide) rfl
  obtain ⟨buffers, -, hbuffers⟩ := hbytes _ hremains
  rcases lexes_chunkedBody hlex (hstart'.trans hstart) hskipping hb (Or.inl rfl) with
    ⟨hk, -⟩ | ⟨-, hnext, n, size, hn, hmatch, hgrowth⟩
  · exact absurd hk (by decide)
  have hline : t.buffer.take n = c.line ∧ size = c.size := by
    obtain ⟨behind, hbehind⟩ : ∃ behind, c.text = c.line ++ behind := by
      rw [Chunk.text]
      split_ifs
      · exact ⟨[], (List.append_nil _).symm⟩
      · exact ⟨c.data ++ crlf, List.append_assoc _ _ _⟩
    have hsplit : t.buffer.take n ++ (t.buffer.drop n ++ buffers.flatten) = c.line ++ (behind ++ bytes) := by
      rw [← List.append_assoc, List.take_append_drop, ← hbuffers, hbehind, List.append_assoc]
    exact matchChunkLine_line hmatch hsplit
  have hlength : n = c.line.length := by rw [← hline.1, List.length_take_of_le hn]
  refine ⟨hnext, ?_⟩
  rw [hgrowth, hoffset, hlength, hline.2, chunkGrowth_line]
  rfl

theorem lexes_delimiter_behind (h : Lexes (scan tools) (enter s) .delimiter v s')
    (hstart : s.start = .chunkedBody) : s'.offset = s.offset + 2 := by
  obtain ⟨t, hb, hstart', hskipping, hoffset, -, hlex⟩ := lexes_refill h (by decide) rfl
  rcases lexes_chunkedBody hlex (hstart'.trans hstart) hskipping hb (Or.inr rfl) with
    ⟨-, hgrowth⟩ | ⟨hk, -⟩
  · rw [hgrowth, hoffset]
    rfl
  · exact absurd hk (by decide)

variable {chunks : List Chunk} {last : Chunk} {h : Head} {first : List UInt8}
  {conts queue : List (List UInt8)} {blocking : Bool}

theorem Chunks.start (h : Chunks tools s cs s') (hne : cs ≠ [])
    (hs : s.start = .body ∨ s.start = .chunkedBody ∨ s.start = .responseHeaders) :
    s.start = .chunkedBody := by
  cases h with
  | nil => exact absurd rfl hne
  | cons hlex _ _ _ =>
    rcases hs with hs | hs | hs
    · exact absurd rfl (lexes_body_ne hlex hs rfl)
    · exact hs
    · exact absurd rfl (lexes_responseHeaders_ne hlex hs rfl)

def chunksGrowth (cs : List Chunk) : UInt32 :=
  (cs.map fun c => UInt32.ofNat c.text.length + if c.data = [] then 3 else 0).sum

theorem Chunks.offset (h : Chunks tools s cs s') (hstart : s.start = .chunkedBody)
    (hremains : s'.Remains bytes) :
    s'.start = .chunkedBody ∧ s.Remains (cs.flatMap Chunk.text ++ bytes) ∧
      s'.offset = s.offset + chunksGrowth cs := by
  induction h with
  | nil s => exact ⟨hstart, hremains, by simp [chunksGrowth]⟩
  | @cons s s₁ s' c cs v bytes' hlex hs hs₁ _ ih =>
    obtain ⟨hnext, hoffset⟩ := lexes_chunk hlex hstart hs
    obtain ⟨hstart', hremains', hoffset'⟩ := ih hnext hremains
    obtain rfl := hs₁.unique hremains'
    refine ⟨hstart', by rw [List.flatMap_cons, List.append_assoc]; exact hs, ?_⟩
    rw [hoffset', hoffset, UInt32.add_assoc]
    rfl

theorem chunksGrowth_data (hdata : ∀ c ∈ cs, c.data ≠ []) :
    chunksGrowth cs = UInt32.ofNat (cs.flatMap Chunk.text).length := by
  induction cs with
  | nil => rfl
  | cons c cs ih =>
    have hcs := ih fun c' hc' => hdata c' (List.mem_cons_of_mem c hc')
    rw [chunksGrowth, List.map_cons, List.sum_cons, if_neg (hdata c List.mem_cons_self), List.flatMap_cons,
      List.length_append, UInt32.ofNat_add, ← hcs, UInt32.add_zero]
    rfl

theorem chunksGrowth_append (cs cs' : List Chunk) :
    chunksGrowth (cs ++ cs') = chunksGrowth cs + chunksGrowth cs' := by
  simp [chunksGrowth]

theorem offset_chunked {s₀ s₁ s₂ : State} (hacc : h.Accepted first)
    (hdata : ∀ c ∈ chunks, c.data ≠ []) (hlast : last.data = [])
    (hentity : EntityAt tools (Driver.begin { blocking := blocking } (h.text ++ first) conts queue) s₀)
    (hchunks : Chunks tools s₀ (chunks ++ [last]) s₁) (hremains : s₁.Remains crlf)
    (hlex : Lexes (scan tools) (enter s₁) .delimiter v s₂) :
    s₂.offset = s₀.offset + (UInt32.ofNat (first ++ conts.flatten ++ queue.flatten).length + 3) := by
  obtain ⟨-, rfl⟩ := (entityAt_begin rfl hacc).1 hentity
  set s := Driver.begin { blocking := blocking } (h.text ++ first) conts queue
  have hstart : (s.behind tools h).start = .chunkedBody := hchunks.start (by simp) (next_cases h)
  obtain ⟨hstart', hall, hoffset⟩ := hchunks.offset hstart hremains
  have hbytes : (s.behind tools h).Remains (first ++ conts.flatten ++ queue.flatten) := by
    refine ⟨conts ++ queue, upcoming_behind rfl (upcoming_begin _ _ _ _), ?_⟩
    rw [buffer_behind rfl, List.flatten_append, List.append_assoc]
  have hlength := congrArg List.length (hbytes.unique hall)
  have hgrowth : chunksGrowth [last] = UInt32.ofNat last.text.length + 3 := by simp [chunksGrowth, hlast]
  have hcrlf : UInt32.ofNat crlf.length = 2 := rfl
  rw [lexes_delimiter_behind hlex hstart', hoffset, chunksGrowth_append, chunksGrowth_data hdata, hgrowth,
    hlength]
  simp only [List.flatMap_append, List.flatMap_singleton, List.length_append, UInt32.ofNat_add, hcrlf,
    UInt32.add_assoc]
  rfl

/-- The offset does not grow by the octets of any chunked body. -/
theorem not_chunkedFramed (tools : StringTools) (blocking : Bool) (conts queue : List (List UInt8))
    (hacc : h.Accepted first) (hdata : ∀ c ∈ chunks, c.data ≠ []) (hlast : last.data = []) :
    ¬ ChunkedFramed tools blocking h chunks last first conts queue := by
  rintro ⟨s₀, s₁, s₂, v, hentity, hchunks, hremains, hlex, -, -, hoffset, -⟩
  rw [offset_chunked hacc hdata hlast hentity hchunks hremains hlex] at hoffset
  have hthree : (3 : UInt32) ≠ 0 := by decide
  simp [hthree] at hoffset

def helloChunk : Chunk where
  size := ascii "5"
  extensions := []
  data := ascii "hello"
  size_ne := fiveField.value_ne
  size_hex := by decide
  extensions_start := by simp
  extensions_line := by decide
  size_eq := by decide
  size_lt := by decide

def lastChunk : Chunk where
  size := ascii "0"
  extensions := []
  data := []
  size_ne := zeroField.value_ne
  size_hex := by decide
  extensions_start := by simp
  extensions_line := by decide
  size_eq := by decide
  size_lt := by decide

theorem not_chunkedFramed_hello :
    Head.Accepted ⟨okLine, [chunkedField]⟩ (ascii "5\r\nhello\r\n0\r\n\r\n") ∧
      ¬ ChunkedFramed asciiTools true ⟨okLine, [chunkedField]⟩ [helloChunk] lastChunk
        (ascii "5\r\nhello\r\n0\r\n\r\n") [] [] := by
  have hacc : Head.Accepted ⟨okLine, [chunkedField]⟩ (ascii "5\r\nhello\r\n0\r\n\r\n") :=
    ⟨by decide +kernel, trivial⟩
  exact ⟨hacc, not_chunkedFramed asciiTools true [] [] hacc (by decide) rfl⟩

/-- With the data cut, and the last chunk in a fragment of its own. -/
theorem not_chunkedFramed_cut :
    Head.Accepted ⟨okLine, [chunkedField]⟩ (ascii "5\r\nhel") ∧
      helloChunk.text ++ lastChunk.text ++ crlf =
        ascii "5\r\nhel" ++ ascii "lo\r\n" ++ ascii "0\r\n\r\n" ∧
      ¬ ChunkedFramed asciiTools true ⟨okLine, [chunkedField]⟩ [helloChunk] lastChunk
        (ascii "5\r\nhel") [ascii "lo\r\n"] [ascii "0\r\n\r\n"] := by
  have hacc : Head.Accepted ⟨okLine, [chunkedField]⟩ (ascii "5\r\nhel") := ⟨by decide +kernel, trivial⟩
  refine ⟨hacc, by decide, ?_⟩
  rintro ⟨s₀, s₁, s₂, v, hentity, hchunks, hremains, hlex, -, -, hoffset, -⟩
  rw [offset_chunked hacc (by decide) rfl hentity hchunks hremains hlex] at hoffset
  have hthree : (3 : UInt32) ≠ 0 := by decide
  simp [hthree] at hoffset

end ACENetwork.Http
