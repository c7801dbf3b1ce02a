import Mathlib
import ACENetwork.Proofs.Http.Fields
import ACENetwork.Proofs.Http.Fragments

/-! Messages with a content length: the rule that counts the octets of the entity down, over the
fragments that they come in. -/

namespace ACENetwork.Http

open Flex Bison Parser

variable {tools : StringTools} {s s' : State} {n m : ℕ} {tail : List UInt8}
  {parts rest buffers : List (List UInt8)} {h : Head} {first : List UInt8}
  {conts queue : List (List UInt8)} {r : Result Fault State}

theorem select_body {buffer : List UInt8} (hb : buffer ≠ []) :
    select rules .body buffer = some (.body, buffer.length) := by
  have hlong : (Pattern.star Pattern.any).longest buffer = some buffer.length := by
    have := Pattern.longest_star (p := fun _ => true) (w := buffer) (s := []) (fun _ _ => rfl) (by simp)
    rwa [List.append_nil] at this
  have hrules : (rules.filter fun r => r.on .body) =
      [⟨on .body, .star Pattern.any, .body⟩, octetRule] := rfl
  exact select_rule hrules rfl (List.length_pos_iff.2 hb) hlong

theorem scan_body (hstart : s.start = .body) (hskipping : s.skipping = none) (hb : s.buffer ≠ []) :
    scan tools s = bodyAction tools s.buffer.length { s with buffer := [] } := by
  rw [scan_select hskipping hb (by rw [hstart, select_body hb]), act, List.take_length, List.drop_length]

theorem scan_nil (hskipping : s.skipping = none) (hb : s.buffer = []) : scan tools s = wrap s := by
  simp [scan, hskipping, hb]

theorem wrap_more (h : wrap s = .more s') : s.blocking = true ∧ s.switchBuffer = some s' := by
  rw [wrap] at h
  split_ifs at h with hblocking
  cases hswitch : s.switchBuffer with
  | none => simp [hswitch] at h
  | some s₁ =>
    rw [hswitch] at h
    exact ⟨hblocking, by rw [Scan.more.inj h]⟩

theorem wrap_token {k : Token} {v : Value} (h : wrap s = .token k v s') :
    k = .end_ ∧ s'.records = s.records := by
  rw [wrap] at h
  split_ifs at h
  · obtain ⟨rfl, -, rfl⟩ := Scan.token.inj h
    exact ⟨rfl, rfl⟩
  · cases hswitch : s.switchBuffer with
    | none =>
      rw [hswitch] at h
      obtain ⟨rfl, -, rfl⟩ := Scan.token.inj h
      exact ⟨rfl, rfl⟩
    | some s₁ => simp [hswitch] at h
  · obtain ⟨rfl, -, rfl⟩ := Scan.token.inj h
    exact ⟨rfl, rfl⟩

theorem bodyAction_next (h : (bodyAction tools n s).next = some s') :
    s' = { s with start := s'.start, offset := s'.offset, chunkSize := s'.chunkSize,
                  missing := s'.missing } := by
  have htoken : ∀ {size missing : UInt32} {s₁ : State}, (bodyToken size missing s₁).next = some s' →
      s' = { s₁ with start := s'.start, chunkSize := size, missing := missing } := by
    intro size missing s₁ h
    rw [bodyToken] at h
    split_ifs at h <;> rw [← Option.some.inj h]
  rw [bodyAction] at h
  dsimp only at h
  split_ifs at h
  · split at h
    · exact absurd h (by simp [Scan.next])
    · rw [htoken h]
  · rw [htoken h]

theorem bodyAction_token {k : Token} {v : Value} (h : bodyAction tools n s = .token k v s') :
    k = .body := by
  have htoken : ∀ {size missing : UInt32} {s₁ : State}, bodyToken size missing s₁ = .token k v s' →
      k = .body := by
    intro size missing s₁ h
    rw [bodyToken] at h
    split_ifs at h
    exact (Scan.token.inj h).1.symm
  rw [bodyAction] at h
  dsimp only at h
  split_ifs at h
  · split at h
    · exact absurd h (by simp)
    · exact htoken h
  · exact htoken h

theorem bodyAction_more (h : bodyAction tools n s = .more s') : s'.start = s.start := by
  have htoken : ∀ {size missing : UInt32} {s₁ : State}, bodyToken size missing s₁ = .more s' →
      s'.start = s₁.start := by
    intro size missing s₁ h
    rw [bodyToken] at h
    split_ifs at h
    rw [← Scan.more.inj h]
  rw [bodyAction] at h
  dsimp only at h
  split_ifs at h
  · split at h
    · exact absurd h (by simp)
    · rw [htoken h]
  · rw [htoken h]

/-- A call of the scanner that is looking for the end of an entity of `n` octets: `m` of them are
still to come, and they end with one of the buffers. -/
structure InBody (tools : StringTools) (n : ℕ) (tail : List UInt8) (records : List Record)
    (record : Record) (m : ℕ) (parts : List (List UInt8)) (s : State) : Prop where
  start : s.start = .body
  skipping : s.skipping = none
  waits : parts = [] ∨ s.blocking = true ∧ s.finished = false
  record_eq : s.record = record
  records_eq : s.records = records
  size : ∃ v, record.find tools headerContentLength = some v ∧ extract v = UInt32.ofNat n
  size_lt : n < 2 ^ 32
  pos : 0 < m
  le : m ≤ n
  length : s.buffer.length + parts.flatten.length = m
  upcoming : ∃ rest, s.Upcoming (parts ++ rest) ∧ rest.flatten = tail
  count : s.chunkSize = 0 ∧ m = n ∨ s.chunkSize = UInt32.ofNat n ∧ s.missing = UInt32.ofNat m

variable {records : List Record} {record : Record}

theorem InBody.wrap (h : InBody tools n tail records record m parts s) (hb : s.buffer = []) :
    ∃ p parts' s', parts = p :: parts' ∧ scan tools s = .more s' ∧
      InBody tools n tail records record m parts' s' := by
  obtain ⟨rest, hupcoming, htail⟩ := h.upcoming
  cases parts with
  | nil =>
    have hlength := h.length
    rw [hb, List.length_nil, List.flatten_nil, List.length_nil] at hlength
    exact absurd h.pos (by omega)
  | cons p parts' =>
    obtain ⟨hblocking, hfinished⟩ := h.waits.resolve_left (by simp)
    obtain ⟨s', hswitch, hbuffer, hnext⟩ := switchBuffer_cons hblocking hupcoming
    have hframe := switchBuffer_eq hswitch
    refine ⟨p, parts', s', rfl, ?_, ?_⟩
    · simp [scan_nil h.skipping hb, Http.wrap, hblocking, hfinished, hswitch]
    · have hlength := h.length
      rw [hb, List.length_nil, List.flatten_cons, List.length_append, Nat.zero_add] at hlength
      exact {
        start := (congrArg State.start hframe).trans h.start
        skipping := (congrArg State.skipping hframe).trans h.skipping
        waits := Or.inr ⟨(congrArg State.blocking hframe).trans hblocking,
          (congrArg State.finished hframe).trans hfinished⟩
        record_eq := (congrArg State.record hframe).trans h.record_eq
        records_eq := (congrArg State.records hframe).trans h.records_eq
        size := h.size
        size_lt := h.size_lt
        pos := h.pos
        le := h.le
        length := by rw [hbuffer, hlength]
        upcoming := ⟨rest, hnext, htail⟩
        count := by
          rw [congrArg State.chunkSize hframe, congrArg State.missing hframe]
          exact h.count }

theorem ofNat_ne_zero {a : ℕ} (ha : 0 < a) (hlt : a < 2 ^ 32) : UInt32.ofNat a ≠ 0 := by
  intro h0
  have hzero : (UInt32.ofNat a).toNat = 0 := by rw [h0]; rfl
  rw [UInt32.toNat_ofNat_of_lt' hlt] at hzero
  omega

theorem InBody.scan_eq (h : InBody tools n tail records record m parts s) (hb : s.buffer ≠ []) :
    scan tools s = bodyToken (UInt32.ofNat n) (UInt32.ofNat m - UInt32.ofNat s.buffer.length)
      { s with buffer := [], offset := s.offset + UInt32.ofNat s.buffer.length } := by
  obtain ⟨v, hfind, hextract⟩ := h.size
  have hn : UInt32.ofNat n ≠ 0 := ofNat_ne_zero (h.pos.trans_le h.le) h.size_lt
  rw [scan_body h.start h.skipping hb, bodyAction]
  rcases h.count with ⟨hsize, rfl⟩ | ⟨hsize, hmissing⟩
  · simp [hsize, h.record_eq, hfind, hextract]
  · simp [hsize, hn, hmissing]

theorem InBody.more (h : InBody tools n tail records record m parts s) (hb : s.buffer ≠ [])
    (hlt : s.buffer.length < m) :
    ∃ s', scan tools s = .more s' ∧ s'.buffer = [] ∧
      InBody tools n tail records record (m - s.buffer.length) parts s' := by
  have hm : m < 2 ^ 32 := h.le.trans_lt h.size_lt
  have hmissing : UInt32.ofNat m - UInt32.ofNat s.buffer.length = UInt32.ofNat (m - s.buffer.length) :=
    (UInt32.ofNat_sub hlt.le).symm
  refine ⟨{ s with
    buffer := []
    offset := s.offset + UInt32.ofNat s.buffer.length
    chunkSize := UInt32.ofNat n
    missing := UInt32.ofNat (m - s.buffer.length) }, ?_, rfl, ?_⟩
  · rw [h.scan_eq hb, hmissing, bodyToken, if_neg (ofNat_ne_zero (by omega) (by omega))]
  · obtain ⟨rest, ⟨b, blocks, hchain, hbuffers⟩, htail⟩ := h.upcoming
    have hlength := h.length
    have hle := h.le
    exact {
      h with
      pos := by omega
      le := by omega
      length := by
        rw [List.length_nil]
        omega
      upcoming := ⟨rest, ⟨b, blocks, hchain, hbuffers⟩, htail⟩
      count := Or.inr ⟨rfl, rfl⟩ }

theorem InBody.token (h : InBody tools n tail records record m parts s) (hb : s.buffer ≠ [])
    (hlength : s.buffer.length = m) :
    ∃ s', scan tools s = .token .body (.ival (UInt32.ofNat n)) s' ∧ s'.start = .initial ∧
      s'.Remains tail ∧ s'.record = record ∧ s'.records = records := by
  refine ⟨{ s with
    start := .initial
    buffer := []
    offset := s.offset + UInt32.ofNat s.buffer.length
    chunkSize := UInt32.ofNat n
    missing := 0 }, ?_, rfl, ?_, h.record_eq, h.records_eq⟩
  · rw [h.scan_eq hb, hlength, UInt32.sub_self, bodyToken, if_pos rfl]
  · obtain ⟨rest, ⟨b, blocks, hchain, hbuffers⟩, htail⟩ := h.upcoming
    have hparts : parts.flatten = [] := by
      rw [← List.length_eq_zero_iff]
      have := h.length
      omega
    refine ⟨parts ++ rest, ⟨b, blocks, hchain, hbuffers⟩, ?_⟩
    rw [List.flatten_append, hparts, htail]
    rfl

theorem InBody.lexes (h : InBody tools n tail records record m parts s) :
    ∃ s', Lexes (scan tools) s .body (.ival (UInt32.ofNat n)) s' ∧ s'.start = .initial ∧
      s'.Remains tail ∧ s'.record = record ∧ s'.records = records := by
  induction parts generalizing s m with
  | nil =>
    have hb : s.buffer ≠ [] := by
      intro hb
      obtain ⟨_, _, _, hparts, -⟩ := h.wrap hb
      exact absurd hparts (by simp)
    have hlength := h.length
    rw [List.flatten_nil, List.length_nil, Nat.add_zero] at hlength
    obtain ⟨s', hscan, hs'⟩ := h.token hb hlength
    exact ⟨s', .token hscan, hs'⟩
  | cons p parts ih =>
    -- the buffer after this one
    have hnext : ∀ {s m}, InBody tools n tail records record m (p :: parts) s → s.buffer = [] →
        ∃ s', Lexes (scan tools) s .body (.ival (UInt32.ofNat n)) s' ∧ s'.start = .initial ∧
          s'.Remains tail ∧ s'.record = record ∧ s'.records = records := by
      intro s m h hb
      obtain ⟨p', parts', s₁, hparts, hscan, h₁⟩ := h.wrap hb
      obtain ⟨rfl, rfl⟩ := List.cons.inj hparts
      obtain ⟨s', hlex, hs'⟩ := ih h₁
      exact ⟨s', .more hscan hlex, hs'⟩
    by_cases hb : s.buffer = []
    · exact hnext h hb
    rcases (show s.buffer.length ≤ m by have := h.length; omega).lt_or_eq with hlt | hlength
    · obtain ⟨s₁, hscan, hb₁, h₁⟩ := h.more hb hlt
      obtain ⟨s', hlex, hs'⟩ := hnext h₁ hb₁
      exact ⟨s', .more hscan hlex, hs'⟩
    · obtain ⟨s', hscan, hs'⟩ := h.token hb hlength
      exact ⟨s', .token hscan, hs'⟩

theorem InBody.within (h : InBody tools n tail records record m parts s) {t : State}
    (ht : Within (scan tools) s t) : ∃ m parts, InBody tools n tail records record m parts t := by
  induction ht generalizing m parts with
  | refl => exact ⟨m, parts, h⟩
  | @more s s₁ t hs _ ih =>
    by_cases hb : s.buffer = []
    · obtain ⟨_, _, s', _, hscan, h'⟩ := h.wrap hb
      obtain rfl : s' = s₁ := by simpa [hscan] using hs
      exact ih h'
    rcases (show s.buffer.length ≤ m by have := h.length; omega).lt_or_eq with hlt | hlength
    · obtain ⟨s', hscan, -, h'⟩ := h.more hb hlt
      obtain rfl : s' = s₁ := by simpa [hscan] using hs
      exact ih h'
    · obtain ⟨s', hscan, -⟩ := h.token hb hlength
      simp [hscan] at hs

/-- The last header line of a name is the last one without CR and LF, if it has none. -/
theorem lastValue_filter {fs : List Field} {key v : List UInt8} (h : lastValue tools fs key = some v)
    (hplain : v.all isLine = true) : lastValue tools (fs.filter fun f => f.Plain) key = some v := by
  induction fs using List.reverseRecOn with
  | nil => simp [lastValue] at h
  | append_singleton fs f ih =>
    rw [lastValue_append] at h
    rw [List.filter_append]
    by_cases hf : f.Plain
    · have hfilter : ([f].filter fun f => f.Plain) = [f] := by simp [hf]
      rw [hfilter, lastValue_append]
      split_ifs at h ⊢
      · exact h
      · exact ih h
    · have hfilter : ([f].filter fun f => f.Plain) = [] := by simp [hf]
      rw [hfilter, List.append_nil]
      split_ifs at h
      · rw [← Option.some.inj h] at hplain
        exact absurd hplain hf
      · exact ih h

theorem find_of_announces (hann : Announces tools h.fields n) (hlt : n < 2 ^ 32) :
    ∃ v, (h.record tools).find tools headerContentLength = some v ∧ extract v = UInt32.ofNat n := by
  obtain ⟨v, hvalue, hv, hdigits, rfl⟩ := hann
  have hplain : v.all isLine = true := by
    rw [List.all_eq_true] at hdigits ⊢
    intro a ha
    have := hdigits a ha
    simp only [isDigit, isLine, decide_eq_true_eq] at *
    grind
  refine ⟨v, ?_, extract_digits hv hdigits hlt⟩
  rw [find_record, lastValue_filter hvalue hplain]

/-- The scanner looks for an entity, at the start or at the end of the last buffer of `done`. -/
structure Aligned (done coming : List (List UInt8)) (s : State) : Prop where
  start : s.start = .body
  skipping : s.skipping = none
  buffer : s.buffer = [] ∨ s.buffer ∈ done
  upcoming : s.Upcoming coming

variable {done coming : List (List UInt8)} {k : Token} {v : Value}

theorem Aligned.more (h : Aligned done coming s) (hscan : scan tools s = .more s') :
    ∃ done' coming', done ++ coming = done' ++ coming' ∧ Aligned done' coming' s' := by
  by_cases hb : s.buffer = []
  · rw [scan_nil h.skipping hb] at hscan
    obtain ⟨hblocking, hswitch⟩ := wrap_more hscan
    have hframe := switchBuffer_eq hswitch
    cases coming with
    | nil => rw [switchBuffer_nil h.upcoming] at hswitch; exact absurd hswitch (by simp)
    | cons data coming =>
      obtain ⟨s₁, hswitch', hbuffer, hupcoming⟩ := switchBuffer_cons hblocking h.upcoming
      obtain rfl := Option.some.inj (hswitch.symm.trans hswitch')
      refine ⟨done ++ [data], coming, by simp, ?_, ?_, Or.inr (by simp [hbuffer]), hupcoming⟩
      · exact (congrArg State.start hframe).trans h.start
      · exact (congrArg State.skipping hframe).trans h.skipping
  · rw [scan_body h.start h.skipping hb] at hscan
    have hframe := bodyAction_next (congrArg Scan.next hscan)
    refine ⟨done, coming, rfl, ?_, ?_, Or.inl ?_, ?_⟩
    · exact (bodyAction_more hscan).trans h.start
    · rw [hframe]
      exact h.skipping
    · rw [hframe]
    · obtain ⟨b, blocks, hchain, hbuffers⟩ := h.upcoming
      rw [hframe]
      exact ⟨b, blocks, hchain, hbuffers⟩

/-- The rule for the entity ends at the end of a buffer, and it has taken something. -/
theorem Aligned.lexes (h : Aligned done coming s) (hlex : Lexes (scan tools) s .body v s') :
    ∃ done' coming', done ++ coming = done' ++ coming' ∧ done'.flatten ≠ [] ∧
      s'.Remains coming'.flatten := by
  generalize hk : Token.body = k at hlex
  induction hlex generalizing done coming with
  | @token s s' k v hscan =>
    subst hk
    by_cases hb : s.buffer = []
    · rw [scan_nil h.skipping hb] at hscan
      exact absurd (wrap_token hscan).1 (by decide)
    · rw [scan_body h.start h.skipping hb] at hscan
      have hframe := bodyAction_next (congrArg Scan.next hscan)
      refine ⟨done, coming, rfl, ?_, ?_⟩
      · intro hdone
        rw [List.flatten_eq_nil_iff] at hdone
        exact hb (hdone _ (h.buffer.resolve_left hb))
      · obtain ⟨b, blocks, hchain, hbuffers⟩ := h.upcoming
        rw [hframe]
        exact ⟨coming, ⟨b, blocks, hchain, hbuffers⟩, rfl⟩
  | more hscan _ ih =>
    obtain ⟨done', coming', heq, h'⟩ := h.more hscan
    rw [heq]
    exact ih h' hk

variable {d : Driver}

theorem buffer_behind (hd : s.buffer = h.text ++ first) : (s.behind tools h).buffer = first :=
  read_buffer (c := h.next tools) hd

theorem upcoming_behind (hs : s.held = s.fragment) (hupcoming : s.Upcoming buffers) :
    (s.behind tools h).Upcoming buffers := hupcoming.advance hs h.text.length

theorem entered_behind (hs : s.Entered) : (s.behind tools h).Entered :=
  (hs.read h.text.length (h.next tools)).withRecord (h.record tools)

theorem next_of_announces (hann : Announces tools h.fields n) (hlt : n < 2 ^ 32) :
    h.next tools = .body := by
  obtain ⟨v, hfind, -⟩ := find_of_announces hann hlt
  rw [Head.next, entityStart, hfind]
  simp

theorem halts_body {s₀ s₁ : State} (hlex : Lexes (scan tools) (enter s₀) .body (.ival (UInt32.ofNat n)) s₁)
    (hfind : ∃ v, s₁.record.find tools headerContentLength = some v ∧ extract v = UInt32.ofNat n) :
    (parser tools).Halts ⟨bodyStack, .empty, s₀⟩ (.returned .accepted s₁.deliver) := by
  have hread : (parser tools).Halts ⟨bodyStack, .empty, s₀⟩ (.returned .accepted s₁.deliver) ↔
      (parser tools).Halts ⟨(19, .ival (UInt32.ofNat n)) :: bodyStack, .empty, s₁⟩
        (.returned .accepted s₁.deliver) :=
    halts_lex_shift (by simp [bodyStack, top, parser]) rfl hlex rfl rfl
  obtain ⟨v, hv, hextract⟩ := hfind
  have haccept : semantics tools .body [.ival (UInt32.ofNat n)] s₁ = .accept s₁.deliver := by
    simp [semantics, hv, hextract]
  exact hread.2 ((halts_reduce_accept [(19, .ival (UInt32.ofNat n))] bodyStack (by simp [top, parser])
    (Or.inl rfl) rfl haccept).2 rfl)

theorem inBody_behind (hann : Announces tools h.fields n) (hpos : 0 < n) (hlt : n < 2 ^ 32)
    (hs : s.Entered) (hb : s.buffer = h.text ++ first) (hupcoming : s.Upcoming (parts ++ rest))
    (hwaits : parts = [] ∨ s.blocking = true ∧ s.finished = false)
    (hlength : first.length + parts.flatten.length = n) :
    InBody tools n rest.flatten s.records (h.record tools) n parts (s.behind tools h) where
  start := next_of_announces hann hlt
  skipping := hs.skipping
  waits := hwaits
  record_eq := rfl
  records_eq := rfl
  size := find_of_announces hann hlt
  size_lt := hlt
  pos := hpos
  le := le_rfl
  length := by rw [buffer_behind hb, hlength]
  upcoming := ⟨rest, upcoming_behind hs.held hupcoming, rfl⟩
  count := Or.inl ⟨hs.chunkSize, rfl⟩

theorem Framed.ends (hframed : Framed tools h n first conts queue tail) (hacc : h.Accepted first)
    (hann : Announces tools h.fields n) (hlt : n < 2 ^ 32) :
    h.Unencoded ∧ ∃ parts rest, first :: (conts ++ queue) = parts ++ rest ∧ parts.flatten ≠ [] ∧
      rest.flatten = tail := by
  obtain ⟨s₀, s₁, hentity, hlex, -, hremains, -⟩ := hframed
  obtain ⟨hun, rfl⟩ := (entityAt_begin rfl hacc).1 hentity
  set s := Driver.begin { blocking := true } (h.text ++ first) conts queue
  have hs : s.Entered := entered_begin _ _ _ _
  have haligned : Aligned [first] (conts ++ queue) (s.behind tools h) :=
    { start := next_of_announces hann hlt
      skipping := hs.skipping
      buffer := by
        rw [buffer_behind rfl]
        exact Or.inr List.mem_cons_self
      upcoming := upcoming_behind hs.held (upcoming_begin _ _ _ _) }
  rw [(entered_behind hs).enter] at hlex
  obtain ⟨parts, rest, heq, hparts, hremains'⟩ := haligned.lexes hlex
  exact ⟨hun, parts, rest, heq, hparts, hremains'.unique hremains⟩

/-- An entity is framed when `encoding` is not called, it is not empty, and one of the buffers ends
with it. -/
theorem framed_iff {body : List UInt8} (hacc : h.Accepted first) (hann : Announces tools h.fields n)
    (hlt : n < 2 ^ 31) (hbytes : (first :: (conts ++ queue)).flatten = body ++ tail)
    (hbody : body.length = n) :
    Framed tools h n first conts queue tail ↔
      h.Unencoded ∧ 0 < n ∧
        ∃ parts rest, first :: (conts ++ queue) = parts ++ rest ∧ rest.flatten = tail := by
  have hlt' : n < 2 ^ 32 := hlt.trans (by decide)
  refine ⟨fun hframed => ?_, fun hends => ?_⟩
  · obtain ⟨hun, parts, rest, heq, hparts, hrest⟩ := hframed.ends hacc hann hlt'
    refine ⟨hun, ?_, parts, rest, heq, hrest⟩
    rw [heq, List.flatten_append, hrest] at hbytes
    rw [← hbody, ← List.append_cancel_right hbytes]
    exact List.length_pos_iff.2 hparts
  · obtain ⟨hun, hpos, parts, rest, heq, rfl⟩ := hends
    have hparts : parts.flatten = body := by
      rw [heq, List.flatten_append] at hbytes
      exact List.append_cancel_right hbytes
    obtain ⟨rfl, hrest⟩ | ⟨parts, rfl, hrest⟩ := List.cons_eq_append_iff.1 heq
    · rw [← hbody, ← hparts] at hpos
      exact absurd hpos (lt_irrefl 0)
    set s := Driver.begin { blocking := true } (h.text ++ first) conts queue
    have hs : s.Entered := entered_begin _ _ _ _
    have hin : InBody tools n rest.flatten [] (h.record tools) n parts (s.behind tools h) :=
      inBody_behind hann hpos hlt' hs rfl (hrest ▸ upcoming_begin _ _ _ _) (Or.inr ⟨rfl, rfl⟩)
        (by rw [← hbody, ← hparts, List.flatten_cons, List.length_append])
    obtain ⟨s₁, hlex, hstart, hremains, hrecord, hrecords⟩ := hin.lexes
    have henter : enter (s.behind tools h) = s.behind tools h := (entered_behind hs).enter
    refine ⟨s.behind tools h, s₁, (entityAt_begin rfl hacc).2 ⟨hun, rfl⟩, henter ▸ hlex, hstart, hremains,
      ?_, ?_⟩
    · intro t ht hsize
      rw [henter] at ht
      obtain ⟨m, parts, hin⟩ := hin.within ht
      obtain ⟨rest', hupcoming, hrest'⟩ := hin.upcoming
      refine ⟨_, ⟨_, hupcoming, rfl⟩, ?_⟩
      have hmissing := (hin.count.resolve_left fun h0 => hsize h0.1).2
      have hlength := hin.length
      have hm : m < 2 ^ 32 := hin.le.trans_lt hlt'
      rw [hmissing, UInt32.toNat_ofNat_of_lt' hm, List.flatten_append, hrest', List.length_append,
        List.length_append]
      omega
    · refine ⟨.accepted, s₁.deliver, s₁.record, ?_, by rw [State.deliver, hrecords]; rfl⟩
      rw [(path_head hun hs rfl rfl hacc rfl).halts]
      exact halts_body (henter ▸ hlex) (hrecord ▸ find_of_announces hann hlt')

theorem announces_five : Announces asciiTools [fiveField] 5 :=
  ⟨ascii "5", by decide, by decide, by decide, by decide⟩

def zeroField : Field :=
  ⟨headerContentLength, ascii "0", fiveField.name_ne, fiveField.colon, by decide⟩

theorem announces_zero : Announces asciiTools [zeroField] 0 :=
  ⟨ascii "0", by decide, by decide, by decide, by decide⟩

/-- `hello`, in two fragments, and a next message in one of its own. -/
theorem framed_hello :
    Head.Accepted ⟨okLine, [fiveField]⟩ (ascii "he") ∧
      Framed asciiTools ⟨okLine, [fiveField]⟩ 5 (ascii "he") [ascii "llo"] [ascii "HTTP"] (ascii "HTTP") := by
  have hacc : Head.Accepted ⟨okLine, [fiveField]⟩ (ascii "he") := ⟨by decide +kernel, trivial⟩
  have hbytes : (ascii "he" :: ([ascii "llo"] ++ [ascii "HTTP"])).flatten =
      ascii "hello" ++ ascii "HTTP" := by decide
  exact ⟨hacc, (framed_iff hacc announces_five (by decide) hbytes rfl).2
    ⟨by decide, by decide, [ascii "he", ascii "llo"], [ascii "HTTP"], rfl, by decide⟩⟩

/-- An entity with a next message in the same buffer, and an empty one. -/
theorem not_framed_pipelined_empty :
    (Head.Accepted ⟨okLine, [fiveField]⟩ (ascii "helloHTTP") ∧ Announces asciiTools [fiveField] 5 ∧
      ¬ Framed asciiTools ⟨okLine, [fiveField]⟩ 5 (ascii "helloHTTP") [] [] (ascii "HTTP")) ∧
    Head.Accepted ⟨okLine, [zeroField]⟩ [] ∧ Announces asciiTools [zeroField] 0 ∧
      ¬ Framed asciiTools ⟨okLine, [zeroField]⟩ 0 [] [] [] [] := by
  have hfive : Head.Accepted ⟨okLine, [fiveField]⟩ (ascii "helloHTTP") := ⟨by decide +kernel, trivial⟩
  have hzero : Head.Accepted ⟨okLine, [zeroField]⟩ [] := ⟨by decide +kernel, trivial⟩
  refine ⟨⟨hfive, announces_five, fun h => ?_⟩, hzero, announces_zero, fun h => ?_⟩
  · obtain ⟨-, parts, rest, heq, hparts, hrest⟩ := h.ends hfive announces_five (by decide)
    obtain ⟨rfl, -⟩ | ⟨parts, rfl, hnil⟩ := List.cons_eq_append_iff.1 heq
    · exact hparts rfl
    · obtain ⟨rfl, rfl⟩ := List.append_eq_nil_iff.1 hnil.symm
      exact absurd hrest (by decide)
  · obtain ⟨-, parts, rest, heq, hparts, -⟩ := h.ends hzero announces_zero (by decide)
    have hflatten := congrArg List.flatten heq
    rw [List.flatten_append] at hflatten
    exact hparts (List.append_eq_nil_iff.1 hflatten.symm).1

end ACENetwork.Http
