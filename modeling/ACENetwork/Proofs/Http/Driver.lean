import Mathlib
import ACENetwork.Proofs.Http.Chunked

/-! One driver for several messages: it has finished for good once it has delivered a record, and
then does not switch to the other fragments of a message. -/

namespace ACENetwork.Http

open Flex Bison Parser

variable {tools : StringTools} {s s' : State} {n : ℕ} {yytext : List UInt8} {d : Driver}
  {r : Result Fault State}

theorem silent_bodyAction (h : (bodyAction tools n s).next = some s') : Silent s s' := by
  have hframe := bodyAction_next h
  exact ⟨by rw [hframe], by rw [hframe], by rw [hframe], by rw [hframe]⟩

theorem silent_octet (h : (act tools .octet yytext s).next = some s') : Silent s s' := by
  rw [act] at h
  split_ifs at h
  · split at h
    · rw [← Option.some.inj h]
      exact ⟨rfl, rfl, rfl, rfl⟩
    · exact absurd h (by simp [Scan.next])
  · rw [← Option.some.inj h]
    exact ⟨rfl, rfl, rfl, rfl⟩

theorem silent_act {name : RuleName} (h : (act tools name yytext s).next = some s') : Silent s s' := by
  cases name with
  | body => exact silent_bodyAction h
  | octet => exact silent_octet h
  | chunkSize =>
    rw [act] at h
    split at h <;> rw [← Option.some.inj h] <;> exact ⟨rfl, rfl, rfl, rfl⟩
  | chunk =>
    rw [act] at h
    split_ifs at h <;> rw [← Option.some.inj h] <;> exact ⟨rfl, rfl, rfl, rfl⟩
  | _ =>
    rw [act] at h
    rw [← Option.some.inj h]
    exact ⟨rfl, rfl, rfl, rfl⟩

theorem silent_wrap (h : (wrap s).next = some s') : Silent s s' := by
  rw [wrap] at h
  split_ifs at h
  · rw [← Option.some.inj h]
    exact ⟨rfl, rfl, rfl, rfl⟩
  · split at h
    · rw [← Option.some.inj h]
      exact ⟨rfl, rfl, rfl, rfl⟩
    · rename_i s₁ hswitch
      rw [← Option.some.inj h]
      exact silent_switchBuffer hswitch
  · rw [← Option.some.inj h]
    exact ⟨rfl, rfl, rfl, rfl⟩

theorem silent_scan (h : (scan tools s).next = some s') : Silent s s' := by
  rw [scan] at h
  split at h
  · rename_i skip _
    rcases skipChunk_cases skip s with ⟨f, hskip⟩ | ⟨s₁, hskip, hsilent, -⟩ | ⟨k, v, s₁, hskip, hsilent, -⟩
    · rw [hskip] at h
      exact absurd h (by simp [Scan.next])
    · rw [hskip] at h
      exact Option.some.inj h ▸ hsilent
    · rw [hskip] at h
      exact Option.some.inj h ▸ hsilent
  split_ifs at h
  · exact silent_wrap h
  split at h
  · have hsilent := silent_act h
    exact ⟨hsilent.record, hsilent.records, hsilent.finished, hsilent.blocking⟩
  · exact absurd h (by simp [Scan.next])

theorem silent_lexes {k : Token} {v : Value} (h : Lexes (scan tools) s k v s') : Silent s s' :=
  h.of_next (fun _ _ hs hscan => hs.trans (silent_scan hscan)) (.refl s)

/-- Nothing is delivered, whatever the record is. -/
structure Undelivered (s s' : State) : Prop where
  records : s'.records = s.records
  finished : s'.finished = s.finished

theorem undelivered_semantics {rule : GrammarRule} {vs : List Value}
    (h : (semantics tools rule vs s).next = some s') : Undelivered s s' ∨ s' = s.deliver := by
  have hvalue : ∀ {v : Value} {s₁ : State}, (Reduce.value v s₁ : Reduce Value Fault State).next =
      some s' → Undelivered s s₁ → Undelivered s s' ∨ s' = s.deliver := by
    intro v s₁ h hundelivered
    rw [← Option.some.inj h]
    exact Or.inl hundelivered
  have hfault : ∀ {f : Fault}, (Reduce.fault f : Reduce Value Fault State).next = some s' → False := by
    intro f h
    exact absurd h (by simp [Reduce.next])
  unfold semantics at h
  split at h
  case h_2 =>
    split at h
    · exact Or.inl (Option.some.inj h ▸ ⟨rfl, rfl⟩)
    · exact hvalue h ⟨rfl, rfl⟩
  case h_7 =>
    unfold storeHeader at h
    split at h
    · exact hvalue h ⟨rfl, rfl⟩
    · split_ifs at h
      · exact (hfault h).elim
      · exact hvalue h ⟨rfl, rfl⟩
  case h_8 =>
    split at h
    · exact (hfault h).elim
    · split_ifs at h
      · exact Or.inr (Option.some.inj h).symm
      · exact hvalue h ⟨rfl, rfl⟩
  case h_9 => exact Or.inr (Option.some.inj h).symm
  all_goals first | exact hvalue h ⟨rfl, rfl⟩ | exact (hfault h).elim

/-- The driver does not say that it has finished before it has delivered a record. -/
def State.Unfinished (s : State) : Prop := s.records = [] → s.finished = false

theorem Undelivered.unfinished (h : Undelivered s s') (hs : s.Unfinished) : s'.Unfinished := by
  rw [State.Unfinished, h.records, h.finished]
  exact hs

theorem Message.unfinished (m : Message tools) (hd : d.finished = false) : m.Unfinished d := by
  intro c hpath
  have hbegin : State.Unfinished (Parser.start (m.begin d) : Config Token Value State).state :=
    fun _ => hd
  have hkeeps : c.state.Unfinished := by
    refine hpath.keeps (fun _ hs => hs) (fun s s' hs hscan => ?_) ?_ hbegin
    · have hsilent := silent_scan hscan
      exact Undelivered.unfinished ⟨hsilent.records, hsilent.finished⟩ hs
    · intro rule vs s s' hs hsemantics
      rcases undelivered_semantics hsemantics with hundelivered | rfl
      · exact hundelivered.unfinished hs
      · simp [State.Unfinished, State.deliver]
  exact hkeeps

theorem Message.parses (m : Message tools) (hun : m.head.Unencoded) :
    ∃ s, (parser tools).Halts (Parser.start (m.begin { blocking := true })) (.returned .accepted s) ∧
      s.records = [m.head.record tools] ∧ s.driver = ⟨.initial, true, true⟩ := by
  obtain ⟨head, first, conts, queue, hne, hlt, hann, hacc⟩ := m
  set n := (first ++ conts.flatten ++ queue.flatten).length with hn
  set s := Driver.begin { blocking := true } (head.text ++ first) conts queue
  have hs : s.Entered := entered_begin _ _ _ _
  have hupcoming : s.Upcoming (conts ++ queue ++ []) := by
    rw [List.append_nil]
    exact upcoming_begin _ _ _ _
  have hin : InBody tools n ([] : List (List UInt8)).flatten [] (head.record tools) n (conts ++ queue)
      (s.behind tools head) :=
    inBody_behind hann (List.length_pos_iff.2 hne) hlt hs rfl hupcoming
      (Or.inr ⟨rfl, rfl⟩) (by simp [hn])
  obtain ⟨s₁, hlex, hstart, -, hrecord, hrecords⟩ := hin.lexes
  have hfind : ∃ v, s₁.record.find tools headerContentLength = some v ∧ extract v = UInt32.ofNat n := by
    rw [hrecord]
    exact find_of_announces hann hlt
  have hblocking : s₁.blocking = true := (silent_lexes hlex).blocking
  rw [← (entered_behind hs).enter] at hlex
  refine ⟨s₁.deliver, (path_head hun hs rfl rfl hacc rfl).halts.2 (halts_body hlex hfind), ?_, ?_⟩
  · rw [State.deliver, hrecords, hrecord]
    rfl
  · rw [State.driver, State.deliver, hstart, hblocking]

theorem lexes_finished {t : State} (hstart : t.start = .body) (hs : t.Entered)
    (hblocking : t.blocking = true) (hfinished : t.finished = true)
    (hfind : ∃ v, t.record.find tools headerContentLength = some v ∧ extract v = UInt32.ofNat n)
    (hlt : n < 2 ^ 32) (hcut : t.buffer.length < n) :
    ∃ s', Lexes (scan tools) (enter t) .end_ .none s' ∧ s'.records = t.records := by
  rw [hs.enter]
  by_cases hb : t.buffer = []
  · refine ⟨{ t with start := .initial }, .token ?_, rfl⟩
    simp [scan_nil hs.skipping hb, wrap, hblocking, hfinished]
  · obtain ⟨v, hfind, hextract⟩ := hfind
    have hmissing : UInt32.ofNat n - UInt32.ofNat t.buffer.length = UInt32.ofNat (n - t.buffer.length) :=
      (UInt32.ofNat_sub hcut.le).symm
    have hscan : ∃ s₁, scan tools t = .more s₁ ∧ s₁.buffer = [] ∧ s₁.skipping = none ∧
        s₁.blocking = true ∧ s₁.finished = true ∧ s₁.records = t.records := by
      rw [scan_body hstart hs.skipping hb, bodyAction]
      simp only [hs.chunkSize, if_true, hfind, hextract, hmissing]
      rw [bodyToken, if_neg (ofNat_ne_zero (by omega) (by omega))]
      exact ⟨_, rfl, rfl, hs.skipping, hblocking, hfinished, rfl⟩
    obtain ⟨s₁, hscan, hb₁, hskipping, hblocking, hfinished, hrecords⟩ := hscan
    refine ⟨{ s₁ with start := .initial }, .more hscan (.token ?_), hrecords⟩
    simp [scan_nil hskipping hb₁, wrap, hblocking, hfinished]

theorem Message.parses_finished (m : Message tools) (hun : m.head.Unencoded) (hstart : d.start = .initial)
    (hfinished : d.finished = true) (hblocking : d.blocking = true)
    (hcut : m.first.length < (m.first ++ m.conts.flatten ++ m.queue.flatten).length) :
    ∃ s, (parser tools).Halts (Parser.start (m.begin d)) (.returned .rejected s) ∧ s.records = [] := by
  obtain ⟨head, first, conts, queue, hne, hlt, hann, hacc⟩ := m
  set s := d.begin (head.text ++ first) conts queue
  have hs : s.Entered := entered_begin _ _ _ _
  have hbuffer : (s.behind tools head).buffer = first := buffer_behind rfl
  obtain ⟨s', hlex, hrecords⟩ := lexes_finished (next_of_announces hann hlt) (entered_behind hs)
    hblocking hfinished (find_of_announces hann hlt) hlt (by rwa [hbuffer])
  have hf : top bodyStack ≠ (parser tools).final := by simp [bodyStack, top, parser]
  refine ⟨s', (path_head hun hs hstart rfl hacc rfl).halts.2 ?_, hrecords⟩
  exact (halts_lex hf rfl hlex).2 ((halts_error hf rfl rfl).2 rfl)

/-- A driver parses one message like a new one, unless `encoding` is called, and no more. -/
theorem reusable_iff (ms : List (Message tools)) :
    Reusable { blocking := true } ms ↔ ms.length ≤ 1 ∧ ∀ m ∈ ms, m.head.Unencoded := by
  cases ms with
  | nil => simp [Reusable]
  | cons m ms =>
    by_cases hun : m.head.Unencoded
    swap
    · refine iff_of_false (fun hreusable => ?_) fun hboth => hun (hboth.2 m List.mem_cons_self)
      obtain ⟨code, s, r', hhalts, -⟩ := hreusable
      exact hun (unencoded_of_returned rfl m.accepted hhalts)
    obtain ⟨s, hparses, -, hdriver⟩ := m.parses hun
    cases ms with
    | nil => exact iff_of_true ⟨_, _, _, hparses, hparses, rfl, m.unfinished rfl, trivial⟩ (by simpa using hun)
    | cons m' ms =>
      refine iff_of_false (fun hreusable => ?_) (by simp)
      obtain ⟨code, s', r', hhalts, -, -, -, hnext⟩ := hreusable
      obtain ⟨-, rfl⟩ := Result.returned.inj (hhalts.unique hparses)
      obtain ⟨_, _, _, -, -, -, hunfinished, -⟩ := hnext
      have hfinished : s'.driver.finished = false := hunfinished _ (.refl _) rfl
      rw [hdriver] at hfinished
      exact absurd hfinished (by decide)

def helloMessage : Message asciiTools where
  head := ⟨okLine, [fiveField]⟩
  first := ascii "he"
  conts := [ascii "llo"]
  queue := []
  body_ne := by decide
  body_lt := by decide
  announces := announces_five
  accepted := ⟨by decide +kernel, trivial⟩

theorem not_reusable_hello :
    (∃ s s', (parser asciiTools).Halts (Parser.start (helloMessage.begin { blocking := true }))
        (.returned .accepted s) ∧
      (parser asciiTools).Halts (Parser.start (helloMessage.begin s.driver)) (.returned .rejected s')) ∧
    ¬ Reusable { blocking := true } [helloMessage, helloMessage] := by
  obtain ⟨s, hparses, hrecords, hdriver⟩ := helloMessage.parses (by decide)
  have hrejected : ∃ s', (parser asciiTools).Halts (Parser.start (helloMessage.begin s.driver))
      (.returned .rejected s') ∧ s'.records = [] :=
    helloMessage.parses_finished (by decide) (by rw [hdriver]) (by rw [hdriver]) (by rw [hdriver]) (by decide)
  obtain ⟨s', hrejected, -⟩ := hrejected
  refine ⟨⟨s, s', hparses, hrejected⟩, fun hreusable => ?_⟩
  obtain ⟨code, s₁, r', hhalts, -, -, -, hnext⟩ := hreusable
  obtain ⟨-, rfl⟩ := Result.returned.inj (hhalts.unique hparses)
  obtain ⟨code₂, s₂, r₂, hhalts₂, hhalts₂', houtcome, -⟩ := hnext
  rw [hhalts₂.unique hrejected, hhalts₂'.unique hparses] at houtcome
  simp [outcome] at houtcome

end ACENetwork.Http
