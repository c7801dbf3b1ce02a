import Mathlib
import ACENetwork.Proofs.Http.Body

/-! What is delivered for a message in one buffer, and what of its head is in there. -/

namespace ACENetwork.Http

open Flex Bison Parser

variable {tools : StringTools} {h : Head} {body w : List UInt8} {blocking : Bool} {s : State}
  {r : Result Fault State} {fs : List Field}

theorem versionToType_version (hw : w ∈ version.lang) : versionToType w = .invalid := by
  have hlength : ∀ v : List UInt8, v.length < 8 → w ≠ v := by
    rintro v hv rfl
    rw [length_version hw] at hv
    exact lt_irrefl _ hv
  rw [versionToType, if_neg (hlength _ (by decide)), if_neg (hlength _ (by decide)),
    if_neg (hlength _ (by decide)), if_neg (hlength _ (by decide))]

theorem versionToType_text_iff : (versionToType (w.drop 5)).text = w ↔ ∃ v : Version, v.text = w := by
  refine ⟨fun h => ⟨_, h⟩, fun h => ?_⟩
  obtain ⟨v, rfl⟩ := h
  cases v <;> decide

theorem lastValue_mem {key v : List UInt8} (h : lastValue tools fs key = some v) :
    ∃ f ∈ fs, f.value = v := by
  obtain ⟨f, hf, hv⟩ := Option.map_eq_some_iff.1 h
  exact ⟨f, (List.mem_filter.1 (List.mem_of_getLast? hf)).1, hv⟩

theorem lastValue_filter_iff {key : List UInt8} :
    lastValue tools (fs.filter fun f => f.Plain) key = lastValue tools fs key ↔
      ∀ v, lastValue tools fs key = some v → v.all isLine = true := by
  refine ⟨fun h v hv => ?_, fun h => ?_⟩
  · rw [← h] at hv
    obtain ⟨f, hf, rfl⟩ := lastValue_mem hv
    exact of_decide_eq_true (List.mem_filter.1 hf).2
  · cases hv : lastValue tools fs key with
    | some v => exact lastValue_filter hv (h v hv)
    | none =>
      rw [lastValue_eq_none] at hv ⊢
      exact fun f hf => hv f (List.mem_filter.1 hf).1

theorem record_decodes_iff : (h.record tools).Decodes tools h ↔
    h.line.isStatus = true ∧ (∃ v : Version, v.text = h.line.version) ∧
      ∀ key v, lastValue tools h.fields key = some v → v.all isLine = true := by
  have hheaders : (∀ key, (h.record tools).headers[key]? = lastValue tools h.fields key) ↔
      ∀ key v, lastValue tools h.fields key = some v → v.all isLine = true := by
    simp only [getElem?_record, lastValue_filter_iff]
  rw [Record.Decodes, hheaders]
  obtain ⟨line, fs⟩ := h
  cases line with
  | request method uri version _ _ hversion =>
    refine iff_of_false (fun hdecodes => ?_) (by simp [StartLine.isStatus])
    have htext : (versionToType version).text = version := hdecodes.1
    rw [versionToType_version hversion] at htext
    have hlength := length_version hversion
    rw [← htext] at hlength
    exact absurd hlength (by decide)
  | status version code reason _ _ _ =>
    have hversion : (versionToType (version.drop 5)).text = version ↔ ∃ v : Version, v.text = version :=
      versionToType_text_iff
    simp [StartLine.isStatus, StartLine.version, Head.record, Record.withFields, hversion]

theorem wrap_upcoming (hfinished : s.finished = false) (h : s.Upcoming []) :
    wrap s = .token .end_ .none s := by
  simp [wrap, hfinished, switchBuffer_nil h]

theorem parses_empty (hun : h.Unencoded) (hacc : h.Accepted [])
    (hparses : Parses tools { blocking := blocking } (h.text ++ []) [] [] r) :
    ∃ s, r = .returned .rejected s ∧ s.records = [] := by
  set s := Driver.begin { blocking := blocking } (h.text ++ []) [] []
  have hs : s.Entered := entered_begin _ _ _ _
  have hbuffer : (s.behind tools h).buffer = [] := buffer_behind rfl
  have hupcoming : (s.behind tools h).Upcoming [] := upcoming_behind hs.held (upcoming_begin _ _ _ _)
  have hscan : scan tools (s.behind tools h) = .token .end_ .none (s.behind tools h) :=
    (scan_nil (entered_behind hs).skipping hbuffer).trans (wrap_upcoming rfl hupcoming)
  have hlex : Lexes (scan tools) (enter (s.behind tools h)) .end_ .none (s.behind tools h) := by
    rw [(entered_behind hs).enter]
    exact .token hscan
  have hf : top bodyStack ≠ (parser tools).final := by simp [bodyStack, top, parser]
  rw [Parses, (path_head hun hs rfl rfl hacc rfl).halts, halts_lex hf rfl hlex,
    halts_error hf rfl rfl] at hparses
  exact ⟨_, hparses, rfl⟩

theorem parses_body (blocking : Bool) (hun : h.Unencoded) (hacc : h.Accepted body)
    (hann : Announces tools h.fields body.length) (hlt : body.length < 2 ^ 32) (hne : body ≠ []) :
    ∃ s, Parses tools { blocking := blocking } (h.text ++ body) [] [] (.returned .accepted s) ∧
      s.records = [h.record tools] := by
  set s := Driver.begin { blocking := blocking } (h.text ++ body) [] []
  have hs : s.Entered := entered_begin _ _ _ _
  have hin : InBody tools body.length ([] : List (List UInt8)).flatten [] (h.record tools) body.length
      [] (s.behind tools h) :=
    inBody_behind hann (List.length_pos_iff.2 hne) hlt hs rfl (upcoming_begin _ _ [] []) (Or.inl rfl)
      (by simp)
  obtain ⟨s₁, hlex, -, -, hrecord, hrecords⟩ := hin.lexes
  refine ⟨s₁.deliver, ?_, by rw [State.deliver, hrecords, hrecord]; rfl⟩
  rw [Parses, (path_head hun hs rfl rfl hacc rfl).halts]
  refine halts_body ?_ (hrecord ▸ find_of_announces hann hlt)
  rw [(entered_behind hs).enter]
  exact hlex

/-- A record has what the head of its message says, when `encoding` is not called, the head has a
status line with a version that has a code, none of the headers has CR or LF in its value, and the entity is not empty. -/
theorem decodes_iff (blocking : Bool) (hacc : h.Accepted body)
    (hann : Announces tools h.fields body.length) (hlt : body.length < 2 ^ 32) :
    Decodes tools blocking h body ↔
      h.Unencoded ∧ body ≠ [] ∧ h.line.isStatus = true ∧ (∃ v : Version, v.text = h.line.version) ∧
        ∀ key v, lastValue tools h.fields key = some v → v.all isLine = true := by
  rw [← record_decodes_iff]
  by_cases hun : h.Unencoded
  swap
  · refine iff_of_false (fun hdecodes => ?_) fun hboth => hun hboth.1
    obtain ⟨code, s, r, hparses, -⟩ := hdecodes
    exact hun (unencoded_of_returned rfl hacc hparses)
  simp only [hun, true_and]
  by_cases hne : body = []
  · subst hne
    refine iff_of_false (fun hdecodes => ?_) (by simp)
    obtain ⟨code, s, r, hparses, hrecords, -⟩ := hdecodes
    obtain ⟨s', heq, hrecords'⟩ := parses_empty hun hacc hparses
    obtain ⟨rfl, rfl⟩ := Result.returned.inj heq
    rw [hrecords] at hrecords'
    exact absurd hrecords' (by simp)
  · obtain ⟨s, hparses, hrecords⟩ := parses_body blocking hun hacc hann hlt hne
    refine ⟨fun hdecodes => ⟨hne, ?_⟩, fun hdecodes => ⟨.accepted, s, _, hparses, hrecords, hdecodes.2⟩⟩
    obtain ⟨code, s', r, hparses', hrecords', hdecodes⟩ := hdecodes
    obtain ⟨-, rfl⟩ := Result.returned.inj (hparses.unique hparses')
    rw [hrecords] at hrecords'
    rwa [(List.cons.inj hrecords').1]

theorem decodes_hello :
    Head.Accepted ⟨okLine, [fiveField]⟩ (ascii "hello") ∧
      Decodes asciiTools false ⟨okLine, [fiveField]⟩ (ascii "hello") := by
  have hacc : Head.Accepted ⟨okLine, [fiveField]⟩ (ascii "hello") := ⟨by decide +kernel, trivial⟩
  refine ⟨hacc, (decodes_iff false hacc announces_five (by decide)).2
    ⟨by decide, by decide, rfl, ⟨.v1_1, by decide⟩, fun key v hv => ?_⟩⟩
  obtain ⟨f, hf, rfl⟩ := lastValue_mem hv
  rw [List.mem_singleton.1 hf]
  decide

/-- The version of a request, and an empty entity. -/
theorem not_decodes_post_empty :
    (Head.Accepted ⟨postLine, [fiveField]⟩ (ascii "hello") ∧ Announces asciiTools [fiveField] 5 ∧
      ¬ Decodes asciiTools false ⟨postLine, [fiveField]⟩ (ascii "hello")) ∧
    Head.Accepted ⟨okLine, [zeroField]⟩ [] ∧ Announces asciiTools [zeroField] 0 ∧
      ¬ Decodes asciiTools false ⟨okLine, [zeroField]⟩ [] := by
  have hpost : Head.Accepted ⟨postLine, [fiveField]⟩ (ascii "hello") := ⟨by decide +kernel, trivial⟩
  have hok : Head.Accepted ⟨okLine, [zeroField]⟩ [] := ⟨by decide +kernel, trivial⟩
  refine ⟨⟨hpost, announces_five, ?_⟩, hok, announces_zero, ?_⟩
  · rintro ⟨code, s, r, hparses, hrecords, hversion, -⟩
    obtain ⟨s', hparses', hrecords'⟩ := parses_body false (by decide) hpost announces_five (by decide) (by decide)
    obtain ⟨-, rfl⟩ := Result.returned.inj (hparses.unique hparses')
    rw [hrecords] at hrecords'
    rw [(List.cons.inj hrecords').1] at hversion
    exact absurd hversion (by decide)
  · rintro ⟨code, s, r, hparses, hrecords, -⟩
    obtain ⟨s', heq, hrecords'⟩ := parses_empty (by decide) hok hparses
    obtain ⟨rfl, rfl⟩ := Result.returned.inj heq
    rw [hrecords] at hrecords'
    exact absurd hrecords' (by simp)

end ACENetwork.Http
