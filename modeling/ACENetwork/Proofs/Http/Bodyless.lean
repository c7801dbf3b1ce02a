import Mathlib
import ACENetwork.Proofs.Http.Body

/-! Requests without a content length: the scanner looks for their entity nevertheless. -/

namespace ACENetwork.Http

open Flex Bison Parser

variable {tools : StringTools} {s s' : State} {k : Token} {v : Value} {h : Head} {blocking : Bool}
  {first : List UInt8} {conts queue : List (List UInt8)} {r : Result Fault State}

/-- Without a content length the rule for the entity fails. -/
theorem scan_without_length (hstart : s.start = .body) (hskipping : s.skipping = none)
    (hsize : s.chunkSize = 0) (hfind : s.record.find tools headerContentLength = none)
    (hb : s.buffer ≠ []) : scan tools s = .fault .assertion := by
  rw [scan_body hstart hskipping hb, bodyAction]
  simp [hsize, hfind]

theorem lexes_without_length (hlex : Lexes (scan tools) s k v s') (hstart : s.start = .body)
    (hskipping : s.skipping = none) (hsize : s.chunkSize = 0)
    (hfind : s.record.find tools headerContentLength = none) :
    k = .end_ ∧ s'.records = s.records := by
  induction hlex with
  | @token s s' k v hscan =>
    by_cases hb : s.buffer = []
    · rw [scan_nil hskipping hb] at hscan
      exact wrap_token hscan
    · rw [scan_without_length hstart hskipping hsize hfind hb] at hscan
      exact absurd hscan (by simp)
  | @more s s₁ s' k v hscan _ ih =>
    by_cases hb : s.buffer = []
    · rw [scan_nil hskipping hb] at hscan
      have hframe := switchBuffer_eq (wrap_more hscan).2
      rw [hframe] at ih
      exact ih hstart hskipping hsize hfind
    · rw [scan_without_length hstart hskipping hsize hfind hb] at hscan
      exact absurd hscan (by simp)

theorem find_without_length (htools : tools.Lowers)
    (hno : ∀ f ∈ h.fields, ¬ f.Names headerContentLength) :
    (h.record tools).find tools headerContentLength = none := by
  rw [find_record, lastValue_eq_none]
  intro f hf
  rw [Bool.eq_false_iff, Ne, isNamed_iff htools]
  exact hno f (List.mem_filter.1 hf).1

theorem next_of_request (hline : h.line.isStatus = false) : h.next tools = .body := by
  rw [Head.next, hline]
  rfl

theorem parses_without_length (htools : tools.Lowers) (hacc : h.Accepted first)
    (hline : h.line.isStatus = false) (hno : ∀ f ∈ h.fields, ¬ f.Names headerContentLength)
    (hparses : Parses tools { blocking := blocking } (h.text ++ first) conts queue r) :
    (∃ f, r = .fault f) ∨ ∃ s, r = .returned .rejected s ∧ s.records = [] := by
  by_cases hun : h.Unencoded
  swap
  · exact Or.inl ⟨_, (halts_encoded hun rfl hacc).1 hparses⟩
  set s := Driver.begin { blocking := blocking } (h.text ++ first) conts queue
  have hs : s.Entered := entered_begin _ _ _ _
  have hf : top bodyStack ≠ (parser tools).final := by simp [bodyStack, top, parser]
  rw [Parses, (path_head hun hs rfl rfl hacc rfl).halts, halts_enter hf rfl] at hparses
  refine (hparses.lexes hf rfl).symm.imp_right fun hlexes => ?_
  obtain ⟨k, v, s', hlex, hhalts⟩ := hlexes
  obtain ⟨rfl, hrecords⟩ := lexes_without_length hlex (next_of_request hline) rfl rfl
    (find_without_length htools hno)
  rw [halts_error hf rfl rfl] at hhalts
  exact ⟨s', hhalts, hrecords⟩

theorem parses_without_length_fault (htools : tools.Lowers) (hun : h.Unencoded) (hacc : h.Accepted first)
    (hline : h.line.isStatus = false) (hno : ∀ f ∈ h.fields, ¬ f.Names headerContentLength)
    (hne : first ≠ []) :
    Parses tools { blocking := blocking } (h.text ++ first) conts queue (.fault .assertion) := by
  set s := Driver.begin { blocking := blocking } (h.text ++ first) conts queue
  have hs : s.Entered := entered_begin _ _ _ _
  have hf : top bodyStack ≠ (parser tools).final := by simp [bodyStack, top, parser]
  have hbuffer : (s.behind tools h).buffer = first := buffer_behind rfl
  have hscan : scan tools (s.behind tools h) = .fault .assertion :=
    scan_without_length (next_of_request hline) rfl rfl (find_without_length htools hno)
      (by rwa [hbuffer])
  rw [Parses, (path_head hun hs rfl rfl hacc rfl).halts]
  rw [← (entered_behind hs).enter] at hscan
  exact (halts_read_fault hf rfl hscan).2 rfl

/-- No request without a content length is delivered. -/
theorem not_completes (htools : tools.Lowers) (blocking : Bool) (conts queue : List (List UInt8))
    (hacc : h.Accepted first) (hline : h.line.isStatus = false)
    (hno : ∀ f ∈ h.fields, ¬ f.Names headerContentLength) :
    ¬ Completes tools blocking h first conts queue := by
  rintro ⟨code, s, r, hparses, hrecords, -⟩
  rcases parses_without_length htools hacc hline hno hparses with ⟨f, hfault⟩ | ⟨s', hreturned, hnone⟩
  · exact absurd hfault (by simp)
  · obtain ⟨-, rfl⟩ := Result.returned.inj hreturned
    rw [hnone] at hrecords
    exact absurd hrecords (by simp)

theorem not_completes_get :
    Head.Accepted ⟨getLine, []⟩ [] ∧ ¬ Completes asciiTools true ⟨getLine, []⟩ [] [] [] :=
  ⟨trivial, not_completes (fun _ => rfl) true [] [] trivial rfl (by simp)⟩

theorem not_completes_get_next :
    Head.Accepted ⟨getLine, []⟩ (ascii "G") ∧
      Parses asciiTools { blocking := true } (Head.text ⟨getLine, []⟩ ++ ascii "G") [] []
        (.fault .assertion) ∧
      ¬ Completes asciiTools true ⟨getLine, []⟩ (ascii "G") [] [] := by
  have hparses : Parses asciiTools { blocking := true } (Head.text ⟨getLine, []⟩ ++ ascii "G") [] []
      (.fault .assertion) :=
    parses_without_length_fault (fun _ => rfl) (by decide) trivial rfl (by simp) (by decide)
  refine ⟨trivial, hparses, ?_⟩
  rintro ⟨code, s, r, hreturned, -⟩
  exact absurd (hreturned.unique hparses) (by simp)

end ACENetwork.Http
