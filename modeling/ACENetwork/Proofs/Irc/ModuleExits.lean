import Mathlib
import ACENetwork.Spec.Irc.ModuleExits
import ACENetwork.Proofs.Irc.Bisector

/-! Each exit of the module parser releases or passes on the message that `message_p` stands for, and
the chain as well if that is crunched. -/

namespace ACENetwork.Irc.ModuleExits

open ModuleParser (flexBufferBoundarySize)

variable {o : Outcomes} {s s' : State} {m : Message} {chain : List (List UInt8)} {message_p : MessageBlock}
  {copied : ℕ → Bool} {i : ℕ} {crunchMessages_ passMessageDownstream_out : Bool}

def Disposes (s : State) (m : Message) (exit : Exit) : Prop :=
  ∃ s', exit = .returned s' ∧ s'.made = s.made ∧
    ∀ m', s'.disposals m' = s.released.count m' + s.passed.count m' + if m' = m then 1 else 0

theorem count_concat (l : List Message) (m m' : Message) :
    (l ++ [m]).count m' = l.count m' + if m' = m then 1 else 0 := by
  by_cases h : m' = m
  · rw [if_pos h, h, List.count_append, List.count_singleton_self]
  · have hnone : [m].count m' = 0 := List.count_eq_zero_of_not_mem (by simpa using h)
    rw [if_neg h, List.count_append, hnone]

theorem disposes_error (hp : s.message_p = some m) : Disposes s m s.error := by
  have herror : s.error = .returned { s with
      message_p := none
      passMessageDownstream_out := false
      released := s.released ++ [m] } := by
    rw [State.error, hp]
  refine ⟨_, herror, rfl, fun m' => ?_⟩
  simp only [State.disposals, Bool.false_eq_true, false_and, if_false, count_concat]
  omega

theorem disposes_caller (hpass : s.passMessageDownstream_out = true) (hinout : s.message_inout = some m) :
    Disposes s m (.returned s) := by
  refine ⟨s, rfl, rfl, fun m' => ?_⟩
  simp [State.disposals, hpass, hinout, eq_comm]

theorem disposes_put (hpass : s.passMessageDownstream_out = false) :
    Disposes s m (.returned { s with passed := s.passed ++ [m] }) := by
  refine ⟨_, rfl, rfl, fun m' => ?_⟩
  simp only [State.disposals, hpass, Bool.false_eq_true, false_and, if_false, count_concat]
  omega

theorem disposes_parse (hp : s.message_p = some m)
    (hpass : s.passMessageDownstream_out = true → s.message_inout = some m) : Disposes s m (parse o s) := by
  have hparse : parse o s =
      if o.recordAllocated = false then s.error
      else if o.parsed = false then s.error
      else if s.passMessageDownstream_out then .returned s
      else if o.put = false then s.error
      else .returned { s with passed := s.passed ++ [m] } := by
    simp only [parse, hp]
  rw [hparse]
  split_ifs with hrecord hparsed hcaller hput
  · exact disposes_error hp
  · exact disposes_error hp
  · exact disposes_caller hcaller (hpass hcaller)
  · exact disposes_error hp
  · exact disposes_put (Bool.eq_false_iff.2 hcaller)

theorem copyBlocks_all (hroom : message_p.content.length + chain.flatten.length ≤ message_p.capacity)
    (hcopied : ∀ j < chain.length, copied (i + j) = true) :
    ∃ m, copyBlocks copied i chain message_p = .all m := by
  induction chain generalizing message_p i with
  | nil => exact ⟨message_p, rfl⟩
  | cons block cont ih =>
    rw [List.flatten_cons, List.length_append] at hroom
    have hspace : block.length ≤ message_p.space := by
      unfold MessageBlock.space
      omega
    obtain ⟨m₁, hcopy, hcapacity, hcontent⟩ := message_p.copy_eq_some block hspace
    have hfirst : copied i = true := hcopied 0 (Nat.succ_pos _)
    rw [copyBlocks, if_neg (Nat.not_lt.2 hspace), hfirst, hcopy]
    apply ih
    · rw [hcapacity, hcontent, List.length_append]
      omega
    · intro j hj
      have hnext := hcopied (j + 1) (Nat.succ_lt_succ hj)
      rwa [Nat.add_right_comm, Nat.add_assoc]

theorem of_copyBlocks_all {m : MessageBlock} (h : copyBlocks copied i chain message_p = .all m) :
    m.capacity = message_p.capacity ∧ m.content = message_p.content ++ chain.flatten ∧
      ∀ j < chain.length, copied (i + j) = true := by
  induction chain generalizing message_p i with
  | nil =>
    obtain rfl : message_p = m := Copied.all.inj h
    exact ⟨rfl, by simp, fun j hj => absurd hj (Nat.not_lt_zero j)⟩
  | cons block cont ih =>
    rw [copyBlocks] at h
    by_cases hspace : message_p.space < block.length
    · rw [if_pos hspace] at h
      cases h
    · rw [if_neg hspace] at h
      obtain ⟨m₁, hcopy, hcapacity₁, hcontent₁⟩ := message_p.copy_eq_some block (Nat.not_lt.1 hspace)
      rw [hcopy] at h
      cases hfirst : copied i with
      | false =>
        rw [hfirst] at h
        cases h
      | true =>
        rw [hfirst] at h
        obtain ⟨hcapacity, hcontent, hcopied⟩ := ih h
        refine ⟨hcapacity.trans hcapacity₁, ?_, fun j hj => ?_⟩
        · rw [hcontent, hcontent₁, List.flatten_cons, List.append_assoc]
        · cases j with
          | zero => exact hfirst
          | succ j =>
            have hnext := hcopied j (Nat.lt_of_succ_lt_succ hj)
            rwa [Nat.add_right_comm, Nat.add_assoc] at hnext

theorem copyBlocks_of_crunches {capacity : ℕ} (hallocated : o.allocated = some capacity)
    (h : Crunches o chain) : ∃ m, copyBlocks o.copied 0 chain (MessageBlock.allocate capacity) = .all m := by
  obtain ⟨capacity', hsome, hfits, hcopied⟩ := h
  obtain rfl : capacity = capacity' := Option.some.inj (hallocated.symm.trans hsome)
  apply copyBlocks_all
  · simp only [MessageBlock.allocate, List.length_nil]
    omega
  · intro j hj
    rw [Nat.zero_add]
    exact hcopied j hj

theorem not_survives_assertion : ¬ Survives .assertion := fun ⟨_, h, _⟩ => Exit.noConfusion h

theorem not_survives_null : ¬ Survives .null := fun ⟨_, h, _⟩ => Exit.noConfusion h

theorem not_survives_returned (hs : m ∈ s.made) (h : s.disposals m ≠ 1) : ¬ Survives (.returned s) := by
  rintro ⟨s', hs', -, hdisposals⟩
  obtain rfl := Exit.returned.inj hs'
  exact h (hdisposals m hs)

/-- The chain has been released, and the copy is what is parsed. -/
def State.crunched (s : State) : State :=
  { s with
    message_inout := none
    message_p := some .copy
    passMessageDownstream_out := false
    made := s.made ++ [.copy]
    released := s.released ++ s.message_inout.toList }

theorem crunch_cases (o : Outcomes) (chain : List (List UInt8)) (s : State) :
    (Crunches o chain ∧ crunch o chain s = .ok s.crunched) ∨
      (¬ Crunches o chain ∧ ∃ exit, crunch o chain s = .error exit ∧ ¬ Survives exit) := by
  cases hallocated : o.allocated with
  | none =>
    refine Or.inr ⟨?_, .null, by simp [crunch, hallocated, State.error], not_survives_null⟩
    rintro ⟨capacity, hsome, -⟩
    exact absurd (hallocated.symm.trans hsome) (by simp)
  | some capacity =>
    have hcopied : Crunches o chain → _ := copyBlocks_of_crunches hallocated
    cases hcopy : copyBlocks o.copied 0 chain (MessageBlock.allocate capacity) with
    | assertion =>
      refine Or.inr ⟨fun h => ?_, .assertion, by simp [crunch, hallocated, hcopy], not_survives_assertion⟩
      obtain ⟨m, hm⟩ := hcopied h
      exact absurd (hcopy.symm.trans hm) (by simp)
    | failed =>
      refine Or.inr ⟨fun h => ?_, _, by simp only [crunch, hallocated, hcopy]; rfl, ?_⟩
      · obtain ⟨m, hm⟩ := hcopied h
        exact absurd (hcopy.symm.trans hm) (by simp)
      · -- the copy is released in the loop, and again at the label
        apply not_survives_returned (m := .copy)
        · exact List.mem_append_right _ (List.mem_singleton_self _)
        · simp only [State.disposals, count_concat, if_true]
          omega
    | all m =>
      obtain ⟨hcapacity, hcontent, hall⟩ := of_copyBlocks_all hcopy
      have hlength : m.length = chain.flatten.length := by
        rw [MessageBlock.length, hcontent]
        rfl
      have hcapacity' : m.capacity = capacity := hcapacity
      have hfits : m.length ≤ m.capacity := m.fits
      by_cases hboundary : m.capacity - m.length < flexBufferBoundarySize
      · refine Or.inr ⟨?_, .assertion, by simp [crunch, hallocated, hcopy, hboundary], not_survives_assertion⟩
        rintro ⟨capacity', hsome, hroom, -⟩
        obtain rfl : capacity = capacity' := Option.some.inj (hallocated.symm.trans hsome)
        omega
      · refine Or.inl ⟨⟨capacity, hallocated, by omega, fun j hj => ?_⟩, ?_⟩
        · rw [← Nat.zero_add j]
          exact hall j hj
        · simp [crunch, hallocated, hcopy, hboundary, State.crunched]

theorem survives_uncrunched : Survives (handleDataMessage false passMessageDownstream_out o chain) := by
  obtain ⟨s', hs', hmade, hdisposals⟩ :=
    disposes_parse (s := { passMessageDownstream_out := passMessageDownstream_out }) (m := .received) (o := o)
      rfl fun _ => rfl
  refine ⟨s', hs', ?_, fun m hm => ?_⟩
  · rw [hmade]
    exact List.mem_singleton_self _
  · rw [hmade] at hm
    obtain rfl := List.mem_singleton.1 hm
    exact hdisposals .received

theorem survives_crunched : Survives (parse o (State.crunched { passMessageDownstream_out := passMessageDownstream_out })) := by
  obtain ⟨s', hs', hmade, hdisposals⟩ :=
    disposes_parse (s := State.crunched { passMessageDownstream_out := passMessageDownstream_out }) (m := .copy)
      (o := o) rfl fun h => Bool.noConfusion h
  refine ⟨s', hs', ?_, fun m _ => ?_⟩
  · rw [hmade]
    exact List.mem_cons_self
  · rw [hdisposals]
    cases m <;> rfl

/-- For every chain and every outcome of the calls, the module survives just if it copies no message, or
the copy is made. -/
theorem survives_iff (crunchMessages_ passMessageDownstream_out : Bool) (o : Outcomes)
    (chain : List (List UInt8)) :
    Survives (handleDataMessage crunchMessages_ passMessageDownstream_out o chain) ↔
      (crunchMessages_ = true → Crunches o chain) := by
  cases crunchMessages_ with
  | false => exact iff_of_true survives_uncrunched fun h => Bool.noConfusion h
  | true =>
    rw [handleDataMessage, if_pos rfl]
    rcases crunch_cases o chain { passMessageDownstream_out := passMessageDownstream_out } with
      ⟨hcrunches, hok⟩ | ⟨hcrunches, exit, herror, hexit⟩
    · rw [hok]
      exact iff_of_true survives_crunched fun _ => hcrunches
    · rw [herror]
      exact iff_of_false hexit fun h => hcrunches (h rfl)

/-- The bisector puts a line of any length to the next module, in one chain. -/
theorem pushed_line {w : List UInt8} (hw : Bisector.Clean w) (hlength : w.length + 2 < 2 ^ 31) :
    ∃ chain, Pushed chain ∧ chain.flatten = w ++ frameBoundary := by
  have hne : w ++ frameBoundary ≠ [] := by simp [frameBoundary]
  have hfits : (w ++ frameBoundary).length < 2 ^ 31 := by simpa [frameBoundary] using hlength
  obtain ⟨f, hf⟩ : ∃ f : Bisector.Fragment, f.bytes = w ++ frameBoundary := ⟨⟨_, hne, hfits⟩, rfl⟩
  have hframing : (Bisector.framing [f]).frames = [⟨false, w ++ frameBoundary⟩] := by
    have hlong : ¬ (([] : List UInt8) ++ f.bytes).length < 2 := by simp [hf, frameBoundary]
    change (Bisector.Framing.fragment {} f).frames = _
    rw [Bisector.Framing.fragment, if_neg hlong, hf, List.foldl_append, Bisector.Framing.foldl_clean rfl hw]
    simp [frameBoundary, Bisector.Framing.byte]
  obtain ⟨m, hm, hagrees⟩ := Bisector.exec_agrees [f] fun y hy => by
    obtain rfl : y = ⟨false, w ++ frameBoundary⟩ := by simpa [hframing] using hy
    exact ⟨rfl, hfits.trans (by norm_num), w, hw, rfl⟩
  have hpushed := hagrees.pushed
  rw [hframing] at hpushed
  obtain ⟨chain, hchain⟩ : ∃ chain, m.pushed = [chain] := List.length_eq_one_iff.1 (by
    simpa using congrArg List.length hpushed)
  refine ⟨chain, ⟨[f], m, hm, by simp [hchain]⟩, ?_⟩
  simpa [hchain] using hpushed

/-- A line of 600 octets, which does not fit a message that is allocated for 512 of them. -/
theorem not_survives_long : ∃ chain, Pushed chain ∧
    chain.flatten = List.replicate 600 97 ++ frameBoundary ∧
    ¬ Survives (handleDataMessage true true {} chain) := by
  have hclean : Bisector.Clean (List.replicate 600 97) := by
    intro a ha
    obtain rfl := List.eq_of_mem_replicate ha
    rfl
  obtain ⟨chain, hpushed, hchain⟩ := pushed_line hclean (by rw [List.length_replicate]; norm_num)
  refine ⟨chain, hpushed, hchain, ?_⟩
  rw [handleDataMessage, if_pos rfl]
  rcases crunch_cases {} chain { passMessageDownstream_out := true } with
    ⟨⟨capacity, hcapacity, hfits, -⟩, -⟩ | ⟨-, exit, herror, hexit⟩
  · obtain rfl : 512 = capacity := Option.some.inj hcapacity
    rw [hchain, List.length_append, List.length_replicate] at hfits
    omega
  · rw [herror]
    exact hexit

end ACENetwork.Irc.ModuleExits
