import Mathlib
import ACENetwork.Spec.Irc.Client
import ACENetwork.Proofs.Irc.Transport
import ACENetwork.Proofs.Irc.Session

/-! From the octets of a server to what the session knows of itself. -/

namespace ACENetwork.Irc.Client

open Bisector ModuleParser Transport Session

variable {b : Build} {nickname : List UInt8} {capacity : ℕ} {rs : List Record}
  {texts : List (List UInt8)} {fs : List Fragment}

/-- A session reads messages that it may understand from any state on. -/
theorem exec_understood {s : Session} (hu : s.uiState = false)
    (h : Transition.Always (fun o r => some (Own.receive o r)) (fun o r _ => Understood b o r) s.own rs) :
    ∃ s', Transition.exec (step b) s rs = some s' ∧ s'.own = rs.foldl Own.receive s.own := by
  induction rs generalizing s with
  | nil => exact ⟨s, rfl, rfl⟩
  | cons r rs ih =>
    obtain ⟨hr, hrest⟩ := Transition.always_total_cons.1 h
    obtain ⟨s₁, hs₁, hown, hu₁⟩ := step_understood hu hr
    obtain ⟨s', hs', hafter⟩ := ih hu₁ (hown ▸ hrest)
    exact ⟨s', Transition.exec_cons_eq_some.2 ⟨s₁, hs₁, hs'⟩, by rw [hafter, hown, List.foldl_cons]⟩

/-- However the messages of a server are cut into fragments: if it may understand them, the session
has read after every fragment exactly those that came completely, and knows what they mean. -/
theorem client_follows (hvalid : ∀ r ∈ rs, r.Valid)
    (hcapacity : maximumFrameSize ≤ capacity ∧ capacity < 2 ^ 32)
    (hfits : ∀ r ∈ rs, (frame r).length + flexBufferBoundarySize ≤ capacity)
    (hwritten : written capacity rs = .ok texts) (hfs : bytes fs = texts.flatten)
    (halone : NoneAlone texts fs) (hread : Readable .initial rs) (hmarked : ∀ r ∈ rs, Marked r)
    (h : AllUnderstood b nickname rs) : Follows b nickname capacity rs texts fs := by
  have htransports := transports_of_readable hvalid hcapacity hfits hwritten hfs halone hread hmarked
  intro gs hgs
  obtain ⟨k, rest, hbytes, hrest, hreceives⟩ := htransports gs hgs
  obtain ⟨s, hs, hown⟩ := exec_understood (s := start nickname) rfl (Transition.always_take h k)
  refine ⟨k, rest, hbytes, hrest, ⟨s, rs.take k, (hreceives _).2 rfl, hs⟩, fun s' hs' => ?_⟩
  obtain ⟨records, hrecords, hexec⟩ := hs'
  obtain rfl := (hreceives _).1 hrecords
  obtain rfl := Option.some.inj (hs.symm.trans hexec)
  exact hown

/-- `:a JOIN #c`, and then `MODE #c +nt`. -/
def joining : List Record :=
  [⟨⟨[97], [], []⟩, .string [74, 79, 73, 78], [[35, 99]], []⟩,
    ⟨{}, .string [77, 79, 68, 69], [[35, 99], [43, 110, 116]], []⟩]

theorem joining_valid : ∀ r ∈ joining, r.Valid := by
  have hjoin : Record.Valid ⟨⟨[97], [], []⟩, .string [74, 79, 73, 78], [[35, 99]], []⟩ :=
    { prefix_ := Or.inr ⟨Or.inr (mem_host.2 ⟨by decide, List.all_eq_true.1 (by decide)⟩),
        Or.inl rfl, Or.inl rfl⟩
      command := ⟨by decide, List.all_eq_true.1 (by decide)⟩
      ranges := rfl
      parameters := List.all_eq_true.1 (by decide) }
  have hmode : Record.Valid ⟨{}, .string [77, 79, 68, 69], [[35, 99], [43, 110, 116]], []⟩ :=
    { prefix_ := Or.inl rfl
      command := ⟨by decide, List.all_eq_true.1 (by decide)⟩
      ranges := rfl
      parameters := ⟨⟨by decide, List.all_eq_true.1 (by decide), by decide⟩,
        List.all_eq_true.1 (by decide)⟩ }
  rw [joining]
  simp only [List.mem_cons, List.not_mem_nil, or_false]
  rintro r (rfl | rfl)
  · exact hjoin
  · exact hmode

theorem follows_joining : Follows ⟨true, false⟩ [97] 514 joining
    [[58, 97, 32, 74, 79, 73, 78, 32, 35, 99, 13, 10],
      [77, 79, 68, 69, 32, 35, 99, 32, 43, 110, 116, 13, 10]]
    [ofBytes [58, 97, 32, 74, 79] (by decide), ofBytes [73, 78, 32, 35, 99, 13, 10, 77] (by decide),
      ofBytes [79, 68, 69, 32, 35, 99, 32, 43, 110, 116, 13, 10] (by decide)] := by
  refine client_follows joining_valid ⟨by decide, by decide⟩ (by decide) rfl rfl ?_ (by decide) (by decide) ?_
  · intro i hi gs f hs hfs hgs
    have hf : f ∈ gs ++ f :: hs := by simp
    rw [← hfs] at hf
    fin_cases hf <;> decide
  · unfold joining AllUnderstood
    refine Transition.always_total_cons.2 ⟨⟨by decide +kernel, fun _ => Or.inl rfl⟩, ?_⟩
    exact Transition.always_total_cons.2
      ⟨⟨by decide +kernel, by decide +kernel, by decide +kernel, by decide +kernel⟩, trivial⟩

end ACENetwork.Irc.Client
