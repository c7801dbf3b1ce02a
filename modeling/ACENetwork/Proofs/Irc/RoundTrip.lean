import Mathlib
import ACENetwork.Proofs.Irc.Grammar

/-! Writing a message and parsing it again. The streamer marks a last parameter that contains
a SPACE, and no other one: an empty last parameter is lost, and one that starts with a colon
loses it. -/

namespace ACENetwork.Irc

open MessageBlock (Writes writes_pure)

namespace Streamer

theorem writes_copy (bytes : List UInt8) : Writes 0 (copy · bytes) bytes :=
  MessageBlock.writes_copy fun m m' h => by rw [copy, h]

theorem writes_optional (mark : UInt8) (part : List UInt8) :
    Writes 0 (copyOptional mark part) (optional mark part) := by
  unfold copyOptional optional
  by_cases hp : part = []
  · simp only [if_pos hp]
    exact writes_pure fun m => rfl
  · simp only [if_neg hp]
    exact (writes_copy [mark]).bind (writes_copy part) (by simp)

theorem writes_prefixFrame (p : Prefix) : Writes 0 (copyPrefix p) (prefixFrame p) := by
  unfold copyPrefix prefixFrame
  by_cases hp : p.origin = []
  · simp only [if_pos hp]
    exact writes_pure fun m => rfl
  · simp only [if_neg hp]
    exact (writes_copy [colon]).bind ((writes_copy p.origin).bind ((writes_optional bang p.user).bind
      ((writes_optional commercialAt p.host).bind (writes_copy [space]) (by simp)) (by simp))
      (by simp)) (by simp)

theorem writes_command {command : Command} (h : command.Valid) :
    Writes 1 (copyCommand command) (commandFrame command) := by
  intro m hroom
  cases command with
  | numeric k =>
    have hlen := length_decimal h
    have hspace : ¬ m.space < 4 := by
      simp only [commandFrame, hlen, MessageBlock.space] at hroom ⊢
      omega
    simp only [copyCommand, if_neg hspace, hlen, ne_eq, not_true_eq_false, if_false]
    exact writes_copy _ m (by simp only [commandFrame] at hroom ⊢; omega)
  | string w => exact writes_copy w m (by simp only [commandFrame] at hroom ⊢; omega)
  | invalid => exact h.elim

theorem writes_parameters (ps : List (List UInt8)) (forward : ℕ) :
    Writes 0 (copyParameters [] forward ps) (parametersFrame ps) := by
  induction ps generalizing forward with
  | nil => exact writes_pure fun m => rfl
  | cons p ps ih =>
    cases ps with
    | nil =>
      unfold parametersFrame lastFrame
      by_cases hs : space ∈ p
      · rw [if_pos hs]
        simpa [copyParameters, hs, advance, separator] using
          (writes_copy [colon]).bind (writes_copy p) (by simp)
      · rw [if_neg hs]
        simpa [copyParameters, hs] using writes_copy p
    | cons q ps =>
      exact (writes_copy p).bind ((writes_copy [space]).bind (ih (forward + 1)) (by simp)) (by simp)

theorem writes_separated (ps : List (List UInt8)) :
    Writes 0 (fun m => copySeparator ps m >>= copyParameters [] 0 ps) (separated ps) := by
  by_cases hps : ps = []
  · subst hps
    exact writes_pure fun m => rfl
  · unfold copySeparator separated
    simp only [if_neg hps]
    exact (writes_copy [space]).bind (writes_parameters ps 0) (by simp)

theorem handleDataMessage_frame {r : Record} (h : r.Valid) {capacity : ℕ}
    (hcapacity : maximumFrameSize ≤ capacity) (hfits : (frame r).length ≤ capacity) :
    ∃ m, handleDataMessage r (MessageBlock.allocate capacity) = .ok m ∧ m.content = frame r := by
  have hwrites := (writes_prefixFrame r.prefix_).bind ((writes_command h.command).bind
    ((writes_separated r.parameters).bind (writes_copy frameBoundary) (by simp))
    (by simp [frameBoundary])) (by simp)
  obtain ⟨m, hm, -, hcontent⟩ := hwrites (MessageBlock.allocate capacity)
    (by simpa [MessageBlock.allocate, frame] using hfits)
  refine ⟨m, ?_, by simpa [MessageBlock.allocate, frame] using hcontent⟩
  have hspace : ¬ capacity < maximumFrameSize := by omega
  rw [← hm, handleDataMessage, h.ranges]
  simp [MessageBlock.allocate, MessageBlock.length, MessageBlock.space, hspace]

end Streamer

theorem receivedLast_eq (p : List UInt8) :
    receivedLast p = [p] ↔ space ∈ p ∨ (p ≠ [] ∧ p.head? ≠ some colon) := by
  unfold receivedLast
  by_cases hs : space ∈ p
  · simp [hs]
  · cases p with
    | nil => simp
    | cons a q =>
      by_cases ha : a = colon
      · subst ha
        by_cases hq : q = [] <;> simp [hs, hq]
      · simp [hs, ha]

theorem received_eq (ps : List (List UInt8)) :
    received ps = ps ↔ ∀ p ∈ ps.getLast?, space ∈ p ∨ (p ≠ [] ∧ p.head? ≠ some colon) := by
  induction ps with
  | nil => simp [received]
  | cons p ps ih =>
    cases ps with
    | nil => simpa [received] using receivedLast_eq p
    | cons q ps =>
      rw [received, List.getLast?_cons_cons, ← ih]
      simp

theorem roundTrips_iff_received {r : Record} (h : r.Valid) {capacity : ℕ}
    (hcapacity : maximumFrameSize ≤ capacity) (hfits : (frame r).length ≤ capacity) :
    RoundTrips capacity r ↔ received r.parameters = r.parameters := by
  obtain ⟨m, hm, hcontent⟩ := Streamer.handleDataMessage_frame h hcapacity hfits
  refine ⟨fun hround => ?_, fun hlast => ?_⟩
  · obtain ⟨m', hm', r', hparse, -, -, hps⟩ := hround
    rw [hm] at hm'
    obtain rfl := Except.ok.inj hm'
    rw [hcontent, parses_frame h] at hparse
    obtain ⟨-, rfl⟩ := Parsed.returned.inj hparse
    exact hps
  · refine ⟨m, hm, ⟨r.prefix_, r.command, received r.parameters, []⟩, ?_, rfl, rfl, hlast⟩
    rw [hcontent, parses_frame h]

/-- A valid message whose frame fits into the buffer is parsed back from it exactly when its last
parameter, if there is one, contains a SPACE, or is neither empty nor starts with a colon. -/
theorem roundTrips_iff_marked {r : Record} (h : r.Valid) {capacity : ℕ}
    (hcapacity : maximumFrameSize ≤ capacity) (hfits : (frame r).length ≤ capacity) :
    RoundTrips capacity r ↔ Marked r :=
  (roundTrips_iff_received h hcapacity hfits).trans (received_eq r.parameters)

/-- `:nick!user@host PRIVMSG #a :hi :` -/
def privmsg : Record :=
  { prefix_ := ⟨[110, 105, 99, 107], [117, 115, 101, 114], [104, 111, 115, 116]⟩
    command := .string [80, 82, 73, 86, 77, 83, 71]
    parameters := [[35, 97], [104, 105, 32, 58]] }

theorem roundTrips_privmsg : RoundTrips 512 privmsg := by
  have hvalid : privmsg.Valid :=
    { prefix_ := Or.inr ⟨Or.inr (mem_host.2 ⟨by decide, List.all_eq_true.1 (by decide)⟩),
        Or.inr (mem_user.2 ⟨by decide, List.all_eq_true.1 (by decide)⟩),
        Or.inr (mem_host.2 ⟨by decide, List.all_eq_true.1 (by decide)⟩)⟩
      command := ⟨by decide, List.all_eq_true.1 (by decide)⟩
      ranges := rfl
      parameters := ⟨⟨by decide, List.all_eq_true.1 (by decide), by decide⟩,
        List.all_eq_true.1 (by decide)⟩ }
  exact (roundTrips_iff_marked hvalid (by decide) (by decide)).2 (by decide)

/-- A notice with an empty text, which is lost. -/
theorem emptyText_not_roundTrips :
    ¬ ∀ (r : Record) (capacity : ℕ), r.Valid → maximumFrameSize ≤ capacity →
      (frame r).length ≤ capacity → RoundTrips capacity r := by
  intro h
  have hvalid : Record.Valid { command := .string [78, 79, 84, 73, 67, 69], parameters := [[97], []] } :=
    { prefix_ := Or.inl rfl
      command := ⟨by decide, List.all_eq_true.1 (by decide)⟩
      ranges := rfl
      parameters := ⟨⟨by decide, List.all_eq_true.1 (by decide), by decide⟩,
        List.all_eq_true.1 (by decide)⟩ }
  have hround := (roundTrips_iff_received hvalid (by decide) (by decide)).1
    (h _ maximumFrameSize hvalid le_rfl (by decide))
  exact absurd hround (by decide)

end ACENetwork.Irc
