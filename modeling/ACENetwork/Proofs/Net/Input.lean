import Mathlib
import ACENetwork.Library.Transition
import ACENetwork.Spec.Net.Input

/-! Every exit of the receive handlers but two gives away the buffer that it has, once. -/

namespace ACENetwork.Net

open Transition

namespace Input

variable {s s' : Input} {b : ℕ} {r : Received} {put_ memory read : Bool}

/-- The handler has `b`, and all other buffers are owned. -/
def Holding (s : Input) (b : ℕ) : Prop := (b :: s.buffers).Perm (List.range s.allocated)

theorem Owned.not_holding (h : s.Owned) : ¬ s.Holding b := by
  intro hb
  have hlength := hb.length_eq
  rw [List.length_cons, h.length_eq] at hlength
  omega

theorem perm_release (s : Input) (b : ℕ) : (s.release b).buffers.Perm (b :: s.buffers) := by
  rw [release, buffers, ← List.append_assoc]
  exact List.perm_append_singleton b _

theorem perm_put (s : Input) (b : ℕ) : (s.put b).buffers.Perm (b :: s.buffers) := by
  rw [put, buffers, buffers, ← List.append_assoc, List.append_assoc _ [b]]
  exact List.perm_middle

theorem Holding.release (h : s.Holding b) : (s.release b).Owned := (perm_release s b).trans h

theorem Holding.put (h : s.Holding b) : (s.put b).Owned := (perm_put s b).trans h

theorem Holding.peerClosed (h : s.Holding b) : s.peerClosed.Holding b := h

/-- A buffer that has changed hands already. -/
theorem Owned.not_release (h : s.Owned) : ¬ (s.release b).Owned := by
  intro hb
  have hlength := hb.length_eq.symm.trans (perm_release s b).length_eq
  rw [List.length_cons, h.length_eq] at hlength
  simp [Input.release] at hlength

theorem Owned.allocate (h : s.Owned) :
    ({ s with allocated := s.allocated + 1 } : Input).Holding s.allocated := by
  rw [Holding, List.range_succ]
  exact (List.Perm.cons _ h).trans (List.perm_append_singleton _ _).symm

/-- The buffer of a completion. -/
theorem Owned.deliver (h : s.Owned) {k : ℕ} (hk : s.reading[k]? = some b) :
    ({ s with reading := s.reading.eraseIdx k } : Input).Holding b := by
  obtain ⟨hlt, hget⟩ := List.getElem?_eq_some_iff.1 hk
  have hperm : (b :: s.reading.eraseIdx k).Perm s.reading := hget ▸ List.getElem_cons_eraseIdx_perm hlt
  refine List.Perm.trans ?_ h
  exact (hperm.append_right s.taken).append_right s.released

theorem handleClose_owned : s.handleClose.Owned ↔ s.Owned := by
  unfold handleClose
  split_ifs <;> rfl

theorem Owned.initiateRead (h : s.Owned) (memory read : Bool) : (s.initiateRead memory read).2.Owned := by
  cases memory with
  | false => exact h
  | true =>
    cases read with
    | false => exact h.allocate.release
    | true =>
      show (s.reading ++ [s.allocated] ++ s.taken ++ s.released).Perm _
      refine List.Perm.trans ?_ h.allocate
      rw [List.append_assoc, List.append_assoc]
      exact List.perm_middle.trans (List.Perm.of_eq (by rw [buffers, List.append_assoc]; rfl))

theorem initiateRead_fst (s : Input) (memory read : Bool) :
    (s.initiateRead memory read).1 = (memory && read) := by
  cases memory <;> cases read <;> rfl

theorem inputTCP_owned_iff (h : s.Owned) :
    (s.handleInputTCP memory r put_).2.Owned ↔ (memory = true → r ≠ .failed errorWouldBlock) := by
  cases memory with
  | false => simpa [handleInputTCP, allocateMessage] using h
  | true =>
    have hb := h.allocate
    cases r with
    | data n =>
      cases put_ with
      | true => simpa [handleInputTCP, allocateMessage] using hb.put
      | false => simpa [handleInputTCP, allocateMessage] using hb.release
    | closed => simpa [handleInputTCP, allocateMessage] using hb.peerClosed.release
    | failed errno =>
      by_cases herrno : errno = errorWouldBlock
      · have hlost : ¬ ({ s with allocated := s.allocated + 1 } : Input).Owned := fun ho => ho.not_holding hb
        simpa [handleInputTCP, allocateMessage, herrno] using hlost
      · simpa [handleInputTCP, allocateMessage, herrno] using hb.peerClosed.release

theorem inputUDP_owned (h : s.Owned) (memory : Bool) (r : Received) (put_ : Bool) :
    (s.handleInputUDP memory r put_).2.Owned := by
  cases memory with
  | false => exact h
  | true =>
    have hb := h.allocate
    cases r with
    | data n =>
      cases put_ with
      | true => exact hb.put
      | false => exact hb.release
    | closed => exact hb.release
    | failed errno => exact hb.release

theorem readStream_owned (h : s.Holding b) (r : Received) (put_ memory read : Bool) :
    (s.handleReadStream b r put_ memory read).Owned := by
  cases r with
  | closed => exact handleClose_owned.2 h.release
  | failed errno => exact handleClose_owned.2 h.release
  | data n =>
    cases put_ with
    | false => exact handleClose_owned.2 h.release
    | true =>
      have hread := h.put.initiateRead memory read
      simp only [handleReadStream, if_true]
      split_ifs
      · exact handleClose_owned.2 h.put
      · split
        next s₁ heq => simpa [heq] using hread
        next s₁ heq =>
          rw [handleClose_owned]
          simpa [heq] using hread

theorem readDgram_owned_iff (h : s.Holding b) :
    (s.handleReadDgram b r put_ memory read).Owned ↔
      ∀ n, r = .data n → put_ = true → memory = true ∧ read = true := by
  cases r with
  | closed => simpa [handleReadDgram] using handleClose_owned.2 h.release
  | failed errno => simpa [handleReadDgram] using handleClose_owned.2 h.release
  | data n =>
    cases put_ with
    | false => simpa [handleReadDgram] using handleClose_owned.2 h.release
    | true =>
      have hread := h.put.initiateRead memory read
      have hfst := initiateRead_fst (s.put b) memory read
      cases hres : (s.put b).initiateRead memory read with
      | mk ok s₁ =>
        rw [hres] at hread hfst
        simp only [handleReadDgram, if_true, hres]
        cases ok with
        | true =>
          have hboth : memory = true ∧ read = true := by simpa using hfst.symm
          simpa [hboth] using hread
        | false =>
          have hnot : ¬ (memory = true ∧ read = true) := by
            intro hboth
            simp [hboth] at hfst
          refine ⟨fun ho => absurd (handleClose_owned.1 ho) hread.not_release, fun hall => ?_⟩
          exact absurd (hall n rfl trivial) hnot

theorem step_owned_iff {e : Event} (h : s.Owned) (hs : step s e = some s') :
    s'.Owned ↔ ChangesHands s e s' := by
  cases e with
  | inputTCP memory r put_ =>
    obtain rfl := Option.some.inj hs
    exact inputTCP_owned_iff h
  | inputUDP memory r put_ =>
    obtain rfl := Option.some.inj hs
    exact iff_of_true (inputUDP_owned h memory r put_) trivial
  | start memory read =>
    obtain rfl := Option.some.inj hs
    exact iff_of_true (h.initiateRead memory read) trivial
  | readStream k r put_ memory read =>
    simp only [step] at hs
    cases hk : s.reading[k]? with
    | none => simp [hk] at hs
    | some b =>
      simp only [hk, Option.some.injEq] at hs
      subst hs
      exact iff_of_true (readStream_owned (h.deliver hk) r put_ memory read) trivial
  | readDgram k r put_ memory read =>
    simp only [step] at hs
    cases hk : s.reading[k]? with
    | none => simp [hk] at hs
    | some b =>
      simp only [hk, Option.some.injEq] at hs
      subst hs
      rw [readDgram_owned_iff (h.deliver hk)]
      cases r with
      | data n => exact ⟨fun hall => hall n rfl, fun hput m hm => hput⟩
      | closed => exact iff_of_true (fun n hn => by cases hn) trivial
      | failed errno => exact iff_of_true (fun n hn => by cases hn) trivial
  | close =>
    obtain rfl := Option.some.inj hs
    exact iff_of_true h trivial

theorem owned_start (status : Status) : ({ status := status } : Input).Owned := List.Perm.refl []

theorem owned_iff_changesHands (status : Status) (es : List Event) :
    Always step (fun _ _ s' => s'.Owned) { status := status } es ↔
      Always step ChangesHands { status := status } es := by
  have hiff : ∀ (s : Input) e s', s.Owned → step s e = some s' → (s'.Owned ↔ ChangesHands s e s') :=
    fun s e s' h hs => step_owned_iff h hs
  refine always_iff_of_step hiff ?_ es (owned_start status)
  intro s e s' h hs hchanges
  exact (hiff s e s' h hs).2 hchanges

/-- A spurious wake-up loses the buffer, and a datagram that is not followed by another read is
released although the stream has it. -/
theorem not_owned_one :
    ¬ Always step (fun _ _ s' => s'.Owned) {} [.inputTCP true (.failed 11) true] ∧
      ¬ Always step (fun _ _ s' => s'.Owned) {}
        [.start true true, .readDgram 0 (.data 4) true true false] := by
  constructor
  · intro h
    have hperm : ([] : List ℕ).Perm [0] := (h _ rfl).1
    simp at hperm
  · intro h
    have hperm : ([0, 1, 0] : List ℕ).Perm [0, 1] := ((h _ rfl).2 _ rfl).1
    exact absurd hperm.length_eq (by decide)

end Input

end ACENetwork.Net
