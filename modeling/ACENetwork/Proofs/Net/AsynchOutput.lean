import Mathlib
import ACENetwork.Library.Transition
import ACENetwork.Spec.Net.AsynchOutput

/-! The output of the asynchronous connections is accounted for as long as no write is partial and
nothing is sent behind a write that failed. -/

namespace ACENetwork.Net

open Transition

namespace AsynchOutput

variable {s s' : AsynchOutput} {base : ℤ}

/-- The connection as an outlet. A write that is made has its place in the stream already. -/
def outlet (s : AsynchOutput) : Outlet.State UInt8 where
  messages := s.messages
  sent := s.sent
  waiting := (s.accepted ++ s.queue).map NumberedBlock.data
  gap := s.broken

structure Balanced (base : ℤ) (s : AsynchOutput) : Prop where
  outlet : s.outlet.InOrder
  once : (s.released ++ (s.inFlight ++ s.queue).map NumberedBlock.id).Perm (List.range s.messages.length)
  counter : s.counter = s.inFlight.length
  references : s.references = base + s.inFlight.length
  whole : ∀ p ∈ s.made, p.2 ≠ 0 → p.1.data = []

theorem balanced_start : ({ references := base } : AsynchOutput).Balanced base :=
  ⟨Outlet.inOrder_empty, by simp [inFlight], rfl, by simp [inFlight], by simp⟩

theorem Balanced.accounted (h : s.Balanced base) : s.Accounted base where
  sent := h.outlet.sent
  once := h.once
  counter := h.counter
  references := h.references
  idle hcounter := by
    have hlength : s.inFlight = [] := by
      apply List.length_eq_zero_iff.1
      exact_mod_cast h.counter.symm.trans hcounter
    refine ⟨hlength, fun hbroken => ?_⟩
    have haccepted : s.accepted = [] := (List.append_eq_nil_iff.1 hlength).2
    have hwaiting := h.outlet.waiting hbroken
    simpa [AsynchOutput.outlet, haccepted] using hwaiting

theorem Balanced.put (h : s.Balanced base) (message : List UInt8)
    (hs : step s (.put message) = some s') : s'.Balanced base := by
  obtain rfl := Option.some.inj hs
  refine ⟨?_, ?_, h.counter, h.references, h.whole⟩
  · have hput := h.outlet.put message
    simpa [AsynchOutput.outlet, Outlet.State.put] using hput
  · have happend := h.once.append_right [s.messages.length]
    simpa [inFlight, List.range_succ] using happend

theorem handleOutput_cases {g : Get} {results : ℕ → WriteResult} {result : ℤ}
    (h : s.handleOutput g results = some (result, s')) :
    s' = s ∨ ∃ b queue, s.queue = b :: queue ∧
      ((result = 0 ∧ s' = { s with
          queue := queue
          references := s.references + 1
          counter := s.counter + 1
          accepted := s.accepted ++ [b] }) ∨
        (result = -1 ∧ s' = { s with
          queue := queue
          released := s.released ++ [b.id]
          broken := true })) := by
  cases g with
  | failed => exact Or.inl (Prod.mk.inj (Option.some.inj h)).2.symm
  | block =>
    cases hqueue : s.queue with
    | nil => simp [handleOutput, hqueue] at h
    | cons b queue =>
      refine Or.inr ⟨b, queue, rfl, ?_⟩
      simp only [handleOutput, hqueue] at h
      by_cases hsend : send results 0 defaultSendRetries = true
      · rw [if_pos hsend] at h
        obtain ⟨rfl, rfl⟩ := Prod.mk.inj (Option.some.inj h)
        exact Or.inl ⟨rfl, rfl⟩
      · rw [if_neg hsend] at h
        obtain ⟨rfl, rfl⟩ := Prod.mk.inj (Option.some.inj h)
        refine Or.inr ⟨rfl, ?_⟩
        simp [increase, decrease, release]

theorem Balanced.handleOutput (h : s.Balanced base) {g : Get} {results : ℕ → WriteResult}
    (hs : step s (.handleOutput g results) = some s') : s'.Balanced base := by
  obtain ⟨⟨result, s₁⟩, hhandle, rfl⟩ := Option.map_eq_some_iff.1 hs
  have honce := h.once
  have houtlet := h.outlet
  obtain rfl | ⟨b, queue, hqueue, ⟨-, rfl⟩ | ⟨-, rfl⟩⟩ := handleOutput_cases hhandle
  · exact h
  · have hcounter := h.counter
    have hreferences := h.references
    refine ⟨?_, ?_, ?_, ?_, h.whole⟩
    · simpa [AsynchOutput.outlet, hqueue] using houtlet
    · simpa [inFlight, hqueue] using honce
    · simp [inFlight] at hcounter ⊢
      omega
    · simp [inFlight] at hreferences ⊢
      omega
  · refine ⟨houtlet.lose _, ?_, h.counter, h.references, h.whole⟩
    rw [hqueue] at honce
    refine List.Perm.trans ?_ honce
    simp only [inFlight, List.map_append, List.map_cons, List.append_assoc]
    apply List.Perm.append_left
    rw [List.singleton_append, ← List.append_assoc, ← List.append_assoc]
    exact List.perm_middle.symm

theorem Balanced.write (h : s.Balanced base) {n : ℕ} (hwhole : WritesWhole s (.write n) s')
    (hs : step s (.write n) = some s') : s'.Balanced base := by
  simp only [step] at hs
  cases haccepted : s.accepted with
  | nil => simp [haccepted] at hs
  | cons b accepted =>
    simp only [haccepted] at hs
    split at hs
    case isFalse => cases hs
    case isTrue hle =>
    obtain rfl := Option.some.inj hs
    have honce := h.once
    have hcounter := h.counter
    have hreferences := h.references
    have houtlet := h.outlet
    refine ⟨?_, ?_, ?_, ?_, ?_⟩
    · by_cases hn : n = 0
      · subst hn
        have hlose := houtlet.lose ((accepted ++ s.queue).map NumberedBlock.data)
        simpa [AsynchOutput.outlet] using hlose
      · obtain ⟨hbroken, b', hb', rfl⟩ := hwhole hn
        rw [haccepted, List.head?_cons, Option.mem_some_iff] at hb'
        obtain rfl := hb'
        have hlength : (b.data.length == 0) = false := beq_false_of_ne hn
        have hsend := houtlet.send hbroken b.data.length
        simpa [AsynchOutput.outlet, Outlet.State.send, haccepted, hbroken, hlength] using hsend
    · simpa [inFlight, haccepted, NumberedBlock.advance] using honce
    · simp [inFlight, haccepted] at hcounter ⊢
      omega
    · simp [inFlight, haccepted] at hreferences ⊢
      omega
    · intro p hp hpn
      rcases List.mem_append.1 hp with hp | hp
      · exact h.whole p hp hpn
      · obtain rfl := List.mem_singleton.1 hp
        obtain ⟨-, b', hb', rfl⟩ := hwhole hpn
        rw [haccepted, List.head?_cons, Option.mem_some_iff] at hb'
        obtain rfl := hb'
        simp [NumberedBlock.advance]

theorem handleWriteStream_eq {b : NumberedBlock} {n : ℕ} (hwhole : n ≠ 0 → b.data = [])
    (rewrite : WriteResult) :
    s.handleWriteStream b n rewrite = { s with
      released := s.released ++ [b.id]
      counter := s.counter - 1
      references := s.references - 1
      broken := s.broken || n == 0 } := by
  by_cases hn : n = 0
  · simp [handleWriteStream, handleWriteStreamBase, release, decrease, hn]
  · have hlength : (n == 0) = false := beq_false_of_ne hn
    simp [handleWriteStream, handleWriteStreamBase, release, decrease, hn, hwhole hn, hlength]

theorem Balanced.complete (h : s.Balanced base) {k : ℕ} {rewrite : WriteResult}
    (hs : step s (.complete k rewrite) = some s') : s'.Balanced base := by
  simp only [step] at hs
  cases hmade : s.made[k]? with
  | none => simp [hmade] at hs
  | some p =>
    obtain ⟨b, n⟩ := p
    simp only [hmade, Option.some.injEq] at hs
    obtain ⟨hk, hget⟩ := List.getElem?_eq_some_iff.1 hmade
    have hmem : (b, n) ∈ s.made := hget ▸ List.getElem_mem hk
    have hperm : ((b, n) :: s.made.eraseIdx k).Perm s.made := hget ▸ List.getElem_cons_eraseIdx_perm hk
    rw [handleWriteStream_eq (h.whole _ hmem)] at hs
    have hinFlight : s'.inFlight = (s.made.eraseIdx k).map Prod.fst ++ s.accepted := by rw [← hs]; rfl
    have hbefore : (b :: s'.inFlight).Perm s.inFlight := by
      rw [hinFlight, ← List.cons_append]
      exact (hperm.map Prod.fst).append_right _
    have hlength := hbefore.length_eq
    rw [List.length_cons] at hlength
    have hcounter := h.counter
    have hreferences := h.references
    refine ⟨?_, ?_, ?_, ?_, ?_⟩
    · subst hs
      cases hn : n == 0 with
      | true =>
        have hlose := h.outlet.lose s.outlet.waiting
        simpa [AsynchOutput.outlet, hn] using hlose
      | false => simpa [AsynchOutput.outlet, hn] using h.outlet
    · have honce : (s.released ++ [b.id] ++ (s'.inFlight ++ s.queue).map NumberedBlock.id).Perm
          (s.released ++ (s.inFlight ++ s.queue).map NumberedBlock.id) := by
        rw [List.append_assoc]
        apply List.Perm.append_left
        exact (hbefore.append_right s.queue).map NumberedBlock.id
      subst hs
      exact honce.trans h.once
    · subst hs
      show s.counter - 1 = _
      omega
    · subst hs
      show s.references - 1 = _
      omega
    · subst hs
      intro q hq
      exact h.whole q (List.mem_of_mem_eraseIdx hq)

theorem Balanced.step {e : Event} (h : s.Balanced base) (hwhole : WritesWhole s e s')
    (hs : AsynchOutput.step s e = some s') : s'.Balanced base := by
  cases e with
  | put message => exact h.put message hs
  | handleOutput g results => exact h.handleOutput hs
  | write n => exact h.write hwhole hs
  | complete k rewrite => exact h.complete hs

theorem accounted_of_writesWhole (references : ℤ) (es : List Event)
    (hwhole : Always step WritesWhole { references := references } es) :
    Always step (fun _ _ s' => s'.Accounted references) { references := references } es := by
  have hstep (s : AsynchOutput) (e : Event) (s' : AsynchOutput) (h : s.Balanced references)
      (hs : step s e = some s') (hwhole : WritesWhole s e s') :
      s'.Balanced references ∧ s'.Accounted references := by
    have h' := h.step hwhole hs
    exact ⟨h', h'.accounted⟩
  exact always_of_step hstep es balanced_start hwhole

/-- Two messages, with the completions the other way round. -/
theorem accounted_two :
    Always step (fun _ _ s' => s'.Accounted 2) { references := 2 }
      [.put [1, 2], .handleOutput .block (fun _ => .accepted), .put [3],
        .handleOutput .block (fun n => if n < 10 then .again else .accepted), .write 2, .write 1,
        .complete 1 .failed, .complete 0 .failed] :=
  accounted_of_writesWhole 2 _ (by decide)

/-- The first of two messages is written in two parts: the second part goes behind the other
message, and nobody counts it. -/
theorem not_accounted_two :
    ∃ s, exec step { references := 2 }
        [.put [1, 2], .handleOutput .block (fun _ => .accepted), .put [3],
          .handleOutput .block (fun _ => .accepted), .write 1, .complete 0 .accepted, .write 1,
          .complete 0 .accepted] = some s ∧
      s.sent = [1, 3] ∧ s.counter = 0 ∧ s.inFlight.length = 1 ∧ ¬ s.Accounted 2 := by
  refine ⟨_, rfl, rfl, rfl, rfl, fun h => ?_⟩
  have hcounter := h.counter
  revert hcounter
  decide

end AsynchOutput

end ACENetwork.Net
