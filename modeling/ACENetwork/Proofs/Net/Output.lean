import Mathlib
import ACENetwork.Library.Transition
import ACENetwork.Spec.Net.Output

/-! The output of the reactor connections keeps its order as long as nothing is sent behind a send
that failed, and it keeps the reference count only where every block is sent at once. -/

namespace ACENetwork.Net

open Transition

namespace Output

variable {s s' : Output} {g : Get} {r : Sent} {b : NumberedBlock} {result : ℤ}
  {t : Transport}

theorem place_cases (h : s.place b r = some (result, s')) :
    (∃ before, (r = .failed before ∨ r = .closed before) ∧ result = -1 ∧
      s' = (s.breakOff b before).release b) ∨
    (∃ n, r = .bytes n ∧ 0 < n ∧ n < b.data.length ∧ result = 1 ∧
      s' = { s with sent := s.sent ++ b.data.take n, writeBuffer := some (b.advance n) }.decrease) ∨
    (r = .bytes b.data.length ∧ 0 < b.data.length ∧ result = 0 ∧
      s' = ({ s with sent := s.sent ++ b.data }.release b).decrease) := by
  cases r with
  | failed before =>
    obtain ⟨rfl, rfl⟩ := Prod.mk.inj (Option.some.inj h)
    exact Or.inl ⟨before, Or.inl rfl, rfl, rfl⟩
  | closed before =>
    obtain ⟨rfl, rfl⟩ := Prod.mk.inj (Option.some.inj h)
    exact Or.inl ⟨before, Or.inr rfl, rfl, rfl⟩
  | bytes n =>
    refine Or.inr ?_
    simp only [place] at h
    by_cases hn : 0 < n ∧ n ≤ b.data.length
    · rw [if_pos hn] at h
      by_cases hmore : (b.advance n).data ≠ []
      · rw [if_pos hmore] at h
        obtain ⟨rfl, rfl⟩ := Prod.mk.inj (Option.some.inj h)
        have hlt : n < b.data.length := by simpa [NumberedBlock.advance] using hmore
        exact Or.inl ⟨n, rfl, hn.1, hlt, rfl, rfl⟩
      · rw [if_neg hmore] at h
        obtain ⟨rfl, rfl⟩ := Prod.mk.inj (Option.some.inj h)
        have hle : b.data.length ≤ n := by simpa [NumberedBlock.advance] using hmore
        obtain rfl : n = b.data.length := le_antisymm hn.2 hle
        refine Or.inr ⟨rfl, hn.1, rfl, ?_⟩
        rw [List.take_length]
        rfl
    · rw [if_neg hn] at h
      cases h

theorem handleOutputTCP_cases (h : handleOutputTCP s g r = some (result, s')) :
    (s.writeBuffer = none ∧ g = .failed ∧ result = -1 ∧ s' = { s with missed := s.missed + 1 }) ∨
    ∃ b queue, s.unsent = b :: queue ∧ { s with queue := queue }.place b r = some (result, s') := by
  unfold handleOutputTCP at h
  cases hbuffer : s.writeBuffer with
  | some b =>
    rw [hbuffer] at h
    exact Or.inr ⟨b, s.queue, by simp [unsent, hbuffer], h⟩
  | none =>
    rw [hbuffer] at h
    cases g with
    | failed =>
      obtain ⟨rfl, rfl⟩ := Prod.mk.inj (Option.some.inj h)
      exact Or.inl ⟨rfl, rfl, rfl, rfl⟩
    | block =>
      cases hqueue : s.queue with
      | nil => simp [get, hqueue] at h
      | cons b queue =>
        simp only [get, hqueue] at h
        exact Or.inr ⟨b, queue, by simp [unsent, hbuffer, hqueue], h⟩

theorem outlet_waiting {queue : List NumberedBlock} (h : s.unsent = b :: queue) :
    s.outlet.waiting = b.data :: queue.map NumberedBlock.data := by
  rw [outlet, h, List.map_cons]

theorem outlet_breakOff {queue : List NumberedBlock} (h : s.unsent = b :: queue) (before : ℕ) :
    (({ s with queue := queue }.breakOff b before).release b).outlet = s.outlet.abandon before := by
  rw [Outlet.State.abandon, outlet_waiting h]
  rfl

theorem outlet_more {queue : List NumberedBlock} (h : s.unsent = b :: queue) {n : ℕ}
    (hn : n < b.data.length) :
    ({ s with queue := queue, sent := s.sent ++ b.data.take n, writeBuffer := some (b.advance n) }.decrease).outlet =
      s.outlet.send n := by
  have hmore : b.data.drop n ≠ [] := by simpa using hn
  rw [Outlet.State.send, outlet_waiting h]
  simp only [if_neg hmore]
  rfl

theorem outlet_whole {queue : List NumberedBlock} (h : s.unsent = b :: queue) :
    (({ s with queue := queue, sent := s.sent ++ b.data }.release b).decrease).outlet =
      s.outlet.send b.data.length := by
  rw [Outlet.State.send, outlet_waiting h]
  simp only [List.drop_length, List.take_length, if_pos]
  rfl

/-- The messages and the calls that are due, for every state of a run. -/
structure Ordered (s : Output) : Prop where
  outlet : s.outlet.InOrder
  once : (s.released ++ s.unsent.map NumberedBlock.id).Perm (List.range s.messages.length)
  due : s.pending + s.unnotified + s.missed = s.unsent.length

theorem Ordered.sendsInOrder (h : s.Ordered) : s.SendsInOrder where
  sent := h.outlet.sent
  ends := h.outlet.waiting
  once := h.once
  ready hpending hbuffer hqueue := by
    have hdue := h.due
    simp [unsent, hbuffer, hqueue] at hdue
    omega
  done hpending hunnotified hmissed := by
    have hdue := h.due
    rw [hpending, hunnotified, hmissed] at hdue
    exact List.length_eq_zero_iff.1 hdue.symm

theorem ordered_start (references : ℤ) (status : Status) :
    ({ references := references, status := status } : Output).Ordered :=
  ⟨Outlet.inOrder_empty, by simp [unsent], rfl⟩

theorem Ordered.put (h : s.Ordered) (message : List UInt8)
    (hs : step t s (.put message) = some s') : s'.Ordered := by
  have hunsent : s'.unsent = s.unsent ++ [⟨s.messages.length, message⟩] := by
    obtain rfl := Option.some.inj hs
    rw [unsent, unsent, List.append_assoc]
  have houtlet : s'.outlet = s.outlet.put message := by
    rw [Output.outlet, hunsent, List.map_append]
    obtain rfl := Option.some.inj hs
    rfl
  refine ⟨houtlet ▸ h.outlet.put message, ?_, ?_⟩
  · have happend := h.once.append_right [s.messages.length]
    rw [hunsent, List.map_append, ← List.append_assoc]
    obtain rfl := Option.some.inj hs
    rwa [List.length_append, List.length_singleton, List.range_succ]
  · have hdue := h.due
    rw [hunsent, List.length_append, List.length_singleton]
    obtain rfl := Option.some.inj hs
    show s.pending + (s.unnotified + 1) + s.missed = s.unsent.length + 1
    omega

theorem Ordered.notify (h : s.Ordered) (ok : Bool) (hs : step t s (.notify ok) = some s') :
    s'.Ordered := by
  have hdue := h.due
  simp only [step] at hs
  by_cases hnone : s.unnotified = 0
  · rw [if_pos hnone] at hs
    cases hs
  · rw [if_neg hnone] at hs
    obtain rfl := Option.some.inj hs
    cases ok with
    | true =>
      refine ⟨h.outlet, h.once, ?_⟩
      show s.pending + 1 + (s.unnotified - 1) + s.missed = s.unsent.length
      omega
    | false =>
      refine ⟨h.outlet, h.once, ?_⟩
      show s.pending + (s.unnotified - 1) + (s.missed + 1) = s.unsent.length
      omega

theorem dispatch_cases (hs : step t s (.dispatch g r) = some s') :
    0 < s.pending ∧ ∃ result s₁, handleOutput t s g r = some (result, s₁) ∧
      s' = { s₁ with pending := s.pending - 1 + if result = 1 then 1 else 0 } := by
  simp only [step] at hs
  split at hs
  · cases hs
  · cases hhandle : handleOutput t s g r with
    | none => simp [hhandle] at hs
    | some p =>
      simp only [hhandle, Option.some.injEq] at hs
      exact ⟨by omega, p.1, p.2, rfl, hs.symm⟩

theorem Ordered.dispatch (h : s.Ordered) (hbehind : NothingBehind s (.dispatch g r) s')
    (hs : step .tcp s (.dispatch g r) = some s') : s'.Ordered := by
  obtain ⟨hpending, result, s₁, hhandle, rfl⟩ := dispatch_cases hs
  have hdue := h.due
  obtain ⟨-, -, rfl, rfl⟩ | ⟨b, queue, hunsent, hplace⟩ := handleOutputTCP_cases hhandle
  · refine ⟨h.outlet, h.once, ?_⟩
    show s.pending - 1 + 0 + s.unnotified + (s.missed + 1) = s.unsent.length
    omega
  · have honce := h.once
    rw [hunsent] at honce hdue
    simp only [List.length_cons, List.map_cons] at honce hdue
    have hreleased : ((s.released ++ [b.id]) ++ queue.map NumberedBlock.id).Perm (List.range s.messages.length) := by
      simpa using honce
    obtain ⟨before, hr, rfl, rfl⟩ | ⟨n, rfl, -, hlt, rfl, rfl⟩ | ⟨rfl, -, rfl, rfl⟩ := place_cases hplace
    · have hgap : s.outlet.gap = true → before = 0 := by
        intro hgap
        rcases hr with rfl | rfl <;> exact hbehind hgap
      refine ⟨?_, hreleased, ?_⟩
      · have habandon := h.outlet.abandon hgap
        rwa [← outlet_breakOff hunsent before] at habandon
      · simp [unsent, release, breakOff]
        omega
    · refine ⟨?_, honce, ?_⟩
      · have hsend := h.outlet.send hbehind n
        rwa [← outlet_more hunsent hlt] at hsend
      · simp [unsent, decrease]
        omega
    · refine ⟨?_, hreleased, ?_⟩
      · have hsend := h.outlet.send hbehind b.data.length
        rwa [← outlet_whole hunsent] at hsend
      · simp [unsent, decrease, release]
        omega

theorem Ordered.step {e : Event} (h : s.Ordered) (hbehind : NothingBehind s e s')
    (hs : Output.step .tcp s e = some s') : s'.Ordered := by
  cases e with
  | put message => exact h.put message hs
  | notify ok => exact h.notify ok hs
  | dispatch g r => exact h.dispatch hbehind hs

theorem sends_in_order (references : ℤ) (status : Status) (es : List Event)
    (hbehind : Always (step .tcp) NothingBehind { references := references, status := status } es) :
    Always (step .tcp) (fun _ _ s' => s'.SendsInOrder) { references := references, status := status } es := by
  have hstep (s : Output) (e : Event) (s' : Output) (h : s.Ordered) (hs : step .tcp s e = some s')
      (hbehind : NothingBehind s e s') : s'.Ordered ∧ s'.SendsInOrder := by
    have h' := h.step hbehind hs
    exact ⟨h', h'.sendsInOrder⟩
  exact always_of_step hstep es (ordered_start references status) hbehind

/-- The first of two messages needs two sends. -/
theorem sends_two :
    Always (step .tcp) (fun _ _ s' => s'.SendsInOrder) { references := 1, status := .ok }
      [.put [1, 2], .notify true, .put [3], .notify true, .dispatch .block (.bytes 1),
        .dispatch .block (.bytes 1), .dispatch .block (.bytes 1)] :=
  sends_in_order 1 .ok _ (by decide)

/-- The send of the first message fails, and another thread sends the second one. -/
theorem not_sends_two :
    ∃ s, exec (step .tcp) { references := 1 } [.put [1], .notify true, .put [2], .notify true,
        .dispatch .block (.failed 0), .dispatch .block (.bytes 1)] = some s ∧
      s.sent = [2] ∧ s.messages = [[1], [2]] ∧ ¬ s.SendsInOrder := by
  refine ⟨_, rfl, rfl, rfl, fun h => ?_⟩
  have hsent : ([2] : List UInt8) <+: [1, 2] := h.sent
  revert hsent
  decide

theorem references_step {references : ℤ} {e : Event} (h : s.references = references + s.pending)
    (hwhole : SendsWhole t s e s') (hs : step t s e = some s') :
    s'.references = references + s'.pending := by
  cases e with
  | put message =>
    obtain rfl := Option.some.inj hs
    exact h
  | notify ok =>
    obtain rfl : ok = true := hwhole
    simp only [step] at hs
    split at hs
    · cases hs
    · obtain rfl := Option.some.inj hs
      simp only [notify, if_true]
      push_cast
      omega
  | dispatch g r =>
    obtain ⟨rfl, rfl, b, hhead, rfl⟩ := hwhole
    obtain ⟨hpending, result, s₁, hhandle, rfl⟩ := dispatch_cases hs
    obtain ⟨-, himpossible, -⟩ | ⟨b', queue, hunsent, hplace⟩ := handleOutputTCP_cases hhandle
    · cases himpossible
    · rw [hunsent, List.head?_cons, Option.mem_some_iff] at hhead
      obtain rfl := hhead
      obtain ⟨before, hr, -⟩ | ⟨n, hr, -, hlt, -⟩ | ⟨-, -, rfl, rfl⟩ := place_cases hplace
      · rcases hr with hr | hr <;> cases hr
      · obtain rfl := Sent.bytes.inj hr
        exact absurd hlt (lt_irrefl _)
      · simp only [decrease, release]
        norm_num
        omega

theorem keeps_references (t : Transport) (references : ℤ) (es : List Event)
    (hwhole : Always (step t) (SendsWhole t) { references := references } es) :
    Always (step t) (fun _ _ s' => s'.Keeps references) { references := references } es := by
  have hstep (s : Output) (e : Event) (s' : Output) (h : s.references = references + s.pending)
      (hs : step t s e = some s') (hwhole : SendsWhole t s e s') :
      s'.references = references + s'.pending ∧ s'.Keeps references := by
    have h' := references_step h hwhole hs
    refine ⟨h', ?_, fun hpending => ?_⟩
    · omega
    · rw [h', hpending]
      simp
  exact always_of_step hstep es (by simp) hwhole

theorem keeps_two :
    Always (step .tcp) (fun _ _ s' => s'.Keeps 2) { references := 2 }
      [.put [1, 2], .notify true, .put [3], .notify true, .dispatch .block (.bytes 2),
        .dispatch .block (.bytes 1)] :=
  keeps_references .tcp 2 _ (by decide)

/-- A message that needs two sends costs a reference that nobody has taken, one whose send fails
keeps its own, and so does every message that a UDP connection sends. -/
theorem not_keeps_one :
    ¬ Always (step .tcp) (fun _ _ s' => s'.Keeps 2) { references := 2 }
        [.put [1, 2], .notify true, .dispatch .block (.bytes 1), .dispatch .block (.bytes 1)] ∧
      ¬ Always (step .tcp) (fun _ _ s' => s'.Keeps 2) { references := 2 }
        [.put [1, 2], .notify true, .dispatch .block (.failed 0)] ∧
      ¬ Always (step .udp) (fun _ _ s' => s'.Keeps 2) { references := 2 }
        [.put [1, 2], .notify true, .dispatch .block (.bytes 2)] := by
  decide

end Output

end ACENetwork.Net
