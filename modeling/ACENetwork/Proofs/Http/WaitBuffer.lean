import Mathlib
import ACENetwork.Spec.Http.WaitBuffer

/-! Where the messages of the queue are when `waitBuffer` returns: those that it skipped are behind
all others. -/

namespace ACENetwork.Http.WaitBuffer

/-- A queue has one message that is waited for first, unless it has none at all. -/
theorem exists_awaited {queue : List Message} (h : ∃ m ∈ queue, ¬ m.Skipped) :
    ∃ before m after, Awaited queue before m after := by
  induction queue with
  | nil => exact absurd h (by simp)
  | cons x queue ih =>
    by_cases hx : x.Skipped
    · obtain ⟨m, hm, hawaited⟩ := h
      have hrest : m ∈ queue := by
        rcases List.mem_cons.1 hm with rfl | hm
        · exact absurd hx hawaited
        · exact hm
      obtain ⟨before, y, after, hqueue, hskipped, hy⟩ := ih ⟨m, hrest, hawaited⟩
      refine ⟨x :: before, y, after, by rw [hqueue, List.cons_append], ?_, hy⟩
      exact List.forall_mem_cons.2 ⟨hx, hskipped⟩
    · exact ⟨[], x, queue, rfl, fun y hy => absurd hy List.not_mem_nil, hx⟩

theorem body_skipped {s : State} {x : Message} {queue : List Message} (hqueue : s.queue = x :: queue)
    (hx : x.Skipped) : body s = .again { s with queue := queue ++ [x] } := by
  simp only [body, hqueue, hx.1, hx.2, Bool.false_eq_true, if_false]

def State.left (s : State) (before : List Message) (m : Message) (after : List Message) : State :=
  if m.isData then { s with queue := after ++ before, continuations := s.continuations ++ [m] }
  else { s with queue := after ++ before ++ [m] }

theorem body_awaited {s : State} {m : Message} {after : List Message} (hqueue : s.queue = m :: after)
    (hm : ¬ m.Skipped) : body s = .done (s.left [] m after) := by
  cases hdata : m.isData with
  | true => simp only [body, hqueue, State.left, hdata, if_true, List.append_nil]
  | false =>
    have hend : m.isEnd = true := by
      by_contra hend
      exact hm ⟨hdata, by simpa using hend⟩
    simp only [body, hqueue, State.left, hdata, hend, Bool.false_eq_true, if_false, if_true,
      List.append_nil]

theorem returns_iff {s r : State} {before after : List Message} {m : Message}
    (h : Awaited s.queue before m after) : Loop.Returns body s r ↔ r = s.left before m after := by
  obtain ⟨hqueue, hskipped, hm⟩ := h
  induction before generalizing s after with
  | nil => exact Loop.returns_done (body_awaited hqueue hm)
  | cons x before ih =>
    obtain ⟨hx, hskipped⟩ := List.forall_mem_cons.1 hskipped
    have hnext : before ++ m :: after ++ [x] = before ++ m :: (after ++ [x]) :=
      List.append_assoc before (m :: after) [x]
    rw [Loop.returns_again (body_skipped hqueue hx), ih hnext hskipped]
    simp only [State.left, List.append_assoc, List.cons_append, List.nil_append]

theorem append_comm_iff {α : Type} {k l : List α} (h : (k ++ l).Nodup) :
    k ++ l = l ++ k ↔ k = [] ∨ l = [] := by
  constructor
  · intro hcomm
    cases k with
    | nil => exact Or.inl rfl
    | cons a k =>
      cases l with
      | nil => exact Or.inr rfl
      | cons b l =>
        have hab : a = b := (List.cons.inj hcomm).1
        rw [List.nodup_append] at h
        exact absurd hab (h.2.2 a List.mem_cons_self b List.mem_cons_self)
  · rintro (rfl | rfl)
    · rw [List.nil_append, List.append_nil]
    · rw [List.nil_append, List.append_nil]

theorem keepsQueue_iff {s : State} (hnodup : s.queue.Nodup) {before after : List Message} {m : Message}
    (h : Awaited s.queue before m after) :
    KeepsQueue s before m after ↔ after = [] ∨ m.isData = true ∧ before = [] := by
  rw [KeepsQueue, returns_iff h]
  obtain ⟨queue, fragment, continuations⟩ := s
  obtain ⟨rfl, -, -⟩ := h
  cases hdata : m.isData with
  | true =>
    have hrest : (before ++ after).Nodup := hnodup.sublist ((List.sublist_cons_self m after).append_left before)
    simp only [State.waited, State.left, hdata, if_true, State.mk.injEq, and_true, true_and]
    rw [append_comm_iff hrest, or_comm]
  | false =>
    have hsplit : before ++ m :: after = (before ++ [m]) ++ after := by
      rw [List.append_assoc, List.singleton_append]
    rw [hsplit] at hnodup ⊢
    simp only [State.waited, State.left, hdata, Bool.false_eq_true, if_false, false_and, or_false,
      State.mk.injEq, and_true, List.append_assoc after]
    rw [append_comm_iff hnodup]
    simp

def session : Message := ⟨1, .user (some .other)⟩
def data : Message := ⟨2, .data⟩
def sessionEnd : Message := ⟨3, .user (some .end_)⟩

theorem session_data_keepsQueue : KeepsQueue ⟨[session, data], ⟨0, .data⟩, []⟩ [session] data [] :=
  (keepsQueue_iff (by decide) ⟨rfl, by decide, by decide⟩).2 (Or.inl rfl)

/-- The session message gets behind the end of the session. -/
theorem session_data_end_not_keepsQueue :
    Awaited [session, data, sessionEnd] [session] data [sessionEnd] ∧
      ¬ KeepsQueue ⟨[session, data, sessionEnd], ⟨0, .data⟩, []⟩ [session] data [sessionEnd] := by
  have hawaited : Awaited [session, data, sessionEnd] [session] data [sessionEnd] :=
    ⟨rfl, by decide, by decide⟩
  refine ⟨hawaited, fun h => ?_⟩
  exact absurd ((returns_iff hawaited).1 h) (by decide)

end ACENetwork.Http.WaitBuffer
