import Mathlib

/-! Messages that go out as one stream. The units of the first message that is still waiting go
first, and a message may be given up, after which there is a gap in front of what follows it. -/

namespace Outlet

variable {α : Type}

/-- What was put in, what is out, and what is left of the messages in between. -/
structure State (α : Type) where
  messages : List (List α) := []
  sent : List α := []
  waiting : List (List α) := []
  gap : Bool := false

def State.put (o : State α) (m : List α) : State α :=
  { o with messages := o.messages ++ [m], waiting := o.waiting ++ [m] }

def State.send (o : State α) (n : ℕ) : State α :=
  match o.waiting with
  | [] => o
  | m :: rest =>
    { o with
      sent := o.sent ++ m.take n
      waiting := if m.drop n = [] then rest else m.drop n :: rest }

def State.abandon (o : State α) (n : ℕ) : State α :=
  { o with sent := o.sent ++ (o.waiting.headD []).take n, waiting := o.waiting.tail, gap := true }

/-- What is out is the beginning of what was put in, and without a gap the rest is waiting. -/
structure State.InOrder (o : State α) : Prop where
  sent : o.sent <+: o.messages.flatten
  waiting : o.gap = false → o.sent ++ o.waiting.flatten = o.messages.flatten

variable {o : State α}

theorem inOrder_empty : ({} : State α).InOrder := ⟨by simp, by simp⟩

/-- Without a gap, what is waiting tells that what is out is the beginning. -/
theorem inOrder_of_waiting (h : o.sent ++ o.waiting.flatten = o.messages.flatten) : o.InOrder :=
  ⟨⟨_, h⟩, fun _ => h⟩

theorem State.InOrder.put (h : o.InOrder) (m : List α) : (o.put m).InOrder := by
  refine ⟨?_, fun hgap => ?_⟩
  · rw [State.put, List.flatten_append]
    exact h.sent.trans (List.prefix_append _ _)
  · simp only [State.put, List.flatten_append, List.flatten_singleton]
    rw [← List.append_assoc, h.waiting hgap]

theorem flatten_send (m : List α) (rest : List (List α)) (n : ℕ) :
    m.take n ++ (if m.drop n = [] then rest else m.drop n :: rest).flatten = (m :: rest).flatten := by
  by_cases hdrop : m.drop n = []
  · rw [if_pos hdrop, List.flatten_cons]
    congr 1
    have happend := List.take_append_drop n m
    rwa [hdrop, List.append_nil] at happend
  · rw [if_neg hdrop, List.flatten_cons, List.flatten_cons, ← List.append_assoc, List.take_append_drop]

theorem State.InOrder.send (h : o.InOrder) (hgap : o.gap = false) (n : ℕ) : (o.send n).InOrder := by
  have hwaiting := h.waiting hgap
  cases hw : o.waiting with
  | nil => simpa [State.send, hw] using h
  | cons m rest =>
    apply inOrder_of_waiting
    rw [hw] at hwaiting
    simp only [State.send, hw]
    rw [List.append_assoc, flatten_send, hwaiting]

theorem State.InOrder.lose (h : o.InOrder) (waiting : List (List α)) :
    ({ o with waiting := waiting, gap := true } : State α).InOrder :=
  ⟨h.sent, fun hgap => absurd hgap (by simp)⟩

theorem State.InOrder.abandon (h : o.InOrder) {n : ℕ} (hn : o.gap = true → n = 0) :
    (o.abandon n).InOrder := by
  refine ⟨?_, fun hgap => absurd hgap (by simp [State.abandon])⟩
  cases hgap : o.gap with
  | true => simpa [State.abandon, hn hgap] using h.sent
  | false =>
    have hwaiting := h.waiting hgap
    rw [State.abandon, ← hwaiting]
    apply (List.prefix_append_right_inj _).2
    cases o.waiting with
    | nil => simp
    | cons m rest => exact (List.take_prefix n m).trans (List.prefix_append _ _)

end Outlet
