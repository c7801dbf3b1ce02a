import Mathlib

/-! A register that threads save, override with one value of their own, and later set back to
what they saved. No lock is held, so their accesses come in any order. A history lists the
accesses with the latest one first. -/

namespace Register

inductive Access where
  | save
  | override
  | restore
  deriving DecidableEq, Repr

variable {ι V : Type}

/-- The value of the register, and what each of the threads has saved. -/
structure State (ι V : Type) where
  value : V
  saved : ι → V

def access [DecidableEq ι] (own : V) (s : State ι V) : ι × Access → State ι V
  | (t, .save) => { s with saved := Function.update s.saved t s.value }
  | (_, .override) => { s with value := own }
  | (t, .restore) => { s with value := s.saved t }

def run [DecidableEq ι] (own : V) (s : State ι V) : List (ι × Access) → State ι V
  | [] => s
  | a :: h => access own (run own s h) a

def Orderly : List (ι × Access) → Prop
  | [] => True
  | (t, .save) :: h => (t, .save) ∉ h ∧ Orderly h
  | (_, .override) :: h => Orderly h
  | (t, .restore) :: h => (t, .save) ∈ h ∧ Orderly h

/-- The accesses fall into sections. A section starts with a thread's save, ends when the same
thread sets the register back, and may have any accesses in between. Only saves stand between
two sections. -/
inductive Sectioned : List (ι × Access) → Prop where
  | nil : Sectioned []
  | save {t : ι} {h : List (ι × Access)} (hs : Sectioned h) : Sectioned ((t, .save) :: h)
  | closed {t : ι} {m h : List (ι × Access)} (hs : Sectioned h) :
    Sectioned ((t, .restore) :: (m ++ (t, .save) :: h))

variable {t : ι} {m h : List (ι × Access)}

theorem Orderly.tail {a : ι × Access} (ho : Orderly (a :: h)) : Orderly h := by
  obtain ⟨t, _ | _ | _⟩ := a
  · exact ho.2
  · exact ho
  · exact ho.2

theorem Orderly.behind (ho : Orderly (m ++ h)) : Orderly h := by
  induction m with
  | nil => exact ho
  | cons a m ih => exact ih ho.tail

variable [DecidableEq ι] {own : V} {s : State ι V}

theorem saved_eq (ho : Orderly (m ++ (t, .save) :: h)) :
    (run own s (m ++ (t, .save) :: h)).saved t = (run own s h).value := by
  induction m with
  | nil => simp [run, access]
  | cons a m ih =>
    have hsaved := ih ho.tail
    obtain ⟨u, _ | _ | _⟩ := a
    · have hne : t ≠ u := by
        rintro rfl
        exact ho.1 (by simp)
      exact (Function.update_of_ne hne _ _).trans hsaved
    · exact hsaved
    · exact hsaved

theorem Sectioned.value_eq (hs : Sectioned h) (ho : Orderly h) : (run own s h).value = s.value := by
  induction hs with
  | nil => rfl
  | save _ ih => exact ih ho.tail
  | closed _ ih =>
    rw [run, access, saved_eq ho.tail]
    exact ih ho.tail.behind.tail

/-- A register that has its first value again either had that of the threads all along, or its
accesses fall into sections. -/
theorem sectioned_of_value_eq (ho : Orderly h) (hv : (run own s h).value = s.value) :
    own = s.value ∨ Sectioned h := by
  induction hn : h.length using Nat.strong_induction_on generalizing h with
  | _ n ih =>
    cases h with
    | nil => exact Or.inr .nil
    | cons a h =>
      obtain ⟨u, _ | _ | _⟩ := a
      · exact (ih h.length (by simp [← hn]) ho.tail hv rfl).imp_right .save
      · exact Or.inl hv
      · obtain ⟨m, h', rfl⟩ := List.append_of_mem ho.1
        rw [run, access, saved_eq ho.tail] at hv
        refine (ih h'.length ?_ ho.tail.behind.tail hv rfl).imp_right .closed
        rw [← hn]
        simp
        omega

/-- If the threads set the register to the value that it has, it always has it. -/
theorem value_eq_of_own (ho : Orderly h) (hown : own = s.value) : (run own s h).value = s.value := by
  induction hn : h.length using Nat.strong_induction_on generalizing h with
  | _ n ih =>
    cases h with
    | nil => rfl
    | cons a h =>
      obtain ⟨u, _ | _ | _⟩ := a
      · exact ih h.length (by simp [← hn]) (h := h) ho.tail rfl
      · exact hown
      · obtain ⟨m, h', rfl⟩ := List.append_of_mem ho.1
        rw [run, access, saved_eq ho.tail]
        refine ih h'.length ?_ ho.tail.behind.tail rfl
        rw [← hn]
        simp
        omega

theorem value_eq_iff (ho : Orderly h) :
    (run own s h).value = s.value ↔ own = s.value ∨ Sectioned h := by
  refine ⟨sectioned_of_value_eq ho, fun hw => ?_⟩
  rcases hw with hown | hs
  · exact value_eq_of_own ho hown
  · exact hs.value_eq ho

end Register
