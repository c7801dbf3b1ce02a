import Mathlib

/-! A loop whose body goes on with a new state or returns a value. `run` bounds the number of
iterations, and `Returns` hides the bound. -/

namespace Loop

variable {S R : Type}

inductive Next (S R : Type) where
  | again (s : S)
  | done (r : R)

def run (body : S → Next S R) : ℕ → S → Option R
  | 0, _ => none
  | n + 1, s =>
    match body s with
    | .again s' => run body n s'
    | .done r => some r

/-- The loop that starts in `s` ends with the value `r`. -/
def Returns (body : S → Next S R) (s : S) (r : R) : Prop := ∃ n, run body n s = some r

variable {body : S → Next S R} {s s' : S} {r r' : R} {n : ℕ}

theorem returns_again (h : body s = .again s') : Returns body s r ↔ Returns body s' r := by
  refine ⟨fun hr => ?_, fun hr => ?_⟩
  · obtain ⟨n, hn⟩ := hr
    cases n with
    | zero => simp [run] at hn
    | succ n => exact ⟨n, by simpa [run, h] using hn⟩
  · obtain ⟨n, hn⟩ := hr
    exact ⟨n + 1, by simpa [run, h] using hn⟩

theorem returns_done (h : body s = .done r') : Returns body s r ↔ r = r' := by
  refine ⟨fun hr => ?_, fun hr => ?_⟩
  · obtain ⟨n, hn⟩ := hr
    cases n with
    | zero => simp [run] at hn
    | succ n => simpa [run, h, eq_comm] using hn
  · subst hr
    exact ⟨1, by simp [run, h]⟩

/-- A loop that counts down returns, and within as many iterations as the count allows. -/
theorem exists_run_eq_some (μ : S → ℕ) (hμ : ∀ s s', body s = .again s' → μ s' < μ s) (hn : μ s < n) :
    ∃ r, run body n s = some r := by
  induction n generalizing s with
  | zero => omega
  | succ n ih =>
    cases hs : body s with
    | again s' =>
      have := hμ s s' hs
      obtain ⟨r, hr⟩ := ih (s := s') (by omega)
      exact ⟨r, by simp [run, hs, hr]⟩
    | done r => exact ⟨r, by simp [run, hs]⟩

theorem Returns.unique (h : Returns body s r) (h' : Returns body s r') : r = r' := by
  obtain ⟨n, hn⟩ := h
  induction n generalizing s with
  | zero => simp [run] at hn
  | succ n ih =>
    cases hs : body s with
    | again s' =>
      simp only [run, hs] at hn
      exact ih ((returns_again hs).1 h') hn
    | done r₀ =>
      simp only [run, hs, Option.some.injEq] at hn
      rw [← hn, (returns_done hs).1 h']

theorem run_eq_some_iff (μ : S → ℕ) (hμ : ∀ s s', body s = .again s' → μ s' < μ s) (hn : μ s < n) :
    run body n s = some r ↔ Returns body s r := by
  refine ⟨fun h => ⟨n, h⟩, fun h => ?_⟩
  obtain ⟨r', hr'⟩ := exists_run_eq_some μ hμ hn
  rw [hr', h.unique ⟨n, hr'⟩]

end Loop
