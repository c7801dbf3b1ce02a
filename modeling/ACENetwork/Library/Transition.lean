import Mathlib

/-! Runs of a partial step function. A step without a successor is a failed assertion:
the run ends there and no later state is reached. Properties of runs are derived from
properties of single steps, under an invariant and a condition on every step taken. -/

namespace Transition

variable {S A E : Type}

def exec (step : S → E → Option S) (s : S) (es : List E) : Option S := es.foldlM step s

variable {step : S → E → Option S} {astep : A → E → Option A}

@[simp] theorem exec_nil (s : S) : exec step s [] = some s := rfl

@[simp] theorem exec_cons (s : S) (e : E) (es : List E) :
    exec step s (e :: es) = (step s e).bind fun s' => exec step s' es := rfl

theorem exec_cons_eq_some {s s'' : S} {e : E} {es : List E} :
    exec step s (e :: es) = some s'' ↔ ∃ s', step s e = some s' ∧ exec step s' es = some s'' := by
  rw [exec_cons, Option.bind_eq_some_iff]

def Always (step : S → E → Option S) (Q : S → E → S → Prop) : S → List E → Prop
  | _, [] => True
  | s, e :: es => ∀ s', step s e = some s' → Q s e s' ∧ Always step Q s' es

variable {Q C : S → E → S → Prop} {Inv : S → Prop}

theorem always_cons_some {s s' : S} {e : E} {es : List E} (h : step s e = some s') :
    Always step Q s (e :: es) ↔ Q s e s' ∧ Always step Q s' es := by
  refine ⟨fun ha => ha s' h, fun ha s'' hs'' => ?_⟩
  obtain rfl := Option.some.inj (h.symm.trans hs'')
  exact ha

theorem always_cons_none {s : S} {e : E} {es : List E} (h : step s e = none) :
    Always step Q s (e :: es) := by
  intro s' hs'
  rw [h] at hs'
  cases hs'

instance decidableAlways [∀ s e s', Decidable (Q s e s')] :
    ∀ (s : S) (es : List E), Decidable (Always step Q s es)
  | _, [] => .isTrue trivial
  | s, e :: es =>
    match h : step s e with
    | none => .isTrue (always_cons_none h)
    | some s' =>
      have := decidableAlways s' es
      decidable_of_iff _ (always_cons_some h).symm

theorem always_of_step
    (hstep : ∀ s e s', Inv s → step s e = some s' → C s e s' → Inv s' ∧ Q s e s')
    {s : S} (es : List E) (hs : Inv s) (hC : Always step C s es) : Always step Q s es := by
  induction es generalizing s with
  | nil => trivial
  | cons e es ih =>
    intro s' hs'
    obtain ⟨hc, hrest⟩ := hC s' hs'
    obtain ⟨hinv, hq⟩ := hstep s e s' hs hs' hc
    exact ⟨hq, ih hinv hrest⟩

/-- A condition that decides a property of every single step decides it of every run. -/
theorem always_iff_of_step
    (hiff : ∀ s e s', Inv s → step s e = some s' → (Q s e s' ↔ C s e s'))
    (hinv : ∀ s e s', Inv s → step s e = some s' → C s e s' → Inv s')
    {s : S} (es : List E) (hs : Inv s) : Always step Q s es ↔ Always step C s es := by
  constructor
  · refine always_of_step (fun s e s' h hstep hq => ?_) es hs
    have hc := (hiff s e s' h hstep).1 hq
    exact ⟨hinv s e s' h hstep hc, hc⟩
  · refine always_of_step (fun s e s' h hstep hc => ?_) es hs
    exact ⟨hinv s e s' h hstep hc, (hiff s e s' h hstep).2 hc⟩

theorem always_of_forall {P : E → Prop} (h : ∀ s e s', P e → step s e = some s' → Q s e s')
    {s : S} (es : List E) (hP : ∀ e ∈ es, P e) : Always step Q s es := by
  induction es generalizing s with
  | nil => trivial
  | cons e es ih =>
    intro s' hs'
    exact ⟨h s e s' (hP e List.mem_cons_self) hs', ih fun e he => hP e (List.mem_cons_of_mem _ he)⟩

/-- What holds of every state that a run reaches holds of its last one. -/
theorem exec_of_always {P : S → Prop} {s s' : S} (es : List E) (hs : P s)
    (h : Always step (fun _ _ s' => P s') s es) (hexec : exec step s es = some s') : P s' := by
  induction es generalizing s with
  | nil =>
    obtain rfl : s = s' := by simpa using hexec
    exact hs
  | cons e es ih =>
    obtain ⟨s₁, hs₁, hexec⟩ := exec_cons_eq_some.1 hexec
    obtain ⟨h₁, h⟩ := h s₁ hs₁
    exact ih h₁ h hexec

theorem always_take {s : S} {es : List E} (h : Always step Q s es) (k : ℕ) :
    Always step Q s (es.take k) := by
  induction es generalizing s k with
  | nil => simpa using h
  | cons e es ih =>
    cases k with
    | zero => trivial
    | succ k =>
      intro s' hs'
      obtain ⟨hq, hrest⟩ := h s' hs'
      exact ⟨hq, ih hrest k⟩

/-- A run is no longer than what its steps use up. -/
theorem exec_length_le {P : E → Prop} (rank : S → ℕ)
    (hstep : ∀ s e s', Inv s → P e → step s e = some s' → Inv s' ∧ rank s' < rank s) {s s' : S} (es : List E)
    (hs : Inv s) (hP : ∀ e ∈ es, P e) (hexec : exec step s es = some s') :
    Inv s' ∧ es.length + rank s' ≤ rank s := by
  induction es generalizing s with
  | nil =>
    obtain rfl : s = s' := by simpa using hexec
    exact ⟨hs, by simp⟩
  | cons e es ih =>
    obtain ⟨s₁, hs₁, hexec⟩ := exec_cons_eq_some.1 hexec
    obtain ⟨hinv, hlt⟩ := hstep s e s₁ hs (hP e List.mem_cons_self) hs₁
    obtain ⟨hinv', hle⟩ := ih hinv (fun e he => hP e (List.mem_cons_of_mem _ he)) hexec
    refine ⟨hinv', ?_⟩
    rw [List.length_cons]
    omega

/-- Two machines fed with the same events stay related as long as both go on, and the second
one takes only steps that `P` allows. -/
theorem exec_related {R : S → A → Prop} {P : A → E → A → Prop}
    (hstep : ∀ s a e s' a', R s a → P a e a' → step s e = some s' → astep a e = some a' → R s' a')
    {s s' : S} {a a' : A} (es : List E) (h : R s a) (hP : Always astep P a es)
    (hs : exec step s es = some s') (ha : exec astep a es = some a') : R s' a' := by
  induction es generalizing s a with
  | nil =>
    obtain rfl : s = s' := by simpa using hs
    obtain rfl : a = a' := by simpa using ha
    exact h
  | cons e es ih =>
    obtain ⟨s₁, hs₁, hs⟩ := exec_cons_eq_some.1 hs
    obtain ⟨a₁, ha₁, ha⟩ := exec_cons_eq_some.1 ha
    obtain ⟨hp, hP⟩ := hP a₁ ha₁
    exact ih (hstep s a e s₁ a₁ h hp hs₁ ha₁) hP hs ha

/-- A machine that takes every step which `P` allows the other one goes on with it. -/
theorem exec_simulated {R : S → A → Prop} {P : A → E → A → Prop}
    (hstep : ∀ s a e a', R s a → P a e a' → astep a e = some a' → ∃ s', step s e = some s' ∧ R s' a')
    {s : S} {a a' : A} (es : List E) (h : R s a) (hP : Always astep P a es)
    (ha : exec astep a es = some a') : ∃ s', exec step s es = some s' ∧ R s' a' := by
  induction es generalizing s a with
  | nil =>
    obtain rfl : a = a' := by simpa using ha
    exact ⟨s, rfl, h⟩
  | cons e es ih =>
    obtain ⟨a₁, ha₁, ha⟩ := exec_cons_eq_some.1 ha
    obtain ⟨hp, hP⟩ := hP a₁ ha₁
    obtain ⟨s₁, hs₁, h₁⟩ := hstep s a e a₁ h hp ha₁
    obtain ⟨s', hs', h'⟩ := ih h₁ hP ha
    exact ⟨s', exec_cons_eq_some.2 ⟨s₁, hs₁, hs'⟩, h'⟩

theorem exec_total {f : S → E → S} (s : S) (es : List E) :
    exec (fun s e => some (f s e)) s es = some (es.foldl f s) := by
  induction es generalizing s with
  | nil => rfl
  | cons e es ih => exact ih (f s e)

theorem always_total_cons {f : S → E → S} {s : S} {e : E} {es : List E} :
    Always (fun s e => some (f s e)) Q s (e :: es) ↔
      Q s e (f s e) ∧ Always (fun s e => some (f s e)) Q (f s e) es := by
  refine ⟨fun h => h _ rfl, fun h s' hs' => ?_⟩
  obtain rfl := Option.some.inj hs'
  exact h

end Transition
