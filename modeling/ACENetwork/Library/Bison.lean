import Mathlib

/-! The machine that a parser generated by Bison runs: a stack of automaton states with
their semantic values, at most one token of lookahead, and the tables of the grammar. The
scanner is a step function of its own, as one call of it may take several rules before it
has a token. The machine is executable with a step count, and `Halts` hides the count. -/

namespace Bison

variable {K V R F σ : Type}

/-- What one rule of the scanner does. -/
inductive Scan (K V F σ : Type) where
  | more (s : σ)
  | token (k : K) (v : V) (s : σ)
  | fault (f : F)

def Scan.next : Scan K V F σ → Option σ
  | .more s | .token _ _ s => some s
  | .fault _ => none

/-- What the action of a grammar rule does: it yields the value of the left-hand side, or it
ends the parse (`YYACCEPT`, `YYABORT`), or it fails. -/
inductive Reduce (V F σ : Type) where
  | value (v : V) (s : σ)
  | accept (s : σ)
  | abort (s : σ)
  | fault (f : F)

def Reduce.next : Reduce V F σ → Option σ
  | .value _ s | .accept s | .abort s => some s
  | .fault _ => none

/-- A call of a scanner: it takes rules without a token, and then one with a token. -/
inductive Lexes (scan : σ → Scan K V F σ) : σ → K → V → σ → Prop where
  | token {s s' : σ} {k : K} {v : V} (hs : scan s = .token k v s') : Lexes scan s k v s'
  | more {s s₁ s' : σ} {k : K} {v : V} (hs : scan s = .more s₁) (h : Lexes scan s₁ k v s') :
    Lexes scan s k v s'

/-- The states that a call of a scanner goes through in front of its token. -/
inductive Within (scan : σ → Scan K V F σ) : σ → σ → Prop where
  | refl (s : σ) : Within scan s s
  | more {s s₁ s' : σ} (hs : scan s = .more s₁) (h : Within scan s₁ s') : Within scan s s'

/-- What every rule of the scanner keeps, a call keeps. -/
theorem Lexes.of_next {scan : σ → Scan K V F σ} {Inv : σ → Prop} {s s' : σ} {k : K} {v : V}
    (h : Lexes scan s k v s') (hinv : ∀ s s', Inv s → (scan s).next = some s' → Inv s') (hs : Inv s) :
    Inv s' := by
  induction h with
  | token hscan => exact hinv _ _ hs (by rw [hscan, Scan.next])
  | more hscan _ ih => exact ih (hinv _ _ hs (by rw [hscan, Scan.next]))

theorem Lexes.unique {scan : σ → Scan K V F σ} {s s₁ s₂ : σ} {k₁ k₂ : K} {v₁ v₂ : V}
    (h₁ : Lexes scan s k₁ v₁ s₁) (h₂ : Lexes scan s k₂ v₂ s₂) : k₁ = k₂ ∧ v₁ = v₂ ∧ s₁ = s₂ := by
  induction h₁ with
  | token hs =>
    cases h₂ with
    | token hs' =>
      rw [hs] at hs'
      exact Scan.token.inj hs'
    | more hs' _ =>
      rw [hs] at hs'
      exact absurd hs' (by simp)
  | more hs _ ih =>
    cases h₂ with
    | token hs' =>
      rw [hs] at hs'
      exact absurd hs' (by simp)
    | more hs' h =>
      rw [hs] at hs'
      obtain rfl := Scan.more.inj hs'
      exact ih h

theorem Lexes.exists_token {scan : σ → Scan K V F σ} {s s' : σ} {k : K} {v : V}
    (h : Lexes scan s k v s') : ∃ s₁, Within scan s s₁ ∧ scan s₁ = .token k v s' := by
  induction h with
  | token hs => exact ⟨_, .refl _, hs⟩
  | more hs _ ih =>
    obtain ⟨s₁, hwithin, hscan⟩ := ih
    exact ⟨s₁, .more hs hwithin, hscan⟩

theorem Within.lexes_iff {scan : σ → Scan K V F σ} {s s₁ s' : σ} {k : K} {v : V}
    (h : Within scan s s₁) : Lexes scan s k v s' ↔ Lexes scan s₁ k v s' := by
  induction h with
  | refl => rfl
  | more hs _ ih =>
    refine Iff.trans ⟨fun hlex => ?_, .more hs⟩ ih
    cases hlex with
    | token hs' =>
      rw [hs] at hs'
      exact absurd hs' (by simp)
    | more hs' hlex =>
      rw [hs] at hs'
      obtain rfl := Scan.more.inj hs'
      exact hlex

/-- The tokens of consecutive calls of a scanner. -/
inductive Yields (enter : σ → σ) (scan : σ → Scan K V F σ) : σ → List (K × V) → σ → Prop where
  | nil (s : σ) : Yields enter scan s [] s
  | cons {s s₁ s' : σ} {k : K} {v : V} {ts : List (K × V)} (h : Lexes scan (enter s) k v s₁)
      (hs : Yields enter scan s₁ ts s') : Yields enter scan s ((k, v) :: ts) s'

theorem yields_cons_iff {enter : σ → σ} {scan : σ → Scan K V F σ} {s s₁ s' : σ} {k k₁ : K} {v v₁ : V}
    {ts : List (K × V)} (h : Lexes scan (enter s) k₁ v₁ s₁) :
    Yields enter scan s ((k, v) :: ts) s' ↔ k = k₁ ∧ v = v₁ ∧ Yields enter scan s₁ ts s' := by
  constructor
  · intro hy
    cases hy with
    | cons hlex hrest =>
      obtain ⟨rfl, rfl, rfl⟩ := hlex.unique h
      exact ⟨rfl, rfl, hrest⟩
  · rintro ⟨rfl, rfl, hrest⟩
    exact .cons h hrest

theorem Yields.unique {enter : σ → σ} {scan : σ → Scan K V F σ} {s s₁ s₂ : σ} {ts : List (K × V)}
    (h₁ : Yields enter scan s ts s₁) (h₂ : Yields enter scan s ts s₂) : s₁ = s₂ := by
  induction h₁ with
  | nil =>
    cases h₂
    rfl
  | cons hlex _ ih => exact ih ((yields_cons_iff hlex).1 h₂).2.2

/-- Of two lists of tokens from one state, one continues the other. -/
theorem Yields.compare {enter : σ → σ} {scan : σ → Scan K V F σ} {s s₁ s₂ : σ} {ts ts' : List (K × V)}
    (h₁ : Yields enter scan s ts s₁) (h₂ : Yields enter scan s ts' s₂) : ts <+: ts' ∨ ts' <+: ts := by
  induction h₁ generalizing ts' with
  | nil => exact Or.inl List.nil_prefix
  | cons hlex _ ih =>
    cases h₂ with
    | nil => exact Or.inr List.nil_prefix
    | cons hlex' hrest =>
      obtain ⟨rfl, rfl, rfl⟩ := hlex.unique hlex'
      exact (ih hrest).imp (List.cons_prefix_cons.2 ⟨rfl, ·⟩) (List.cons_prefix_cons.2 ⟨rfl, ·⟩)

theorem yields_append_iff {enter : σ → σ} {scan : σ → Scan K V F σ} {s s' : σ} {ts ts' : List (K × V)} :
    Yields enter scan s (ts ++ ts') s' ↔
      ∃ s₁, Yields enter scan s ts s₁ ∧ Yields enter scan s₁ ts' s' := by
  constructor
  · intro h
    induction ts generalizing s with
    | nil => exact ⟨s, .nil s, h⟩
    | cons t ts ih =>
      cases h with
      | cons hlex hrest =>
        obtain ⟨s₁, h₁, h₂⟩ := ih hrest
        exact ⟨s₁, .cons hlex h₁, h₂⟩
  · rintro ⟨s₁, h₁, h₂⟩
    induction h₁ with
    | nil => exact h₂
    | cons hlex _ ih => exact .cons hlex (ih h₂)

inductive Action (R : Type) where
  | shift (q : ℕ)
  | reduce (r : R)
  | error

/-- The tables and the actions of a parser. `consistent` holds the reductions that are made
without looking at a token, `goto` is indexed by the state that a reduction uncovers and by
its rule, and `maxDepth` is the number of stack entries at which a parser of limited depth
gives up. -/
structure Parser (K V R F σ : Type) where
  final : ℕ
  consistent : ℕ → Option R
  action : ℕ → K → Action R
  arity : R → ℕ
  goto : ℕ → R → ℕ
  semantics : R → List V → σ → Reduce V F σ
  enter : σ → σ
  scan : σ → Scan K V F σ
  maxDepth : Option ℕ

inductive Look (K V : Type) where
  | empty
  | scanning
  | token (k : K) (v : V)

/-- The stack is kept without its bottom entry, which is always that of state 0. -/
structure Config (K V σ : Type) where
  stack : List (ℕ × V)
  look : Look K V
  state : σ

/-- The result of the generated function: 0, 1 and 2. -/
inductive Code where
  | accepted
  | rejected
  | exhausted
  deriving DecidableEq, Repr

inductive Result (F σ : Type) where
  | returned (code : Code) (s : σ)
  | fault (f : F)

inductive Next (K V F σ : Type) where
  | config (c : Config K V σ)
  | stop (r : Result F σ)

def top : List (ℕ × V) → ℕ
  | [] => 0
  | (q, _) :: _ => q

namespace Parser

variable (p : Parser K V R F σ)

def full (stack : List (ℕ × V)) : Bool :=
  match p.maxDepth with
  | none => false
  | some d => decide (d ≤ stack.length + 1)

def push (stack : List (ℕ × V)) (q : ℕ) (v : V) (look : Look K V) (s : σ) : Next K V F σ :=
  if p.full ((q, v) :: stack) then .stop (.returned .exhausted s)
  else .config ⟨(q, v) :: stack, look, s⟩

def reduce (c : Config K V σ) (r : R) : Next K V F σ :=
  let args := ((c.stack.take (p.arity r)).map Prod.snd).reverse
  let stack := c.stack.drop (p.arity r)
  match p.semantics r args c.state with
  | .value v s => p.push stack (p.goto (top stack) r) v c.look s
  | .accept s => .stop (.returned .accepted s)
  | .abort s => .stop (.returned .rejected s)
  | .fault f => .stop (.fault f)

def step (c : Config K V σ) : Next K V F σ :=
  if top c.stack = p.final then .stop (.returned .accepted c.state) else
  match p.consistent (top c.stack) with
  | some r => p.reduce c r
  | none =>
    match c.look with
    | .empty => .config { c with look := .scanning, state := p.enter c.state }
    | .scanning =>
      match p.scan c.state with
      | .more s => .config { c with state := s }
      | .token k v s => .config { c with look := .token k v, state := s }
      | .fault f => .stop (.fault f)
    | .token k v =>
      match p.action (top c.stack) k with
      | .shift q => p.push c.stack q v .empty c.state
      | .reduce r => p.reduce c r
      | .error => .stop (.returned .rejected c.state)

def run : ℕ → Config K V σ → Option (Result F σ)
  | 0, _ => none
  | n + 1, c =>
    match p.step c with
    | .config c' => run n c'
    | .stop r => some r

/-- The machine started in `c` stops with the result `r`. -/
def Halts (c : Config K V σ) (r : Result F σ) : Prop := ∃ n, p.run n c = some r

def start (s : σ) : Config K V σ := ⟨[], .empty, s⟩

variable {p} {c c' : Config K V σ} {r r' : Result F σ}

theorem halts_of_config (h : p.step c = .config c') : p.Halts c r ↔ p.Halts c' r := by
  refine ⟨fun hw => ?_, fun hw => ?_⟩
  · obtain ⟨n, hn⟩ := hw
    cases n with
    | zero => simp [run] at hn
    | succ n => exact ⟨n, by simpa [run, h] using hn⟩
  · obtain ⟨n, hn⟩ := hw
    exact ⟨n + 1, by simpa [run, h] using hn⟩

theorem halts_of_stop (h : p.step c = .stop r') : p.Halts c r ↔ r = r' := by
  refine ⟨fun hw => ?_, fun hw => ?_⟩
  · obtain ⟨n, hn⟩ := hw
    cases n with
    | zero => simp [run] at hn
    | succ n => simpa [run, h, eq_comm] using hn
  · subst hw
    exact ⟨1, by simp [run, h]⟩

theorem Halts.unique (h : p.Halts c r) (h' : p.Halts c r') : r = r' := by
  obtain ⟨n, hn⟩ := h
  induction n generalizing c with
  | zero => simp [run] at hn
  | succ n ih =>
    cases hs : p.step c with
    | config c' =>
      simp only [run, hs] at hn
      exact ih ((halts_of_config hs).1 h') hn
    | stop r₀ =>
      simp only [run, hs, Option.some.injEq] at hn
      rw [← hn, (halts_of_stop hs).1 h']

/-- The machine gets from one configuration to another, and is in automaton states of `Q` until
then. -/
inductive Path (p : Parser K V R F σ) (Q : ℕ → Prop) : Config K V σ → Config K V σ → Prop where
  | refl (c : Config K V σ) : Path p Q c c
  | step {c c₁ c' : Config K V σ} (hQ : Q (top c.stack)) (hs : p.step c = .config c₁)
    (h : Path p Q c₁ c') : Path p Q c c'

variable {Q : ℕ → Prop} {c₁ : Config K V σ}

theorem Path.trans (h : Path p Q c c₁) (h' : Path p Q c₁ c') : Path p Q c c' := by
  induction h with
  | refl => exact h'
  | step hQ hs _ ih => exact .step hQ hs (ih h')

theorem Path.halts (h : Path p Q c c') : p.Halts c r ↔ p.Halts c' r := by
  induction h with
  | refl => rfl
  | step _ hs _ ih => exact (halts_of_config hs).trans ih

theorem Path.run (h : Path p Q c c') {n : ℕ} (hr : p.run n c = some r) : ∃ m ≤ n, p.run m c' = some r := by
  induction h generalizing n with
  | refl => exact ⟨n, le_rfl, hr⟩
  | step _ hs _ ih =>
    cases n with
    | zero => simp [Parser.run] at hr
    | succ n =>
      rw [Parser.run, hs] at hr
      obtain ⟨m, hm, hrun⟩ := ih hr
      exact ⟨m, hm.trans (Nat.le_succ n), hrun⟩

theorem Path.mono {Q' : ℕ → Prop} (h : Path p Q c c') (hQQ' : ∀ q, Q q → Q' q) : Path p Q' c c' := by
  induction h with
  | refl => exact .refl _
  | step hQ hs _ ih => exact .step (hQQ' _ hQ) hs ih

variable {stack : List (ℕ × V)} {s s' : σ} {k : K} {v : V} {q : ℕ} {rule : R}

theorem halts_final (h : top stack = p.final) {look : Look K V} :
    p.Halts ⟨stack, look, s⟩ r ↔ r = .returned .accepted s :=
  halts_of_stop (by simp [step, h])

/-- A state that needs a token, and has none, calls the scanner. -/
theorem halts_enter (hf : top stack ≠ p.final) (hc : p.consistent (top stack) = none) :
    p.Halts ⟨stack, .empty, s⟩ r ↔ p.Halts ⟨stack, .scanning, p.enter s⟩ r :=
  halts_of_config (by simp [step, hf, hc])

theorem halts_more (hf : top stack ≠ p.final) (hc : p.consistent (top stack) = none)
    (hs : p.scan s = .more s') :
    p.Halts ⟨stack, .scanning, s⟩ r ↔ p.Halts ⟨stack, .scanning, s'⟩ r :=
  halts_of_config (by simp [step, hf, hc, hs])

theorem halts_token (hf : top stack ≠ p.final) (hc : p.consistent (top stack) = none)
    (hs : p.scan s = .token k v s') :
    p.Halts ⟨stack, .scanning, s⟩ r ↔ p.Halts ⟨stack, .token k v, s'⟩ r :=
  halts_of_config (by simp [step, hf, hc, hs])

theorem halts_scan_fault (hf : top stack ≠ p.final) (hc : p.consistent (top stack) = none)
    {f : F} (hs : p.scan s = .fault f) :
    p.Halts ⟨stack, .scanning, s⟩ r ↔ r = .fault f :=
  halts_of_stop (by simp [step, hf, hc, hs])

/-- A call of the scanner that takes one rule. -/
theorem halts_read (hf : top stack ≠ p.final) (hc : p.consistent (top stack) = none)
    (hs : p.scan (p.enter s) = .token k v s') :
    p.Halts ⟨stack, .empty, s⟩ r ↔ p.Halts ⟨stack, .token k v, s'⟩ r :=
  (halts_enter hf hc).trans (halts_token hf hc hs)

theorem path_scanning (hQ : Q (top stack)) (hf : top stack ≠ p.final)
    (hc : p.consistent (top stack) = none) (h : Lexes p.scan s k v s') :
    Path p Q ⟨stack, .scanning, s⟩ ⟨stack, .token k v, s'⟩ := by
  induction h with
  | token hs => exact .step hQ (by simp [step, hf, hc, hs]) (.refl _)
  | more hs _ ih => exact .step hQ (by simp [step, hf, hc, hs]) ih

theorem path_lex (hQ : Q (top stack)) (hf : top stack ≠ p.final)
    (hc : p.consistent (top stack) = none) (h : Lexes p.scan (p.enter s) k v s') :
    Path p Q ⟨stack, .empty, s⟩ ⟨stack, .token k v, s'⟩ :=
  .step hQ (by simp [step, hf, hc]) (path_scanning hQ hf hc h)

theorem path_shift (hQ : Q (top stack)) (hf : top stack ≠ p.final)
    (hc : p.consistent (top stack) = none) (ha : p.action (top stack) k = .shift q)
    (hroom : p.full ((q, v) :: stack) = false) :
    Path p Q ⟨stack, .token k v, s⟩ ⟨(q, v) :: stack, .empty, s⟩ :=
  .step hQ (by simp [step, hf, hc, ha, push, hroom]) (.refl _)

theorem halts_shift (hf : top stack ≠ p.final) (hc : p.consistent (top stack) = none)
    (ha : p.action (top stack) k = .shift q) (hroom : p.full ((q, v) :: stack) = false) :
    p.Halts ⟨stack, .token k v, s⟩ r ↔ p.Halts ⟨(q, v) :: stack, .empty, s⟩ r :=
  (path_shift (Q := fun _ => True) trivial hf hc ha hroom).halts

theorem halts_lex (hf : top stack ≠ p.final) (hc : p.consistent (top stack) = none)
    (h : Lexes p.scan (p.enter s) k v s') :
    p.Halts ⟨stack, .empty, s⟩ r ↔ p.Halts ⟨stack, .token k v, s'⟩ r :=
  (path_lex (Q := fun _ => True) trivial hf hc h).halts

/-- A call of the scanner whose token is shifted. -/
theorem halts_lex_shift (hf : top stack ≠ p.final) (hc : p.consistent (top stack) = none)
    (h : Lexes p.scan (p.enter s) k v s') (ha : p.action (top stack) k = .shift q)
    (hroom : p.full ((q, v) :: stack) = false) :
    p.Halts ⟨stack, .empty, s⟩ r ↔ p.Halts ⟨(q, v) :: stack, .empty, s'⟩ r :=
  (halts_lex hf hc h).trans (halts_shift hf hc ha hroom)

theorem halts_read_fault (hf : top stack ≠ p.final) (hc : p.consistent (top stack) = none)
    {f : F} (hs : p.scan (p.enter s) = .fault f) :
    p.Halts ⟨stack, .empty, s⟩ r ↔ r = .fault f :=
  (halts_enter hf hc).trans (halts_scan_fault hf hc hs)

theorem halts_shift_full (hf : top stack ≠ p.final) (hc : p.consistent (top stack) = none)
    (ha : p.action (top stack) k = .shift q) (hroom : p.full ((q, v) :: stack) = true) :
    p.Halts ⟨stack, .token k v, s⟩ r ↔ r = .returned .exhausted s :=
  halts_of_stop (by simp [step, hf, hc, ha, push, hroom])

theorem halts_error (hf : top stack ≠ p.final) (hc : p.consistent (top stack) = none)
    (ha : p.action (top stack) k = .error) :
    p.Halts ⟨stack, .token k v, s⟩ r ↔ r = .returned .rejected s :=
  halts_of_stop (by simp [step, hf, hc, ha])

/-- A scanner that is asked for a token has one, or it fails. -/
theorem lexes_of_run (hf : top stack ≠ p.final) (hc : p.consistent (top stack) = none) {n : ℕ}
    (hn : p.run n ⟨stack, .scanning, s⟩ = some r) :
    (∃ k v s', Lexes p.scan s k v s' ∧ ∃ m < n, p.run m ⟨stack, .token k v, s'⟩ = some r) ∨
      ∃ f, r = .fault f := by
  induction n generalizing s with
  | zero => simp [run] at hn
  | succ n ih =>
    cases hs : p.scan s with
    | more s' =>
      have hstep : p.step ⟨stack, .scanning, s⟩ = .config ⟨stack, .scanning, s'⟩ := by
        simp [step, hf, hc, hs]
      rw [run, hstep] at hn
      refine (ih hn).imp_left fun h => ?_
      obtain ⟨k, v, s'', hlex, m, hm, hrun⟩ := h
      exact ⟨k, v, s'', .more hs hlex, m, hm.trans (Nat.lt_succ_self n), hrun⟩
    | token k v s' =>
      have hstep : p.step ⟨stack, .scanning, s⟩ = .config ⟨stack, .token k v, s'⟩ := by
        simp [step, hf, hc, hs]
      rw [run, hstep] at hn
      exact Or.inl ⟨k, v, s', .token hs, n, Nat.lt_succ_self n, hn⟩
    | fault f => exact Or.inr ⟨f, (halts_scan_fault hf hc hs).1 ⟨n + 1, hn⟩⟩

theorem Halts.lexes (hf : top stack ≠ p.final) (hc : p.consistent (top stack) = none)
    (h : p.Halts ⟨stack, .scanning, s⟩ r) :
    (∃ k v s', Lexes p.scan s k v s' ∧ p.Halts ⟨stack, .token k v, s'⟩ r) ∨ ∃ f, r = .fault f := by
  obtain ⟨n, hn⟩ := h
  refine (lexes_of_run hf hc hn).imp_left fun h => ?_
  obtain ⟨k, v, s', hlex, m, -, hrun⟩ := h
  exact ⟨k, v, s', hlex, m, hrun⟩

/-- The part of a run that a call of the scanner leaves. -/
theorem read_of_run (hf : top stack ≠ p.final) (hc : p.consistent (top stack) = none) {n : ℕ}
    (hn : p.run n ⟨stack, .empty, s⟩ = some r) :
    (∃ k v s', Lexes p.scan (p.enter s) k v s' ∧ ∃ m < n, p.run m ⟨stack, .token k v, s'⟩ = some r) ∨
      ∃ f, r = .fault f := by
  cases n with
  | zero => simp [run] at hn
  | succ n =>
    have hstep : p.step ⟨stack, .empty, s⟩ = .config ⟨stack, .scanning, p.enter s⟩ := by
      simp [step, hf, hc]
    rw [run, hstep] at hn
    refine (lexes_of_run hf hc hn).imp_left fun h => ?_
    obtain ⟨k, v, s', hlex, m, hm, hrun⟩ := h
    exact ⟨k, v, s', hlex, m, hm.trans (Nat.lt_succ_self n), hrun⟩

/-- The state reduces by `rule`, whatever the next token or because of the one it has. -/
def Reduces (p : Parser K V R F σ) (q : ℕ) (look : Look K V) (rule : R) : Prop :=
  p.consistent q = some rule ∨
    p.consistent q = none ∧ ∃ k v, look = .token k v ∧ p.action q k = .reduce rule

theorem step_of_reduces {look : Look K V} (hf : top stack ≠ p.final)
    (h : Reduces p (top stack) look rule) :
    p.step ⟨stack, look, s⟩ = p.reduce ⟨stack, look, s⟩ rule := by
  rcases h with hc | ⟨hc, k, v, rfl, ha⟩
  · simp [step, hf, hc]
  · simp [step, hf, hc, ha]

variable (args rest : List (ℕ × V)) {look : Look K V}

theorem reduce_append (ha : args.length = p.arity rule) :
    p.reduce ⟨args ++ rest, look, s⟩ rule =
      match p.semantics rule (args.map Prod.snd).reverse s with
      | .value v s => p.push rest (p.goto (top rest) rule) v look s
      | .accept s => .stop (.returned .accepted s)
      | .abort s => .stop (.returned .rejected s)
      | .fault f => .stop (.fault f) := by
  simp [reduce, ← ha]

theorem path_reduce (hQ : Q (top (args ++ rest))) (hf : top (args ++ rest) ≠ p.final)
    (h : Reduces p (top (args ++ rest)) look rule) (ha : args.length = p.arity rule)
    (hv : p.semantics rule (args.map Prod.snd).reverse s = .value v s')
    (hroom : p.full ((p.goto (top rest) rule, v) :: rest) = false) :
    Path p Q ⟨args ++ rest, look, s⟩ ⟨(p.goto (top rest) rule, v) :: rest, look, s'⟩ :=
  .step hQ (by simp [step_of_reduces hf h, reduce_append args rest ha, hv, push, hroom]) (.refl _)

theorem halts_reduce (hf : top (args ++ rest) ≠ p.final)
    (h : Reduces p (top (args ++ rest)) look rule) (ha : args.length = p.arity rule)
    (hv : p.semantics rule (args.map Prod.snd).reverse s = .value v s')
    (hroom : p.full ((p.goto (top rest) rule, v) :: rest) = false) :
    p.Halts ⟨args ++ rest, look, s⟩ r ↔
      p.Halts ⟨(p.goto (top rest) rule, v) :: rest, look, s'⟩ r :=
  (path_reduce (Q := fun _ => True) args rest trivial hf h ha hv hroom).halts

theorem halts_reduce_full (hf : top (args ++ rest) ≠ p.final)
    (h : Reduces p (top (args ++ rest)) look rule) (ha : args.length = p.arity rule)
    (hv : p.semantics rule (args.map Prod.snd).reverse s = .value v s')
    (hroom : p.full ((p.goto (top rest) rule, v) :: rest) = true) :
    p.Halts ⟨args ++ rest, look, s⟩ r ↔ r = .returned .exhausted s' :=
  halts_of_stop (by simp [step_of_reduces hf h, reduce_append args rest ha, hv, push, hroom])

theorem halts_reduce_accept (hf : top (args ++ rest) ≠ p.final)
    (h : Reduces p (top (args ++ rest)) look rule) (ha : args.length = p.arity rule)
    (hv : p.semantics rule (args.map Prod.snd).reverse s = .accept s') :
    p.Halts ⟨args ++ rest, look, s⟩ r ↔ r = .returned .accepted s' :=
  halts_of_stop (by simp [step_of_reduces hf h, reduce_append args rest ha, hv])

theorem halts_reduce_abort (hf : top (args ++ rest) ≠ p.final)
    (h : Reduces p (top (args ++ rest)) look rule) (ha : args.length = p.arity rule)
    (hv : p.semantics rule (args.map Prod.snd).reverse s = .abort s') :
    p.Halts ⟨args ++ rest, look, s⟩ r ↔ r = .returned .rejected s' :=
  halts_of_stop (by simp [step_of_reduces hf h, reduce_append args rest ha, hv])

theorem halts_reduce_fault (hf : top (args ++ rest) ≠ p.final)
    (h : Reduces p (top (args ++ rest)) look rule) (ha : args.length = p.arity rule) {f : F}
    (hv : p.semantics rule (args.map Prod.snd).reverse s = .fault f) :
    p.Halts ⟨args ++ rest, look, s⟩ r ↔ r = .fault f :=
  halts_of_stop (by simp [step_of_reduces hf h, reduce_append args rest ha, hv])

/-- A state that reduces by one rule whatever the token is may as well read the token after the
reduction, when the action of the rule leaves the state of the scanner alone. -/
theorem halts_reduce_first (hf : top (args ++ rest) ≠ p.final)
    (hc : p.consistent (top (args ++ rest)) = none) (hs : p.scan (p.enter s) = .token k v s')
    (hr : p.action (top (args ++ rest)) k = .reduce rule) (ha : args.length = p.arity rule) {w : V}
    (hv : p.semantics rule (args.map Prod.snd).reverse s' = .value w s')
    (hroom : p.full ((p.goto (top rest) rule, w) :: rest) = false)
    (hf' : top ((p.goto (top rest) rule, w) :: rest) ≠ p.final)
    (hc' : p.consistent (top ((p.goto (top rest) rule, w) :: rest)) = none) :
    p.Halts ⟨args ++ rest, .empty, s⟩ r ↔
      p.Halts ⟨(p.goto (top rest) rule, w) :: rest, .empty, s⟩ r := by
  refine (halts_read hf hc hs).trans
    ((halts_reduce args rest hf (Or.inr ⟨hc, k, v, rfl, hr⟩) ha hv hroom).trans ?_)
  exact (halts_read hf' hc' hs).symm

/-- `c'` is the first configuration of the machine started in `c` that is in the state `q` of the
automaton. -/
def Enters (p : Parser K V R F σ) (q : ℕ) (c c' : Config K V σ) : Prop :=
  Path p (· ≠ q) c c' ∧ top c'.stack = q

theorem Enters.unique (h : p.Enters q c c₁) (h' : p.Enters q c c') : c₁ = c' := by
  obtain ⟨hpath, htop⟩ := h
  obtain ⟨hpath', htop'⟩ := h'
  induction hpath with
  | refl =>
    cases hpath' with
    | refl => rfl
    | step hQ _ _ => exact absurd htop hQ
  | step hQ hs _ ih =>
    cases hpath' with
    | refl => exact absurd htop' hQ
    | step _ hs' h' =>
      obtain rfl : _ = _ := Next.config.inj (hs.symm.trans hs')
      exact ih htop h'

/-- The machine stops before it gets to the state `q`. -/
def StopsBefore (p : Parser K V R F σ) (q : ℕ) (c : Config K V σ) (r : Result F σ) : Prop :=
  ∃ c', Path p (· ≠ q) c c' ∧ top c'.stack ≠ q ∧ p.step c' = .stop r

theorem StopsBefore.halts (h : p.StopsBefore q c r') : p.Halts c r ↔ r = r' := by
  obtain ⟨c', hpath, -, hstop⟩ := h
  exact hpath.halts.trans (halts_of_stop hstop)

theorem StopsBefore.of_path (hpath : Path p (· ≠ q) c c₁) (h : p.StopsBefore q c₁ r) :
    p.StopsBefore q c r := by
  obtain ⟨c', hpath', hstop⟩ := h
  exact ⟨c', hpath.trans hpath', hstop⟩

theorem StopsBefore.not_enters (h : p.StopsBefore q c r) : ¬ p.Enters q c c' := by
  obtain ⟨c₂, hpath, htop, hstop⟩ := h
  rintro ⟨hpath', htop'⟩
  induction hpath with
  | refl =>
    cases hpath' with
    | refl => exact htop htop'
    | step _ hs _ =>
      rw [hstop] at hs
      cases hs
  | step hQ hs _ ih =>
    cases hpath' with
    | refl => exact hQ htop'
    | step _ hs' hrest =>
      obtain rfl : _ = _ := Next.config.inj (hs.symm.trans hs')
      exact ih htop hstop hrest

theorem push_state {look : Look K V} (h : p.push stack q v look s = .config c') : c'.state = s := by
  unfold push at h
  split_ifs at h
  rw [← Next.config.inj h]

theorem reduce_state (h : p.reduce c rule = .config c') :
    ∃ vs, (p.semantics rule vs c.state).next = some c'.state := by
  unfold reduce at h
  dsimp only at h
  split at h
  · rename_i v s hv
    rw [push_state h]
    exact ⟨_, by rw [hv, Reduce.next]⟩
  all_goals simp at h

/-- What a step does to the state of the scanner. -/
theorem step_state (h : p.step c = .config c') :
    c'.state = c.state ∨ c'.state = p.enter c.state ∨ (p.scan c.state).next = some c'.state ∨
      ∃ rule vs, (p.semantics rule vs c.state).next = some c'.state := by
  unfold step at h
  split at h
  · simp at h
  split at h
  · exact Or.inr (Or.inr (Or.inr ⟨_, reduce_state h⟩))
  split at h
  · rw [← Next.config.inj h]
    exact Or.inr (Or.inl rfl)
  · refine Or.inr (Or.inr (Or.inl ?_))
    split at h
    · rename_i hscan
      rw [← Next.config.inj h, hscan, Scan.next]
    · rename_i hscan
      rw [← Next.config.inj h, hscan, Scan.next]
    · simp at h
  · split at h
    · exact Or.inl (push_state h)
    · exact Or.inr (Or.inr (Or.inr ⟨_, reduce_state h⟩))
    · simp at h

/-- What the scanner and the actions of the grammar keep, the machine keeps. -/
theorem Path.keeps {Inv : σ → Prop} (henter : ∀ s, Inv s → Inv (p.enter s))
    (hscan : ∀ s s', Inv s → (p.scan s).next = some s' → Inv s')
    (hsemantics : ∀ rule vs s s', Inv s → (p.semantics rule vs s).next = some s' → Inv s')
    (h : Path p Q c c') (hc : Inv c.state) : Inv c'.state := by
  induction h with
  | refl => exact hc
  | step _ hs _ ih =>
    apply ih
    rcases step_state hs with h | h | h | ⟨rule, vs, h⟩
    · rw [h]
      exact hc
    · rw [h]
      exact henter _ hc
    · exact hscan _ _ hc h
    · exact hsemantics rule vs _ _ hc h

variable {code : Code}

theorem push_stop {s' : σ} {look : Look K V} (h : p.push stack q v look s = .stop (.returned code s')) :
    s' = s := by
  unfold push at h
  split_ifs at h
  exact (Result.returned.inj (Next.stop.inj h)).2.symm

theorem reduce_stop (h : p.reduce c rule = .stop (.returned code s)) :
    ∃ vs, (p.semantics rule vs c.state).next = some s := by
  unfold reduce at h
  dsimp only at h
  split at h
  · rename_i v s₁ hv
    rw [push_stop h]
    exact ⟨_, by rw [hv, Reduce.next]⟩
  · rename_i hv
    obtain ⟨-, rfl⟩ := Result.returned.inj (Next.stop.inj h)
    exact ⟨_, by rw [hv, Reduce.next]⟩
  · rename_i hv
    obtain ⟨-, rfl⟩ := Result.returned.inj (Next.stop.inj h)
    exact ⟨_, by rw [hv, Reduce.next]⟩
  · simp at h

/-- Where the machine stops, it has made one reduction more at most. -/
theorem step_stop (h : p.step c = .stop (.returned code s)) :
    s = c.state ∨ ∃ rule vs, (p.semantics rule vs c.state).next = some s := by
  unfold step at h
  split at h
  · exact Or.inl (Result.returned.inj (Next.stop.inj h)).2.symm
  split at h
  · exact Or.inr ⟨_, reduce_stop h⟩
  split at h
  · simp at h
  · split at h <;> simp at h
  · split at h
    · exact Or.inl (push_stop h)
    · exact Or.inr ⟨_, reduce_stop h⟩
    · exact Or.inl (Result.returned.inj (Next.stop.inj h)).2.symm

/-- What the scanner and the actions keep is true of the state that is returned. -/
theorem Halts.keeps {Inv : σ → Prop} (henter : ∀ s, Inv s → Inv (p.enter s))
    (hscan : ∀ s s', Inv s → (p.scan s).next = some s' → Inv s')
    (hsemantics : ∀ rule vs s s', Inv s → (p.semantics rule vs s).next = some s' → Inv s')
    (h : p.Halts c (.returned code s)) (hc : Inv c.state) : Inv s := by
  obtain ⟨n, hn⟩ := h
  induction n generalizing c with
  | zero => simp [run] at hn
  | succ n ih =>
    cases hs : p.step c with
    | config c' =>
      simp only [run, hs] at hn
      refine ih ?_ hn
      rcases step_state hs with h | h | h | ⟨rule, vs, h⟩
      · rw [h]
        exact hc
      · rw [h]
        exact henter _ hc
      · exact hscan _ _ hc h
      · exact hsemantics rule vs _ _ hc h
    | stop r =>
      simp only [run, hs, Option.some.injEq] at hn
      subst hn
      rcases step_stop hs with h | ⟨rule, vs, h⟩
      · rw [h]
        exact hc
      · exact hsemantics rule vs _ _ hc h

variable {τ : Type}

def reduceBeside (t : τ) : Reduce V F σ → Reduce V F (σ × τ)
  | .value v s => .value v (s, t)
  | .accept s => .accept (s, t)
  | .abort s => .abort (s, t)
  | .fault f => .fault f

def configBeside (t : τ) (c : Config K V σ) : Config K V (σ × τ) := ⟨c.stack, c.look, (c.state, t)⟩

def nextBeside (t : τ) : Next K V F σ → Next K V F (σ × τ)
  | .config c => .config (configBeside t c)
  | .stop (.returned code s) => .stop (.returned code (s, t))
  | .stop (.fault f) => .stop (.fault f)

variable (p) in
def rescan (enter : σ × τ → σ × τ) (scan : σ × τ → Scan K V F (σ × τ)) : Parser K V R F (σ × τ) where
  final := p.final
  consistent := p.consistent
  action := p.action
  arity := p.arity
  goto := p.goto
  semantics := fun rule vs s => reduceBeside s.2 (p.semantics rule vs s.1)
  enter := enter
  scan := scan
  maxDepth := p.maxDepth

def Asks (p : Parser K V R F σ) (c : Config K V σ) : Prop :=
  c.look = .empty ∧ top c.stack ≠ p.final ∧ p.consistent (top c.stack) = none

variable {enter : σ × τ → σ × τ} {scan : σ × τ → Scan K V F (σ × τ)}

@[simp] theorem rescan_final : (p.rescan enter scan).final = p.final := rfl

@[simp] theorem rescan_consistent : (p.rescan enter scan).consistent = p.consistent := rfl

@[simp] theorem rescan_action : (p.rescan enter scan).action = p.action := rfl

@[simp] theorem rescan_arity : (p.rescan enter scan).arity = p.arity := rfl

@[simp] theorem rescan_goto : (p.rescan enter scan).goto = p.goto := rfl

@[simp] theorem rescan_semantics (rule : R) (vs : List V) (s : σ) (t : τ) :
    (p.rescan enter scan).semantics rule vs (s, t) = reduceBeside t (p.semantics rule vs s) := rfl

theorem push_rescan (look : Look K V) (t : τ) :
    (p.rescan enter scan).push stack q v look (s, t) = nextBeside t (p.push stack q v look s) := by
  have hfull : (p.rescan enter scan).full ((q, v) :: stack) = p.full ((q, v) :: stack) := rfl
  unfold push
  rw [hfull]
  split_ifs <;> rfl

theorem reduce_rescan (look : Look K V) (t : τ) :
    (p.rescan enter scan).reduce ⟨stack, look, (s, t)⟩ rule =
      nextBeside t (p.reduce ⟨stack, look, s⟩ rule) := by
  unfold reduce
  simp only [rescan_arity, rescan_semantics, rescan_goto]
  cases p.semantics rule ((stack.take (p.arity rule)).map Prod.snd).reverse s with
  | value v s => exact push_rescan _ t
  | accept s => rfl
  | abort s => rfl
  | fault f => rfl

/-- A step that does not read is the same with another scanner. -/
theorem step_rescan (hasks : ¬ p.Asks c) (hlook : c.look ≠ .scanning) (t : τ) :
    (p.rescan enter scan).step (configBeside t c) = nextBeside t (p.step c) := by
  obtain ⟨stack, look, s⟩ := c
  by_cases hf : top stack = p.final
  · simp [step, configBeside, hf, nextBeside]
  cases hc : p.consistent (top stack) with
  | some rule =>
    simp only [step, configBeside, rescan_final, rescan_consistent, if_neg hf, hc]
    exact reduce_rescan look t
  | none =>
    cases look with
    | empty => exact absurd ⟨rfl, hf, hc⟩ hasks
    | scanning => exact absurd rfl hlook
    | token k v =>
      simp only [step, configBeside, rescan_final, rescan_consistent, rescan_action, if_neg hf, hc]
      cases p.action (top stack) k with
      | shift q => exact push_rescan _ t
      | reduce rule => exact reduce_rescan _ t
      | error => rfl

theorem push_look {look : Look K V} (h : p.push stack q v look s = .config c') : c'.look = look := by
  unfold push at h
  split_ifs at h
  rw [← Next.config.inj h]

theorem reduce_look (h : p.reduce c rule = .config c') : c'.look = c.look := by
  unfold reduce at h
  dsimp only at h
  split at h
  · exact push_look h
  all_goals simp at h

theorem step_not_asks (hasks : ¬ p.Asks c) (hlook : c.look ≠ .scanning) (h : p.step c = .config c') :
    c'.look ≠ .scanning ∧ (c'.state = c.state ∨
      ∃ rule vs, (p.semantics rule vs c.state).next = some c'.state) := by
  unfold step at h
  split at h
  · simp at h
  rename_i hf
  split at h
  · exact ⟨reduce_look h ▸ hlook, Or.inr ⟨_, reduce_state h⟩⟩
  rename_i hc
  split at h
  · rename_i hempty
    exact absurd ⟨hempty, hf, hc⟩ hasks
  · rename_i hscanning
    exact absurd hscanning hlook
  · split at h
    · exact ⟨by rw [push_look h]; simp, Or.inl (push_state h)⟩
    · exact ⟨reduce_look h ▸ hlook, Or.inr ⟨_, reduce_state h⟩⟩
    · simp at h

/-- A path on which the scanner could only fail does not read, and is one with any scanner. -/
theorem Path.rescan {Idle : σ → Prop} (hidle : ∀ s, Idle s → ∃ f, p.scan (p.enter s) = .fault f)
    (hsemantics : ∀ rule vs s s', Idle s → (p.semantics rule vs s).next = some s' → Idle s')
    (h : Path p Q c c') (hc : Idle c.state) (hlook : c.look ≠ .scanning)
    (hlook' : c'.look ≠ .scanning) (t : τ) :
    Path (p.rescan enter scan) Q (configBeside t c) (configBeside t c') := by
  induction h with
  | refl => exact .refl _
  | @step c c₁ c' hQ hs hpath ih =>
    by_cases hasks : p.Asks c
    · obtain ⟨hempty, hf, hcons⟩ := hasks
      obtain ⟨f, hfault⟩ := hidle _ hc
      have hs₁ : p.step c = .config { c with look := .scanning, state := p.enter c.state } := by
        simp [Parser.step, hempty, hf, hcons]
      obtain rfl := Next.config.inj (hs.symm.trans hs₁)
      cases hpath with
      | refl => exact absurd rfl hlook'
      | step _ hstop _ => simp [Parser.step, hf, hcons, hfault] at hstop
    · obtain ⟨hlook₁, hstate⟩ := step_not_asks hasks hlook hs
      have hidle₁ : Idle c₁.state := by
        rcases hstate with hstate | ⟨rule, vs, hnext⟩
        · rw [hstate]
          exact hc
        · exact hsemantics rule vs _ _ hc hnext
      refine .step hQ ?_ (ih hidle₁ hlook₁ hlook')
      rw [step_rescan hasks hlook, hs]
      rfl

end Parser

end Bison
