import Mathlib

/-! Regular expressions that are matched by trying: the first alternative before the second, one
more repetition before none, what follows at once behind what was taken. `Takes` says what an
expression can take, `run` finds the first way to take it so that the rest goes on. A class is built
of what stands between brackets, where that is possible. -/

namespace Backtracking

inductive Regex (α : Type) where
  | empty
  | cls (p : α → Bool)
  | seq (r t : Regex α)
  | alt (r t : Regex α)
  -- any number of times, rather more than less if it is greedy, or else the other way
  | star (greedy : Bool) (r : Regex α)
  | group (i : ℕ) (r : Regex α)

abbrev Groups (α : Type) := ℕ → Option (List α)

abbrev State (α : Type) := Groups α × List α

variable {α β : Type}

/-- The groups once group `i` went from the text `s` to the text that is left. -/
def capture (i : ℕ) (s : List α) (q : State α) : State α :=
  (Function.update q.1 i (some (s.take (s.length - q.2.length))), q.2)

/-- The first of two ways that goes on, in the order that is asked for. -/
def either (inOrder : Bool) (a b : Option β) : Option β := if inOrder then a.or b else b.or a

theorem either_eq_some {inOrder : Bool} {a b : Option β} {x : β} (h : either inOrder a b = some x) :
    a = some x ∨ b = some x := by
  cases inOrder with
  | true => exact (Option.or_eq_some_iff.1 h).imp_right And.right
  | false => exact ((Option.or_eq_some_iff.1 h).imp_right And.right).symm

theorem isSome_either {inOrder : Bool} {a b : Option β} :
    (either inOrder a b).isSome ↔ a.isSome ∨ b.isSome := by
  cases inOrder <;> simp [either, Option.isSome_or, or_comm]

/-- Up to `n` repetitions, as long as each takes something. -/
def loop (greedy : Bool) (body : State α → (State α → Option β) → Option β)
    (k : State α → Option β) : ℕ → State α → Option β
  | 0, p => k p
  | n + 1, p =>
    either greedy
      (body p fun q => if q.2.length < p.2.length then loop greedy body k n q else none) (k p)

namespace Regex

/-- Tries the expression; `k` is what has to be done behind it. -/
def run : Regex α → State α → (State α → Option β) → Option β
  | empty, p, k => k p
  | cls c, p, k =>
    match p.2 with
    | [] => none
    | a :: s => if c a then k (p.1, s) else none
  | seq r t, p, k => r.run p fun q => t.run q k
  | alt r t, p, k => (r.run p k).or (t.run p k)
  | star greedy r, p, k => loop greedy r.run k p.2.length p
  | group i r, p, k => r.run p fun q => k (capture i p.2 q)

/-- `regex_match`: the groups of the first way to take the whole text. -/
def fullMatch (r : Regex α) (s : List α) : Option (Groups α) :=
  r.run (fun _ => none, s) fun q => if q.2 = [] then some q.1 else none

/-- The expression can go from the first state to the second. -/
def Takes : Regex α → State α → State α → Prop
  | empty, p, q => q = p
  | cls c, p, q => ∃ a, c a = true ∧ p.2 = a :: q.2 ∧ q.1 = p.1
  | seq r t, p, q => ∃ m, r.Takes p m ∧ t.Takes m q
  | alt r t, p, q => r.Takes p q ∨ t.Takes p q
  | star _ r, p, q =>
    Relation.ReflTransGen (fun p q => r.Takes p q ∧ q.2.length < p.2.length) p q
  | group i r, p, q => ∃ m, r.Takes p m ∧ q = capture i p.2 m

theorem run_cls_cons (c : α → Bool) (g : Groups α) (a : α) (s : List α) (k : State α → Option β) :
    (cls c).run (g, a :: s) k = if c a then k (g, s) else none := rfl

theorem run_seq (r t : Regex α) (p : State α) (k : State α → Option β) :
    (seq r t).run p k = r.run p fun q => t.run q k := rfl

theorem run_group (i : ℕ) (r : Regex α) (p : State α) (k : State α → Option β) :
    (group i r).run p k = r.run p fun q => k (capture i p.2 q) := rfl

theorem loop_takes {greedy : Bool} {r : Regex α} {k : State α → Option β}
    (ih : ∀ p (k : State α → Option β) x, r.run p k = some x → ∃ q, r.Takes p q ∧ k q = some x)
    {n : ℕ} {p : State α} {x : β} (h : loop greedy r.run k n p = some x) :
    ∃ q, (star greedy r).Takes p q ∧ k q = some x := by
  induction n generalizing p with
  | zero => exact ⟨p, .refl, h⟩
  | succ n ihn =>
    rw [loop] at h
    rcases either_eq_some h with h | h
    · obtain ⟨m, hm, h⟩ := ih _ _ _ h
      split_ifs at h with hlt
      obtain ⟨q, hq, hk⟩ := ihn h
      exact ⟨q, .head ⟨hm, hlt⟩ hq, hk⟩
    · exact ⟨p, .refl, h⟩

/-- What is found is a way that the expression can take. -/
theorem run_takes (r : Regex α) (p : State α) (k : State α → Option β) (x : β)
    (h : r.run p k = some x) : ∃ q, r.Takes p q ∧ k q = some x := by
  induction r generalizing p k x with
  | empty => exact ⟨p, rfl, h⟩
  | cls c =>
    obtain ⟨g, s⟩ := p
    cases s with
    | nil => simp [run] at h
    | cons a s =>
      rw [run_cls_cons] at h
      split_ifs at h with hc
      exact ⟨(g, s), ⟨a, hc, rfl, rfl⟩, h⟩
  | seq r t ihr iht =>
    obtain ⟨m, hm, h⟩ := ihr _ _ _ h
    obtain ⟨q, hq, hk⟩ := iht _ _ _ h
    exact ⟨q, ⟨m, hm, hq⟩, hk⟩
  | alt r t ihr iht =>
    rw [run, Option.or_eq_some_iff] at h
    rcases h with h | ⟨-, h⟩
    · obtain ⟨q, hq, hk⟩ := ihr _ _ _ h
      exact ⟨q, Or.inl hq, hk⟩
    · obtain ⟨q, hq, hk⟩ := iht _ _ _ h
      exact ⟨q, Or.inr hq, hk⟩
  | star greedy r ih => exact loop_takes ih h
  | group i r ih =>
    obtain ⟨m, hm, hk⟩ := ih _ _ _ h
    exact ⟨capture i p.2 m, ⟨m, hm, rfl⟩, hk⟩

theorem loop_isSome {greedy : Bool} {r : Regex α} {k : State α → Option β}
    (ih : ∀ p q (k : State α → Option β), r.Takes p q → (k q).isSome → (r.run p k).isSome)
    {p q : State α} (h : (star greedy r).Takes p q) (hk : (k q).isSome) (n : ℕ)
    (hn : p.2.length ≤ n) : (loop greedy r.run k n p).isSome := by
  induction h using Relation.ReflTransGen.head_induction_on generalizing n with
  | refl =>
    cases n with
    | zero => exact hk
    | succ n => exact isSome_either.2 (Or.inr hk)
  | head hstep _ ihq =>
    obtain ⟨hm, hlt⟩ := hstep
    cases n with
    | zero => omega
    | succ n =>
      refine isSome_either.2 (Or.inl (ih _ _ _ hm ?_))
      rw [if_pos hlt]
      exact ihq n (by omega)

/-- Where there is a way behind which it goes on, one is found. -/
theorem run_isSome (r : Regex α) (p q : State α) (k : State α → Option β) (h : r.Takes p q)
    (hk : (k q).isSome) : (r.run p k).isSome := by
  induction r generalizing p q k with
  | empty => exact h ▸ hk
  | cls c =>
    obtain ⟨g, s⟩ := p
    obtain ⟨g', s'⟩ := q
    obtain ⟨a, hc, hs, hg⟩ := h
    obtain rfl : s = a :: s' := hs
    obtain rfl : g' = g := hg
    rwa [run_cls_cons, if_pos hc]
  | seq r t ihr iht =>
    obtain ⟨m, hm, hq⟩ := h
    exact ihr _ _ _ hm (iht _ _ _ hq hk)
  | alt r t ihr iht =>
    rw [run, Option.isSome_or, Bool.or_eq_true]
    exact h.imp (fun h => ihr _ _ _ h hk) fun h => iht _ _ _ h hk
  | star greedy r ih => exact loop_isSome ih h hk p.2.length le_rfl
  | group i r ih =>
    obtain ⟨m, hm, rfl⟩ := h
    exact ih _ _ _ hm hk

theorem fullMatch_takes {r : Regex α} {s : List α} {g : Groups α} (h : r.fullMatch s = some g) :
    r.Takes (fun _ => none, s) (g, []) := by
  obtain ⟨⟨g', s'⟩, hq, hk⟩ := run_takes _ _ _ _ h
  split_ifs at hk with hnil
  obtain rfl : s' = [] := hnil
  obtain rfl : g' = g := Option.some.inj hk
  exact hq

theorem fullMatch_isSome {r : Regex α} {s : List α} {g : Groups α}
    (h : r.Takes (fun _ => none, s) (g, [])) : (r.fullMatch s).isSome :=
  run_isSome r _ _ _ h rfl

def lit [DecidableEq α] : List α → Regex α
  | [] => empty
  | a :: w => seq (cls fun b => decide (b = a)) (lit w)

def opt (r : Regex α) : Regex α := alt r empty

def plus (r : Regex α) : Regex α := seq r (star true r)

def upTo (r : Regex α) : ℕ → Regex α
  | 0 => empty
  | n + 1 => opt (seq r (upTo r n))

/-- The expression takes the words of `L` and captures nothing. -/
def Plain (r : Regex α) (L : List α → Prop) : Prop :=
  ∀ g s q, r.Takes (g, s) q ↔ q.1 = g ∧ ∃ w, L w ∧ s = w ++ q.2

theorem plain_lit [DecidableEq α] (u : List α) : (lit u).Plain fun w => w = u := by
  induction u with
  | nil =>
    intro g s q
    simp [lit, Takes, Prod.ext_iff, eq_comm]
  | cons a u ih =>
    intro g s q
    constructor
    · rintro ⟨⟨g', s'⟩, ⟨b, hb, hs, hg⟩, hq⟩
      obtain ⟨hq1, w, rfl, hw⟩ := (ih g' s' q).1 hq
      obtain rfl := of_decide_eq_true hb
      exact ⟨hq1.trans hg, b :: w, rfl, hs.trans (congrArg _ hw)⟩
    · rintro ⟨hg, w, rfl, hs⟩
      exact ⟨(g, u ++ q.2), ⟨a, decide_eq_true rfl, hs, rfl⟩, (ih g _ q).2 ⟨hg, u, rfl, rfl⟩⟩

theorem plain_star (greedy : Bool) (c : α → Bool) :
    (star greedy (cls c)).Plain fun w => ∀ a ∈ w, c a = true := by
  intro g s q
  constructor
  · intro h
    induction h with
    | refl => exact ⟨rfl, [], by simp, rfl⟩
    | tail _ hstep ih =>
      obtain ⟨⟨a, ha, hs, hg⟩, -⟩ := hstep
      obtain ⟨hg', w, hw, rfl⟩ := ih
      refine ⟨hg.trans hg', w ++ [a], ?_, by simp [hs]⟩
      intro b hb
      rcases List.mem_append.1 hb with hb | hb
      · exact hw b hb
      · exact List.mem_singleton.1 hb ▸ ha
  · rintro ⟨hg, w, hw, rfl⟩
    obtain ⟨g', s'⟩ := q
    obtain rfl : g' = g := hg
    induction w with
    | nil => exact .refl
    | cons a w ih =>
      have hstep : (cls c).Takes (g', a :: (w ++ s')) (g', w ++ s') :=
        ⟨a, hw a List.mem_cons_self, rfl, rfl⟩
      exact .head ⟨hstep, by simp⟩ (ih fun b hb => hw b (List.mem_cons_of_mem _ hb))

theorem plain_cls (c : α → Bool) : (cls c).Plain fun w => ∃ a, c a = true ∧ w = [a] := by
  intro g s q
  constructor
  · rintro ⟨a, ha, hs, hg⟩
    exact ⟨hg, [a], ⟨a, ha, rfl⟩, hs⟩
  · rintro ⟨hg, w, ⟨a, ha, rfl⟩, hs⟩
    exact ⟨a, ha, hs, hg⟩

theorem plain_seq {r t : Regex α} {L L' : List α → Prop} (h : r.Plain L) (h' : t.Plain L') :
    (seq r t).Plain fun w => ∃ u v, L u ∧ L' v ∧ w = u ++ v := by
  intro g s q
  constructor
  · rintro ⟨⟨g', s'⟩, hm, hq⟩
    obtain ⟨rfl, u, hu, rfl⟩ := (h g s _).1 hm
    obtain ⟨hg, v, hv, rfl⟩ := (h' _ _ q).1 hq
    exact ⟨hg, u ++ v, ⟨u, v, hu, hv, rfl⟩, (List.append_assoc _ _ _).symm⟩
  · rintro ⟨hg, w, ⟨u, v, hu, hv, rfl⟩, rfl⟩
    exact ⟨(g, v ++ q.2), (h g _ _).2 ⟨rfl, u, hu, List.append_assoc _ _ _⟩,
      (h' g _ q).2 ⟨hg, v, hv, rfl⟩⟩

theorem plain_cls_seq {r : Regex α} {L : List α → Prop} (c : α → Bool) (h : r.Plain L) :
    (seq (cls c) r).Plain fun w => ∃ a v, c a = true ∧ L v ∧ w = a :: v := by
  intro g s q
  rw [plain_seq (plain_cls c) h]
  refine and_congr_right fun _ => exists_congr fun w => and_congr_left fun _ => ?_
  constructor
  · rintro ⟨-, v, ⟨a, ha, rfl⟩, hv, rfl⟩
    exact ⟨a, v, ha, hv, rfl⟩
  · rintro ⟨a, v, ha, hv, rfl⟩
    exact ⟨[a], v, ⟨a, ha, rfl⟩, hv, rfl⟩

theorem plain_plus (c : α → Bool) :
    (plus (cls c)).Plain fun w => w ≠ [] ∧ ∀ a ∈ w, c a = true := by
  intro g s q
  rw [plus, plain_cls_seq c (plain_star true c)]
  refine and_congr_right fun _ => exists_congr fun w => and_congr_left fun _ => ?_
  cases w with
  | nil => simp
  | cons a w => simp

theorem plain_upTo (c : α → Bool) (n : ℕ) :
    (upTo (cls c) n).Plain fun w => w.length ≤ n ∧ ∀ a ∈ w, c a = true := by
  induction n with
  | zero =>
    intro g s q
    constructor
    · rintro rfl
      exact ⟨rfl, [], by simp, rfl⟩
    · rintro ⟨hg, w, ⟨hw, -⟩, rfl⟩
      obtain rfl := List.length_eq_zero_iff.1 (Nat.le_zero.1 hw)
      exact Prod.ext hg rfl
  | succ n ih =>
    intro g s q
    rw [upTo, opt, Takes, plain_cls_seq c ih]
    constructor
    · rintro (⟨hg, w, ⟨a, v, ha, hv, rfl⟩, hs⟩ | h)
      · refine ⟨hg, a :: v, ⟨Nat.succ_le_succ hv.1, ?_⟩, hs⟩
        intro b hb
        rcases List.mem_cons.1 hb with rfl | hb
        · exact ha
        · exact hv.2 b hb
      · obtain rfl : q = (g, s) := h
        exact ⟨rfl, [], by simp, rfl⟩
    · rintro ⟨hg, w, ⟨hlen, hw⟩, hs⟩
      cases w with
      | nil => exact Or.inr (Prod.ext hg hs.symm)
      | cons a v =>
        refine Or.inl ⟨hg, a :: v, ⟨a, v, hw a List.mem_cons_self, ⟨?_, ?_⟩, rfl⟩, hs⟩
        · exact Nat.le_of_succ_le_succ hlen
        · exact fun b hb => hw b (List.mem_cons_of_mem _ hb)

theorem take_sub_length (w s : List α) : (w ++ s).take ((w ++ s).length - s.length) = w := by
  rw [List.length_append, Nat.add_sub_cancel, List.take_left]

theorem capture_append (i : ℕ) (w s : List α) (g : Groups α) :
    capture i (w ++ s) (g, s) = (Function.update g i (some w), s) := by
  rw [capture, take_sub_length]

theorem takes_group {r : Regex α} {L : List α → Prop} (h : r.Plain L) (i : ℕ) (g : Groups α)
    (s : List α) (q : State α) :
    (group i r).Takes (g, s) q ↔
      ∃ w, L w ∧ q.1 = Function.update g i (some w) ∧ s = w ++ q.2 := by
  constructor
  · rintro ⟨⟨g', s'⟩, hm, rfl⟩
    obtain ⟨hg, w, hw, hs⟩ := (h g s _).1 hm
    obtain rfl : g' = g := hg
    obtain rfl : s = w ++ s' := hs
    exact ⟨w, hw, by rw [capture_append], rfl⟩
  · rintro ⟨w, hw, hg, rfl⟩
    refine ⟨(g, q.2), (h g _ _).2 ⟨rfl, w, hw, rfl⟩, ?_⟩
    rw [capture_append, ← hg]

theorem run_alt_left {r t : Regex α} {p : State α} {k : State α → Option β} {x : β}
    (h : r.run p k = some x) : (alt r t).run p k = some x := by
  rw [run, h, Option.some_or]

theorem run_alt_right {r t : Regex α} {p : State α} {k : State α → Option β}
    (h : ∀ q, r.Takes p q → k q = none) : (alt r t).run p k = t.run p k := by
  have hnone : r.run p k = none := by
    cases hr : r.run p k with
    | none => rfl
    | some x =>
      obtain ⟨q, hq, hk⟩ := run_takes _ _ _ _ hr
      exact absurd ((h q hq).symm.trans hk) (by simp)
  rw [run, hnone, Option.none_or]

theorem run_lit [DecidableEq α] (u s : List α) (g : Groups α) (k : State α → Option β) :
    (lit u).run (g, u ++ s) k = k (g, s) := by
  induction u with
  | nil => rfl
  | cons a u ih =>
    rw [lit, run_seq, List.cons_append, run_cls_cons, if_pos (decide_eq_true rfl)]
    exact ih

def Stops (c : α → Bool) (s : List α) : Prop := ∀ a ∈ s.head?, c a = false

theorem run_cls_stops {c : α → Bool} {s : List α} (h : Stops c s) (g : Groups α)
    (k : State α → Option β) : (cls c).run (g, s) k = none := by
  cases s with
  | nil => rfl
  | cons a s =>
    rw [run_cls_cons, h a rfl]
    rfl

theorem loop_star {c : α → Bool} {w s : List α} {g : Groups α} {k : State α → Option β} {x : β}
    (hw : ∀ a ∈ w, c a = true) (hs : Stops c s) (hk : k (g, s) = some x) {n : ℕ}
    (hn : w.length ≤ n) : loop true (cls c).run k n (g, w ++ s) = some x := by
  induction w generalizing n with
  | nil =>
    cases n with
    | zero => exact hk
    | succ n => rw [loop, either, if_pos rfl, List.nil_append, run_cls_stops hs, Option.none_or, hk]
  | cons a w ih =>
    cases n with
    | zero => exact absurd hn (by simp)
    | succ n =>
      have hrest := ih (fun b hb => hw b (List.mem_cons_of_mem _ hb)) (Nat.le_of_succ_le_succ hn)
      rw [loop, either, if_pos rfl, List.cons_append, run_cls_cons,
        if_pos (hw a List.mem_cons_self), if_pos (by simp), hrest, Option.some_or]

/-- As many as there are, if it goes on behind them. -/
theorem run_star {c : α → Bool} {w s : List α} {g : Groups α} {k : State α → Option β} {x : β}
    (hw : ∀ a ∈ w, c a = true) (hs : Stops c s) (hk : k (g, s) = some x) :
    (star true (cls c)).run (g, w ++ s) k = some x :=
  loop_star hw hs hk (by simp)

theorem run_plus {c : α → Bool} {w s : List α} {g : Groups α} {k : State α → Option β} {x : β}
    (hne : w ≠ []) (hw : ∀ a ∈ w, c a = true) (hs : Stops c s) (hk : k (g, s) = some x) :
    (plus (cls c)).run (g, w ++ s) k = some x := by
  cases w with
  | nil => exact absurd rfl hne
  | cons a w =>
    rw [plus, run_seq, List.cons_append, run_cls_cons, if_pos (hw a List.mem_cons_self)]
    exact run_star (fun b hb => hw b (List.mem_cons_of_mem _ hb)) hs hk

theorem run_upTo {c : α → Bool} {w s : List α} {g : Groups α} {k : State α → Option β} {x : β}
    {n : ℕ} (hn : w.length ≤ n) (hw : ∀ a ∈ w, c a = true) (hs : Stops c s)
    (hk : k (g, s) = some x) : (upTo (cls c) n).run (g, w ++ s) k = some x := by
  induction n generalizing w with
  | zero =>
    obtain rfl := List.length_eq_zero_iff.1 (Nat.le_zero.1 hn)
    exact hk
  | succ n ih =>
    cases w with
    | nil =>
      rw [upTo, opt, run, List.nil_append, run_seq, run_cls_stops hs, Option.none_or]
      exact hk
    | cons a w =>
      refine run_alt_left ?_
      rw [run_seq, List.cons_append, run_cls_cons, if_pos (hw a List.mem_cons_self)]
      exact ih (Nat.le_of_succ_le_succ hn) fun b hb => hw b (List.mem_cons_of_mem _ hb)

end Regex

/-- What stands between brackets: a symbol, or a class with a name. -/
inductive Atom (α : Type) where
  | symbol (a : α)
  | named (p : α → Bool)

namespace Atom

/-- `std::regex_constants::error_range` -/
inductive Error where
  | range
  deriving DecidableEq, Repr

def mem [DecidableEq α] : Atom α → α → Bool
  | symbol a, c => decide (c = a)
  | named p, c => p c

def range [LE α] [DecidableLE α] : Atom α → Atom α → Except Error (α → Bool)
  | symbol a, symbol b => if a ≤ b then .ok fun c => decide (a ≤ c ∧ c ≤ b) else .error .range
  | _, _ => .error .range

variable [DecidableEq α] [LE α] [DecidableLE α]

/-- The class of the atoms between brackets. Two of them with a dash in between are a range; a dash
in the first or the last place is a symbol. -/
def bracket (dash : α) : List (Atom α) → Except Error (α → Bool)
  | [] => .ok fun _ => false
  | a :: symbol d :: b :: atoms =>
    if d = dash then do
      let c ← a.range b
      let c' ← bracket dash atoms
      return fun x => c x || c' x
    else do
      let c' ← bracket dash (symbol d :: b :: atoms)
      return fun x => a.mem x || c' x
  | a :: atoms => do
    let c' ← bracket dash atoms
    return fun x => a.mem x || c' x

/-- A range has no class with a name at its ends. -/
theorem bracket_named (dash : α) (p : α → Bool) (b : Atom α) (atoms : List (Atom α)) :
    bracket dash (named p :: symbol dash :: b :: atoms) = .error .range := by
  rw [bracket, if_pos rfl]
  rfl

end Atom

end Backtracking
