import Mathlib

/-! Switches that are put on and off one after the other: where each of them ends, how many times
one was turned, and when the same comes of putting all of them to one value. -/

namespace Switches

variable {M : Type*} [DecidableEq M]

/-- The switch is put to the value; the number counts the switches that were turned. -/
def put (acc : ℕ × Finset M) (a : M × Bool) : ℕ × Finset M :=
  (if decide (a.1 ∈ acc.2) = a.2 then acc.1 else acc.1 + 1,
    if a.2 then insert a.1 acc.2 else acc.2.erase a.1)

def run (as : List (M × Bool)) (on : Finset M) : ℕ × Finset M := as.foldl put (0, on)

def valuesOf (x : M) (as : List (M × Bool)) : List Bool :=
  (as.filter fun a => decide (a.1 = x)).map Prod.snd

def turns : Bool → List Bool → ℕ
  | _, [] => 0
  | b, v :: vs => (if b = v then 0 else 1) + turns v vs

theorem mem_put (acc : ℕ × Finset M) (a : M × Bool) (x : M) :
    decide (x ∈ (put acc a).2) = if a.1 = x then a.2 else decide (x ∈ acc.2) := by
  obtain ⟨y, v⟩ := a
  by_cases h : y = x
  · subst h
    cases v <;> simp [put]
  · have hne : x ≠ y := fun hx => h hx.symm
    cases v <;> simp [put, h, hne]

theorem mem_foldl_put (as : List (M × Bool)) (acc : ℕ × Finset M) (x : M) :
    decide (x ∈ (as.foldl put acc).2) = (valuesOf x as).getLastD (decide (x ∈ acc.2)) := by
  induction as generalizing acc with
  | nil => rfl
  | cons a as ih =>
    rw [List.foldl_cons, ih, mem_put]
    by_cases h : a.1 = x
    · have hvalues : valuesOf x (a :: as) = a.2 :: valuesOf x as := by simp [valuesOf, h]
      rw [hvalues, if_pos h, List.getLastD_cons]
    · simp [valuesOf, h]

/-- A switch is left at the last value that it was put to. -/
theorem mem_run (as : List (M × Bool)) (on : Finset M) (x : M) :
    decide (x ∈ (run as on).2) = (valuesOf x as).getLastD (decide (x ∈ on)) :=
  mem_foldl_put as (0, on) x

theorem count_foldl_put {s : Finset M} {as : List (M × Bool)} (hs : ∀ a ∈ as, a.1 ∈ s)
    (acc : ℕ × Finset M) :
    (as.foldl put acc).1 = acc.1 + ∑ x ∈ s, turns (decide (x ∈ acc.2)) (valuesOf x as) := by
  induction as generalizing acc with
  | nil => simp [valuesOf, turns]
  | cons a as ih =>
    have hturn : ∀ x, turns (decide (x ∈ acc.2)) (valuesOf x (a :: as)) =
        (if x = a.1 then (if decide (a.1 ∈ acc.2) = a.2 then 0 else 1) else 0) +
          turns (decide (x ∈ (put acc a).2)) (valuesOf x as) := by
      intro x
      rw [mem_put]
      by_cases h : a.1 = x
      · subst h
        simp [valuesOf, turns]
      · have hne : x ≠ a.1 := fun hx => h hx.symm
        simp [valuesOf, h, hne]
    have hfirst : (put acc a).1 = acc.1 + if decide (a.1 ∈ acc.2) = a.2 then 0 else 1 := by
      rw [put]
      split_ifs <;> rfl
    rw [List.foldl_cons, ih fun a' ha => hs a' (List.mem_cons_of_mem _ ha), hfirst,
      Finset.sum_congr rfl fun x _ => hturn x, Finset.sum_add_distrib, Finset.sum_ite_eq',
      if_pos (hs a List.mem_cons_self), add_assoc]

theorem count_run {s : Finset M} {as : List (M × Bool)} (hs : ∀ a ∈ as, a.1 ∈ s) (on : Finset M) :
    (run as on).1 = ∑ x ∈ s, turns (decide (x ∈ on)) (valuesOf x as) := by
  rw [run, count_foldl_put hs, Nat.zero_add]

theorem turns_eq_zero {b : Bool} {vs : List Bool} : turns b vs = 0 ↔ ∀ v ∈ vs, v = b := by
  induction vs generalizing b with
  | nil => simp [turns]
  | cons v vs ih =>
    by_cases h : b = v
    · subst h
      simp [turns, ih]
    · have hne : v ≠ b := fun hv => h hv.symm
      simp [turns, h, hne]

theorem turns_eq_one {b v : Bool} {vs : List Bool} (hb : b ≠ v) (hlast : vs.getLastD b = v) :
    turns b vs = 1 ↔ ∃ j k, vs = List.replicate j b ++ List.replicate (k + 1) v := by
  induction vs with
  | nil => exact absurd hlast hb
  | cons w vs ih =>
    rw [List.getLastD_cons] at hlast
    by_cases h : b = w
    · subst h
      rw [turns, if_pos rfl, Nat.zero_add, ih hlast]
      refine ⟨fun ht => ?_, fun ht => ?_⟩
      · obtain ⟨j, k, rfl⟩ := ht
        exact ⟨j + 1, k, rfl⟩
      · obtain ⟨j, k, hj⟩ := ht
        cases j with
        | zero => exact absurd (List.cons_eq_cons.1 hj).1 hb
        | succ j => exact ⟨j, k, (List.cons_eq_cons.1 hj).2⟩
    · -- two values: what differs from `b` is `v`
      obtain rfl : w = v := by cases b <;> cases v <;> cases w <;> simp_all
      rw [turns, if_neg h, Nat.add_eq_left, turns_eq_zero]
      refine ⟨fun ht => ⟨0, vs.length, ?_⟩, fun ht => ?_⟩
      · rw [List.replicate_zero, List.nil_append, List.replicate_succ]
        exact congrArg _ (List.eq_replicate_of_mem ht)
      · obtain ⟨j, k, hj⟩ := ht
        cases j with
        | zero =>
          have hvs : vs = List.replicate k w := (List.cons_eq_cons.1 hj).2
          intro a ha
          exact List.eq_of_mem_replicate (hvs ▸ ha)
        | succ j => exact absurd (List.cons_eq_cons.1 hj).1.symm h

/-- All values are `v`; or the switch is at the other value, is put there a few times more, and
from then on, at least once, to `v`. -/
def Settles (v b : Bool) (vs : List Bool) : Prop :=
  (∀ w ∈ vs, w = v) ∨ b ≠ v ∧ ∃ j k, vs = List.replicate j b ++ List.replicate (k + 1) v

theorem getLastD_replicate (b v : Bool) (n : ℕ) :
    (List.replicate n v).getLastD b = if n = 0 then b else v := by
  induction n generalizing b with
  | zero => rfl
  | succ n ih =>
    rw [List.replicate_succ, List.getLastD_cons, ih, ite_self, if_neg n.succ_ne_zero]

theorem getLastD_replicate_append (b : Bool) (j : ℕ) (vs : List Bool) :
    (List.replicate j b ++ vs).getLastD b = vs.getLastD b := by
  induction j with
  | zero => rfl
  | succ j ih => rw [List.replicate_succ, List.cons_append, List.getLastD_cons, ih]

theorem turns_replicate (b v : Bool) (n : ℕ) :
    turns b (List.replicate n v) = if n = 0 ∨ b = v then 0 else 1 := by
  cases n with
  | zero => rfl
  | succ n =>
    have hrest : turns v (List.replicate n v) = 0 :=
      turns_eq_zero.2 fun w hw => List.eq_of_mem_replicate hw
    rw [List.replicate_succ, turns, hrest]
    simp

/-- To put a switch to `v` each time is never more work. -/
theorem turns_replicate_le {b v : Bool} {vs : List Bool}
    (hlast : (List.replicate vs.length v).getLastD b = vs.getLastD b) :
    turns b (List.replicate vs.length v) ≤ turns b vs := by
  rw [turns_replicate]
  split_ifs with h
  · exact Nat.zero_le _
  · push Not at h
    refine Nat.one_le_iff_ne_zero.2 fun h0 => ?_
    have hall := turns_eq_zero.1 h0
    rw [getLastD_replicate, if_neg h.1, List.eq_replicate_of_mem hall, getLastD_replicate,
      if_neg h.1] at hlast
    exact h.2 hlast.symm

theorem settles_iff {v b : Bool} {vs : List Bool} :
    Settles v b vs ↔ (List.replicate vs.length v).getLastD b = vs.getLastD b ∧
      turns b (List.replicate vs.length v) = turns b vs := by
  constructor
  · intro h
    rcases h with h | ⟨hb, j, k, rfl⟩
    · rw [← List.eq_replicate_of_mem h]
      exact ⟨rfl, rfl⟩
    · have hlast : (List.replicate j b ++ List.replicate (k + 1) v).getLastD b = v := by
        rw [getLastD_replicate_append, getLastD_replicate, if_neg k.succ_ne_zero]
      refine ⟨?_, ?_⟩
      · rw [hlast, getLastD_replicate, if_neg (by simp)]
      · rw [(turns_eq_one hb hlast).2 ⟨j, k, rfl⟩, turns_replicate, if_neg]
        simpa using hb
  · rintro ⟨hlast, hturns⟩
    by_cases hnil : vs = []
    · subst hnil
      exact Or.inl fun w hw => absurd hw List.not_mem_nil
    have hlength : vs.length ≠ 0 := fun h => hnil (List.length_eq_zero_iff.1 h)
    rw [getLastD_replicate, if_neg hlength] at hlast
    rw [turns_replicate] at hturns
    by_cases hb : b = v
    · rw [if_pos (Or.inr hb)] at hturns
      exact Or.inl fun w hw => (turns_eq_zero.1 hturns.symm w hw).trans hb
    · rw [if_neg (by simp [hlength, hb])] at hturns
      exact Or.inr ⟨hb, (turns_eq_one hb hlast.symm).1 hturns.symm⟩

theorem valuesOf_map_const (v : Bool) (x : M) (as : List (M × Bool)) :
    valuesOf x (as.map fun a => (a.1, v)) = List.replicate (valuesOf x as).length v := by
  induction as with
  | nil => rfl
  | cons a as ih =>
    by_cases h : a.1 = x
    · simpa [valuesOf, h, List.replicate_succ] using ih
    · simpa [valuesOf, h] using ih

/-- When it is all the same to put every switch to `v`, whatever value it was to be put to. -/
theorem run_map_const_iff (v : Bool) (as : List (M × Bool)) (on : Finset M) :
    run (as.map fun a => (a.1, v)) on = run as on ↔
      ∀ x, Settles v (decide (x ∈ on)) (valuesOf x as) := by
  have hmem : ∀ a ∈ as, a.1 ∈ (as.map Prod.fst).toFinset := by
    intro a ha
    exact List.mem_toFinset.2 (List.mem_map_of_mem ha)
  have hmem' : ∀ a ∈ as.map fun a => (a.1, v), a.1 ∈ (as.map Prod.fst).toFinset := by
    intro a ha
    obtain ⟨a', ha', rfl⟩ := List.mem_map.1 ha
    exact hmem a' ha'
  constructor
  · intro h
    have hlast : ∀ x, (List.replicate (valuesOf x as).length v).getLastD (decide (x ∈ on)) =
        (valuesOf x as).getLastD (decide (x ∈ on)) := by
      intro x
      rw [← valuesOf_map_const, ← mem_run, ← mem_run, h]
    have hcount := congrArg Prod.fst h
    rw [count_run hmem', count_run hmem] at hcount
    simp only [valuesOf_map_const] at hcount
    have heach := (Finset.sum_eq_sum_iff_of_le fun x _ => turns_replicate_le (hlast x)).1 hcount
    intro x
    by_cases hx : x ∈ (as.map Prod.fst).toFinset
    · exact settles_iff.2 ⟨hlast x, heach x hx⟩
    · -- a switch that is never put
      have hnone : valuesOf x as = [] := by
        rw [valuesOf, List.map_eq_nil_iff, List.filter_eq_nil_iff]
        intro a ha hax
        exact hx (of_decide_eq_true hax ▸ hmem a ha)
      rw [hnone]
      exact Or.inl fun w hw => absurd hw List.not_mem_nil
  · intro h
    refine Prod.ext ?_ ?_
    · rw [count_run hmem', count_run hmem]
      refine Finset.sum_congr rfl fun x _ => ?_
      rw [valuesOf_map_const]
      exact (settles_iff.1 (h x)).2
    · ext x
      have hx := (settles_iff.1 (h x)).1
      rw [← valuesOf_map_const, ← mem_run, ← mem_run] at hx
      exact decide_eq_decide.1 hx

/-- Switches that are off are put on, each of them once. -/
theorem run_on {xs : List M} (h : xs.Nodup) (on : Finset M) (hon : ∀ x ∈ xs, x ∉ on) :
    run (xs.map fun x => (x, true)) on = (xs.length, on ∪ xs.toFinset) := by
  have hfold : ∀ n on, (∀ x ∈ xs, x ∉ on) → (xs.map fun x => (x, true)).foldl put (n, on) =
      (n + xs.length, on ∪ xs.toFinset) := by
    clear hon
    induction xs with
    | nil => simp
    | cons x xs ih =>
      intro n on hon
      obtain ⟨hx, hxs⟩ := List.nodup_cons.1 h
      have hput : put (n, on) (x, true) = (n + 1, insert x on) := by
        simp [put, hon x List.mem_cons_self]
      rw [List.map_cons, List.foldl_cons, hput, ih hxs]
      · rw [List.length_cons, List.toFinset_cons, Finset.insert_union, Finset.union_insert]
        congr 1
        omega
      · intro y hy
        rw [Finset.mem_insert, not_or]
        exact ⟨fun hyx => hx (hyx ▸ hy), hon y (List.mem_cons_of_mem _ hy)⟩
  simpa [run] using hfold 0 on hon

end Switches
