import Mathlib
import ACENetwork.Spec.Irc.Stringify
import ACENetwork.Proofs.Irc.SessionSafety

/-! The separator behind the last element is removed for each index but that of the last element. -/

namespace ACENetwork.Irc.Stringify

open Tools (stringifyFrom)

variable {ps : Parameters} {index : Int32}

theorem toInt_lastIndex (ps : Parameters) : (lastIndex ps).toInt = ((ps.length - 1 : ℕ) : ℤ).bmod (2 ^ 32) :=
  Int32.toInt_ofNat'

theorem toInt_lastIndex_le (ps : Parameters) : (lastIndex ps).toInt ≤ (ps.length - 1 : ℕ) := by
  rw [toInt_lastIndex, Int.bmod]
  split_ifs <;> omega

theorem toInt_lastIndex_of_le (h : ps.length ≤ 2 ^ 31) : (lastIndex ps).toInt = (ps.length - 1 : ℕ) :=
  Int32.toInt_ofNat_of_lt (by omega)

theorem stringifyFrom_eq (h : ps ≠ []) : stringifyFrom ps = [space].intercalate ps ++ [space] := by
  induction ps with
  | nil => exact absurd rfl h
  | cons p ps ih =>
    cases ps with
    | nil => simp [stringifyFrom, List.intercalate]
    | cons q ps =>
      have hrest : stringifyFrom (p :: q :: ps) = p ++ [space] ++ stringifyFrom (q :: ps) := rfl
      rw [hrest, ih (List.cons_ne_nil q ps)]
      simp [List.intercalate]

theorem intercalate_ne_nil (h : 1 < ps.length) : [space].intercalate ps ≠ [] := by
  obtain ⟨p, ps, rfl⟩ := List.exists_cons_of_length_pos (Nat.zero_lt_of_lt h)
  obtain ⟨q, ps, rfl⟩ := List.exists_cons_of_length_pos (Nat.lt_of_succ_lt_succ h)
  simp [List.intercalate]

theorem stringify_behind (h : lastIndex ps < index) : stringify ps index = .ok [] := if_pos (Or.inr h)

theorem stringify_last (hps : ps ≠ []) (h : ¬ lastIndex ps < -1) : stringify ps (-1) = back ps := by
  rw [stringify, if_neg (not_or.2 ⟨hps, h⟩), if_pos rfl]

theorem stringify_inside (hps : ps ≠ []) (hpos : 0 ≤ index.toInt) (h : ¬ lastIndex ps < index) :
    stringify ps index = .ok (if index < lastIndex ps then [space].intercalate (ps.drop index.toInt.toNat)
      else [space].intercalate (ps.drop index.toInt.toNat) ++ [space]) := by
  have hle : index.toInt ≤ (ps.length - 1 : ℕ) := by
    rw [Int32.lt_iff_toInt_lt, not_lt] at h
    exact h.trans (toInt_lastIndex_le ps)
  have hlength := List.length_pos_iff.2 hps
  have hlast : index ≠ -1 := by
    rintro rfl
    exact absurd hpos (by decide)
  have hneg : ¬ index < 0 := by
    rw [Int32.lt_iff_toInt_lt, not_lt]
    exact hpos
  have hadvance : advance ps index = .ok index.toInt.toNat := by
    rw [advance, if_neg hneg, advanceBy_eq (by omega), Nat.zero_add]
  have hdrop : ps.drop index.toInt.toNat ≠ [] := by
    rw [Ne, List.drop_eq_nil_iff]
    omega
  rw [stringify, if_neg (not_or.2 ⟨hps, h⟩), if_neg hlast, hadvance]
  change Except.ok (if index < lastIndex ps then (stringifyFrom (ps.drop index.toInt.toNat)).dropLast
    else stringifyFrom (ps.drop index.toInt.toNat)) = _
  rw [stringifyFrom_eq hdrop, List.dropLast_concat]

/-- The text of the other model, where an index is as large as it has to be. -/
theorem stringify_eq (hlength : ps.length ≤ 2 ^ 31) (hindex : -1 ≤ index.toInt) :
    stringify ps index = Tools.stringify ps (if index = -1 then none else some index.toInt.toNat) := by
  by_cases hps : ps = []
  · subst hps
    rfl
  have hlast := toInt_lastIndex_of_le hlength
  have hpos := List.length_pos_iff.2 hps
  by_cases hone : index = -1
  · subst hone
    have hlt : ¬ lastIndex ps < -1 := by
      rw [Int32.lt_iff_toInt_lt, hlast]
      have hminus : (-1 : Int32).toInt = -1 := rfl
      omega
    have hnone : Tools.stringify ps none = back ps := if_neg hps
    rw [stringify_last hps hlt, if_pos rfl, hnone]
  · have hnonneg : 0 ≤ index.toInt := by
      have hne : index.toInt ≠ -1 := fun h => hone (Int32.toInt.inj h)
      omega
    rw [if_neg hone, Tools.stringify.eq_def, if_neg hps]
    dsimp only
    by_cases hbehind : lastIndex ps < index
    · have hlt := Int32.lt_iff_toInt_lt.1 hbehind
      rw [stringify_behind hbehind, if_pos (by omega)]
    · have hle := hbehind
      rw [Int32.lt_iff_toInt_lt, not_lt] at hle
      have hdrop : ps.drop index.toInt.toNat ≠ [] := by
        rw [Ne, List.drop_eq_nil_iff]
        omega
      have hnot : ¬ ps.length - 1 < index.toInt.toNat := by omega
      rw [stringify_inside hps hnonneg hbehind, if_neg hnot, advanceBy_eq (by omega), Nat.zero_add]
      change _ = Except.ok (if index.toInt.toNat < ps.length - 1
        then (stringifyFrom (ps.drop index.toInt.toNat)).dropLast
        else stringifyFrom (ps.drop index.toInt.toNat))
      have hiff : index < lastIndex ps ↔ index.toInt.toNat < ps.length - 1 := by
        rw [Int32.lt_iff_toInt_lt]
        omega
      rw [stringifyFrom_eq hdrop, List.dropLast_concat]
      simp only [hiff]

theorem Joins.inner (hps : ps ≠ []) (h : Joins ps index) : Inner ps index := by
  have hminus : (-1 : Int32).toInt = -1 := rfl
  have hupper := index.toInt_lt
  rcases lt_trichotomy index.toInt (-1) with hlt | heq | hgt
  · exact Or.inr (Or.inl hlt)
  · obtain rfl : index = -1 := Int32.toInt.inj (heq.trans hminus.symm)
    refine Or.inr (Or.inr (Or.inr (Or.inr ⟨rfl, ?_⟩)))
    by_contra hnot
    obtain ⟨hwraps, hlast⟩ := not_or.1 hnot
    have htext := h.last _ (List.getLast?_eq_some_getLast hps) rfl
    rw [stringify_behind (not_not.1 hwraps)] at htext
    rw [List.getLast?_eq_some_getLast hps, ← Except.ok.inj htext] at hlast
    exact hlast rfl
  · by_cases hout : (ps.length : ℤ) ≤ index.toInt
    · exact Or.inr (Or.inr (Or.inl hout))
    · refine Or.inr (Or.inr (Or.inr (Or.inl ⟨by omega, ?_⟩)))
      have htext := h.inside (by omega) (by omega)
      by_cases hbehind : lastIndex ps < index
      · -- the conversion has wrapped around, and there is more than one element
        rw [stringify_behind hbehind] at htext
        have hone : ¬ 1 < (ps.drop index.toInt.toNat).length := fun h =>
          intercalate_ne_nil h (Except.ok.inj htext).symm
        rw [List.length_drop] at hone
        have hlast := toInt_lastIndex_of_le (by omega : ps.length ≤ 2 ^ 31)
        rw [Int32.lt_iff_toInt_lt] at hbehind
        omega
      · rw [stringify_inside hps (by omega) hbehind] at htext
        by_contra hnot
        rw [if_neg hnot] at htext
        have hlength := congrArg List.length (Except.ok.inj htext)
        simp at hlength

theorem Inner.joins (hps : ps ≠ []) (h : Inner ps index) : Joins ps index := by
  have hpos := List.length_pos_iff.2 hps
  have hminus : (-1 : Int32).toInt = -1 := rfl
  have hupper := index.toInt_lt
  refine ⟨fun hle hlt => ?_, fun hout => ?_, fun p hp hone => ?_⟩
  · rcases h with hnil | hlow | hout | ⟨-, hin⟩ | ⟨rfl, -⟩
    · exact absurd hnil hps
    · omega
    · omega
    · have hnot : ¬ lastIndex ps < index := by
        rw [Int32.lt_iff_toInt_lt] at hin ⊢
        omega
      rw [stringify_inside hps hle hnot, if_pos hin]
    · omega
  · have hout := hout.resolve_left hps
    have hlast := toInt_lastIndex_of_le (by omega : ps.length ≤ 2 ^ 31)
    refine stringify_behind (Int32.lt_iff_toInt_lt.2 ?_)
    omega
  · subst hone
    rcases h with hnil | hlow | hout | ⟨hle, -⟩ | ⟨-, hlast⟩
    · exact absurd hnil hps
    · omega
    · omega
    · omega
    · by_cases hwraps : lastIndex ps < -1
      · have hempty := hlast.resolve_left (not_not_intro hwraps)
        obtain rfl : p = [] := Option.some.inj (hp.symm.trans hempty)
        exact stringify_behind hwraps
      · rw [stringify_last hps hwraps, back, hp]

/-- The text is as it is asked for just if the index is not that of the last element. -/
theorem joins_iff (ps : Parameters) (index : Int32) : Joins ps index ↔ Inner ps index := by
  by_cases hps : ps = []
  · subst hps
    refine iff_of_true ⟨fun h h' => ?_, fun _ => rfl, fun p hp => absurd hp (by simp)⟩ (Or.inl rfl)
    exact absurd (h.trans_lt h') (lt_irrefl _)
  · exact ⟨Joins.inner hps, Inner.joins hps⟩

/-- One element, from the first one on. -/
theorem not_joins_single : stringify [[97]] 0 = .ok [97, 32] ∧ ¬ Joins [[97]] 0 := by
  have htext : stringify [[97]] 0 = .ok [97, 32] := rfl
  refine ⟨htext, fun h => ?_⟩
  have hjoined := h.inside (by decide) (by decide)
  rw [htext] at hjoined
  exact absurd (Except.ok.inj hjoined) (by decide)

end ACENetwork.Irc.Stringify
