import Mathlib
import ACENetwork.Spec.Net.CommonTools

/-! Which texts `matchIPAddress` takes for addresses. -/

namespace ACENetwork.Net

open Backtracking
open Http (isDigit isSpace extract number extract_digits)

def Short (w : List UInt8) : Prop := w.length ≤ 3 ∧ ∀ c ∈ w, isDigit c = true

theorem IsOctet.short {w : List UInt8} (h : IsOctet w) : Short w := ⟨h.2.1, h.2.2.1⟩

theorem Short.dot_notMem {w : List UInt8} (h : Short w) : dot ∉ w :=
  fun hd => absurd (h.2 dot hd) (by decide)

def pieceText (o : Option (List UInt8)) : List UInt8 := o.elim [] fun w => dot :: w

def withPiece (g : Groups UInt8) (i : ℕ) (o : Option (List UInt8)) : Groups UInt8 :=
  o.elim g fun w => Function.update g i (some (dot :: w))

theorem takes_furtherGroup (i : ℕ) (g : Groups UInt8) (s : List UInt8) (q : State UInt8) :
    (furtherGroup i).Takes (g, s) q ↔
      ∃ o : Option (List UInt8), (∀ w ∈ o, Short w) ∧ q.1 = withPiece g i o ∧
        s = pieceText o ++ q.2 := by
  have hplain := Regex.plain_cls_seq (fun c => decide (c = dot)) (Regex.plain_upTo isDigit 3)
  rw [furtherGroup, Regex.opt, Regex.Takes, Regex.takes_group hplain]
  constructor
  · rintro (⟨w, ⟨a, v, ha, hv, rfl⟩, hg, hs⟩ | h)
    · obtain rfl := of_decide_eq_true ha
      exact ⟨some v, fun w hw => Option.some.inj hw ▸ hv, hg, hs⟩
    · obtain rfl : q = (g, s) := h
      exact ⟨none, by simp, rfl, rfl⟩
  · rintro ⟨o, ho, hg, hs⟩
    cases o with
    | none => exact Or.inr (Prod.ext hg hs.symm)
    | some w => exact Or.inl ⟨dot :: w, ⟨dot, w, decide_eq_true rfl, ho w rfl, rfl⟩, hg, hs⟩

theorem takes_addressRegex (s : List UInt8) (g : Groups UInt8) :
    addressRegex.Takes (fun _ => none, s) (g, []) ↔
      ∃ (a : List UInt8) (o₂ o₃ o₄ : Option (List UInt8)), Short a ∧ (∀ w ∈ o₂, Short w) ∧
        (∀ w ∈ o₃, Short w) ∧ (∀ w ∈ o₄, Short w) ∧
        g = withPiece (withPiece (withPiece (Function.update (fun _ => none) 1 (some a)) 2 o₂) 3 o₃) 4 o₄ ∧
        s = a ++ (pieceText o₂ ++ (pieceText o₃ ++ pieceText o₄)) := by
  constructor
  · rintro ⟨⟨g₁, s₁⟩, h₁, ⟨g₂, s₂⟩, h₂, ⟨g₃, s₃⟩, h₃, h₄⟩
    obtain ⟨a, ha, rfl, rfl⟩ := (Regex.takes_group (Regex.plain_upTo isDigit 3) 1 _ _ _).1 h₁
    obtain ⟨o₂, ho₂, rfl, rfl⟩ := (takes_furtherGroup 2 _ _ _).1 h₂
    obtain ⟨o₃, ho₃, rfl, rfl⟩ := (takes_furtherGroup 3 _ _ _).1 h₃
    obtain ⟨o₄, ho₄, rfl, rfl⟩ := (takes_furtherGroup 4 _ _ _).1 h₄
    exact ⟨a, o₂, o₃, o₄, ha, ho₂, ho₃, ho₄, rfl, by simp⟩
  · rintro ⟨a, o₂, o₃, o₄, ha, ho₂, ho₃, ho₄, rfl, rfl⟩
    refine ⟨(_, pieceText o₂ ++ (pieceText o₃ ++ pieceText o₄)),
      (Regex.takes_group (Regex.plain_upTo isDigit 3) 1 _ _ _).2 ⟨a, ha, rfl, rfl⟩,
      (_, pieceText o₃ ++ pieceText o₄), (takes_furtherGroup 2 _ _ _).2 ⟨o₂, ho₂, rfl, rfl⟩,
      (_, pieceText o₄), (takes_furtherGroup 3 _ _ _).2 ⟨o₃, ho₃, rfl, rfl⟩,
      (takes_furtherGroup 4 _ _ _).2 ⟨o₄, ho₄, rfl, by simp⟩⟩

theorem splitOn_groups {a : List UInt8} {ws : List (List UInt8)} (ha : dot ∉ a)
    (hws : ∀ w ∈ ws, dot ∉ w) : (a ++ ws.flatMap fun w => dot :: w).splitOn dot = a :: ws := by
  induction ws generalizing a with
  | nil => rw [List.flatMap_nil, List.append_nil, List.splitOn_eq_singleton ha]
  | cons w ws ih =>
    rw [List.flatMap_cons, List.cons_append, List.splitOn_append_cons_self_of_not_mem ha,
      ih (hws w List.mem_cons_self) fun w' hw' => hws w' (List.mem_cons_of_mem _ hw')]

theorem Short.number_lt {w : List UInt8} (h : Short w) : number 10 w < 1000 := by
  have hlen : (w.reverse.map Http.digit).length ≤ 3 := by simpa using h.1
  have hdigit : ∀ d ∈ w.reverse.map Http.digit, d < 10 := by
    intro d hd
    obtain ⟨c, hc, rfl⟩ := List.mem_map.1 hd
    have hcd := h.2 c (List.mem_reverse.1 hc)
    rw [Http.digit, if_pos hcd]
    simp only [isDigit, decide_eq_true_eq] at hcd
    have h57 := UInt8.le_iff_toNat_le.1 hcd.2
    rw [UInt8.toNat_sub_of_le _ _ hcd.1]
    have h48 : (48 : UInt8).toNat = 48 := rfl
    have h57' : (57 : UInt8).toNat = 57 := rfl
    omega
  have hpow := Nat.ofDigits_lt_base_pow_length (by decide) hdigit
  exact hpow.trans_le (Nat.pow_le_pow_right (by decide : 0 < 10) hlen)

theorem extractInto_short {w : List UInt8} (h : Short w) (group : ℕ) :
    extractInto group w = if w = [] then group else number 10 w := by
  by_cases hw : w = []
  · subst hw
    rfl
  · have hlt : number 10 w < 2 ^ 32 := h.number_lt.trans (by decide)
    have hspace : w.dropWhile isSpace ≠ [] := by
      obtain ⟨c, v, rfl⟩ := List.exists_cons_of_ne_nil hw
      have hc := h.2 c List.mem_cons_self
      have hns : isSpace c = false := by
        simp only [isDigit, isSpace, decide_eq_true_eq, decide_eq_false_iff_not] at *
        grind
      rw [List.dropWhile_cons_of_neg (by simp [hns])]
      exact List.cons_ne_nil _ _
    rw [extractInto, if_neg hspace, extract_digits hw (List.all_eq_true.2 h.2) hlt, if_neg hw,
      UInt32.toNat_ofNat_of_lt' hlt]

/-- The loop accepts the groups that have nothing in them or are as they have to be, whatever the
number is that the variable was left with. -/
theorem validate_iff {g : Groups UInt8} {is : List ℕ} {ws : List (List UInt8)}
    (h : List.Forall₂ (fun i w => Short w ∧ g i = some (if 1 < i then dot :: w else w)) is ws)
    {group : ℕ} (hgroup : group ≤ 255) :
    validate g is group = true ↔ ∀ w ∈ ws, w = [] ∨ IsOctet w := by
  induction h generalizing group with
  | nil => simp [validate]
  | @cons i w is ws hiw _ ih =>
    obtain ⟨hw, hg⟩ := hiw
    have hstring : (if 1 < i then (if 1 < i then dot :: w else w).drop 1
        else if 1 < i then dot :: w else w) = w := by
      split_ifs <;> rfl
    simp only [validate, hg, hstring, extractInto_short hw]
    rw [List.forall_mem_cons]
    by_cases hnil : w = []
    · subst hnil
      simpa [Nat.not_lt.2 hgroup] using ih hgroup
    rw [if_neg hnil]
    split_ifs with hbig hzero
    · refine iff_of_false (by simp) fun hall => ?_
      rcases hall.1 with hw0 | ho
      · exact hnil hw0
      · exact absurd ho.2.2.2.2 (Nat.not_le.2 hbig)
    · refine iff_of_false (by simp) fun hall => ?_
      rcases hall.1 with hw0 | ho
      · exact hnil hw0
      · exact ho.2.2.2.1 hzero
    · rw [ih (Nat.not_lt.1 hbig), and_iff_right]
      exact Or.inr ⟨hnil, hw.1, hw.2, hzero, Nat.not_lt.1 hbig⟩

theorem validate_none {g : Groups UInt8} {is : List ℕ} {i : ℕ} (hi : i ∈ is) (hg : g i = none)
    (group : ℕ) : validate g is group ≠ true := by
  induction is generalizing group with
  | nil => exact absurd hi List.not_mem_nil
  | cons j is ih =>
    rcases List.mem_cons.1 hi with rfl | hi
    · simp [validate, hg]
    · rw [validate]
      cases g j with
      | none => simp
      | some text =>
        generalize htext : (if 1 < j then text.drop 1 else text) = groupString
        simp only [htext]
        split_ifs
        · exact Bool.false_ne_true
        · exact Bool.false_ne_true
        · exact ih hi _

theorem splitOn_pieces {a : List UInt8} {o₂ o₃ o₄ : Option (List UInt8)} (ha : Short a)
    (h₂ : ∀ w ∈ o₂, Short w) (h₃ : ∀ w ∈ o₃, Short w) (h₄ : ∀ w ∈ o₄, Short w) :
    (a ++ (pieceText o₂ ++ (pieceText o₃ ++ pieceText o₄))).splitOn dot =
      a :: (o₂.toList ++ (o₃.toList ++ o₄.toList)) := by
  have hpiece : ∀ o : Option (List UInt8), pieceText o = o.toList.flatMap fun w => dot :: w := by
    intro o
    cases o <;> simp [pieceText]
  rw [hpiece, hpiece, hpiece, ← List.flatMap_append, ← List.flatMap_append]
  refine splitOn_groups ha.dot_notMem fun w hw => ?_
  simp only [List.mem_append, Option.mem_toList] at hw
  rcases hw with hw | hw | hw
  · exact (h₂ w hw).dot_notMem
  · exact (h₃ w hw).dot_notMem
  · exact (h₄ w hw).dot_notMem

/-- What the loop accepts of a match: there are four groups just if each of them took part. -/
theorem validate_match_iff {s : List UInt8} {g : Groups UInt8} (hg : addressRegex.fullMatch s = some g) :
    validate g [1, 2, 3, 4] 0 = true ↔
      (s.splitOn dot).length = 4 ∧ ∀ w ∈ s.splitOn dot, w = [] ∨ IsOctet w := by
  obtain ⟨a, o₂, o₃, o₄, ha, h₂, h₃, h₄, rfl, rfl⟩ :=
    (takes_addressRegex s g).1 (Regex.fullMatch_takes hg)
  rw [splitOn_pieces ha h₂ h₃ h₄]
  cases o₂ with
  | none =>
    refine iff_of_false (validate_none (i := 2) (by simp) ?_ 0) fun h => ?_
    · cases o₃ <;> cases o₄ <;> simp [withPiece]
    · cases o₃ <;> cases o₄ <;> simp at h
  | some b =>
  cases o₃ with
  | none =>
    refine iff_of_false (validate_none (i := 3) (by simp) ?_ 0) fun h => ?_
    · cases o₄ <;> simp [withPiece]
    · cases o₄ <;> simp at h
  | some c =>
  cases o₄ with
  | none =>
    refine iff_of_false (validate_none (i := 4) (by simp) ?_ 0) fun h => ?_
    · simp [withPiece]
    · simp at h
  | some d =>
    have hwords : List.Forall₂ (fun i w => Short w ∧
        (withPiece (withPiece (withPiece (Function.update (fun _ => none) 1 (some a)) 2 (some b)) 3
          (some c)) 4 (some d)) i = some (if 1 < i then dot :: w else w))
        [1, 2, 3, 4] [a, b, c, d] := by
      refine .cons ⟨ha, ?_⟩ (.cons ⟨h₂ b rfl, ?_⟩ (.cons ⟨h₃ c rfl, ?_⟩
        (.cons ⟨h₄ d rfl, ?_⟩ .nil)))
      all_goals simp [withPiece]
    rw [validate_iff hwords (by decide)]
    simp

theorem fullMatch_groups {s : List UInt8} (hlen : (s.splitOn dot).length = 4)
    (hall : ∀ w ∈ s.splitOn dot, w = [] ∨ IsOctet w) : (addressRegex.fullMatch s).isSome := by
  obtain ⟨a, b, c, d, hsplit⟩ := List.length_eq_four.1 hlen
  have hs : s = a ++ (pieceText (some b) ++ (pieceText (some c) ++ pieceText (some d))) := by
    have hjoin : List.intercalate [dot] (s.splitOn dot) = s := List.intercalate_splitOn dot
    rw [← hjoin, hsplit]
    simp [pieceText, List.intercalate]
  have hshort : ∀ w ∈ [a, b, c, d], Short w := by
    intro w hw
    rcases hall w (hsplit ▸ hw) with rfl | ho
    · exact ⟨by simp, by simp⟩
    · exact ho.short
  exact Regex.fullMatch_isSome ((takes_addressRegex s _).2 ⟨a, some b, some c, some d,
    hshort a (by simp), fun w hw => hshort w (by simp_all), fun w hw => hshort w (by simp_all),
    fun w hw => hshort w (by simp_all), rfl, hs⟩)

theorem matchIPAddress_eq_true (s : List UInt8) :
    matchIPAddress s = true ↔
      (s.splitOn dot).length = 4 ∧ ∀ w ∈ s.splitOn dot, w = [] ∨ IsOctet w := by
  rw [matchIPAddress]
  cases hm : addressRegex.fullMatch s with
  | some g => exact validate_match_iff hm
  | none =>
    refine iff_of_false (by simp) fun h => ?_
    have hsome := fullMatch_groups h.1 h.2
    rw [hm] at hsome
    exact absurd hsome (by simp)

/-- The addresses are told from other texts, except for those with nothing in a group. -/
theorem matchIPAddress_iff (s : List UInt8) :
    (matchIPAddress s = true ↔ IsAddress s) ↔ ¬ HasGap s := by
  rw [matchIPAddress_eq_true]
  constructor
  · rintro h ⟨hlen, hgap, hall⟩
    exact (h.1 ⟨hlen, hall⟩).2 [] hgap |>.1 rfl
  · intro h
    refine and_congr_right fun hlen => ⟨fun hall w hw => ?_, fun hall w hw => Or.inr (hall w hw)⟩
    rcases hall w hw with rfl | ho
    · exact absurd ⟨hlen, hw, hall⟩ h
    · exact ho

/-- `1..2.3` -/
theorem matchIPAddress_gap :
    matchIPAddress [49, 46, 46, 50, 46, 51] = true ∧ ¬ IsAddress [49, 46, 46, 50, 46, 51] := by
  refine ⟨by decide +kernel, fun h => ?_⟩
  have hempty := h.2 [] (by decide)
  exact hempty.1 rfl

end ACENetwork.Net
