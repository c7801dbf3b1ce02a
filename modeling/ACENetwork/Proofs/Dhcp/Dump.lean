import Mathlib
import ACENetwork.Spec.Dhcp.Dump

/-! Which records can be dumped. The loop over lists of addresses takes the first address for the
number of octets that follow, so it leaves the value; only a single address is printed as it should
be. -/

namespace ACENetwork.Dhcp.Dump

open Std

section

variable {readable : List UInt8} {size : ℕ}

theorem printAddresses_inside {pointer i n : ℕ} {pieces : List Piece}
    (h : printAddresses readable pointer i (n + 1) = some pieces) :
    pointer + (i + n) * 4 + 4 ≤ readable.length := by
  induction n generalizing i pieces with
  | zero =>
    rw [printAddresses, readAddress] at h
    split_ifs at h with hinside
    · rwa [Nat.add_zero]
  | succ n ih =>
    rw [printAddresses] at h
    cases hrest : printAddresses readable pointer (i + 1) (n + 1) with
    | none => simp [hrest] at h
    | some rest =>
      have hinside := ih hrest
      rwa [Nat.add_assoc i 1 n, Nat.add_comm 1 n] at hinside

theorem printAddresses_isSome {pointer i n : ℕ} (h : pointer + (i + n) * 4 ≤ readable.length) :
    ∃ pieces, printAddresses readable pointer i n = some pieces := by
  induction n generalizing i with
  | zero => exact ⟨[], rfl⟩
  | succ n ih =>
    obtain ⟨rest, hrest⟩ := ih (i := i + 1) (by omega)
    have hread : readAddress readable (pointer + i * 4) =
        some ((readable.drop (pointer + i * 4)).take 4) := if_pos (by omega)
    exact ⟨_, by rw [printAddresses, hread, hrest]⟩

theorem toNat_div_four (octet : UInt8) : (octet / 4).toNat = octet.toNat / 4 := by
  rw [UInt8.toNat_div]
  rfl

/-- A round either fails or passes the octets of a list. -/
theorem nextList_round (readable : List UInt8) (size : ℕ) (c : Cursor) :
    nextList readable size c = .done (.error .outside) ∨
      ∃ octet pieces, readable[c.pointer]? = some octet ∧
        printAddresses readable (c.pointer + 1) 0 (octet.toNat / 4) = some pieces ∧
        c.pointer + 1 + octet.toNat / 4 * 4 ≤ readable.length ∧
        nextList readable size c =
          if (c.usedBytes + UInt32.ofNat (octet.toNat / 4 * 4)).toNat < size then
            .again ⟨c.pointer + 1 + octet.toNat / 4 * 4,
              c.usedBytes + UInt32.ofNat (octet.toNat / 4 * 4), c.text ++ pieces⟩
          else .done (.ok (c.text ++ pieces)) := by
  unfold nextList
  cases hoctet : readable[c.pointer]? with
  | none => exact Or.inl rfl
  | some octet =>
    have hpointer : c.pointer < readable.length := (List.getElem?_eq_some_iff.1 hoctet).1
    simp only [toNat_div_four]
    cases hpieces : printAddresses readable (c.pointer + 1) 0 (octet.toNat / 4) with
    | none => exact Or.inl rfl
    | some pieces =>
      refine Or.inr ⟨octet, pieces, rfl, hpieces, ?_, rfl⟩
      generalize octet.toNat / 4 = n at hpieces
      cases n with
      | zero => omega
      | succ n =>
        have hlast := printAddresses_inside hpieces
        omega

theorem usedBytes_le (usedBytes : UInt32) (n : ℕ) :
    (usedBytes + UInt32.ofNat n).toNat ≤ usedBytes.toNat + n := by
  rw [UInt32.toNat_add, UInt32.toNat_ofNat']
  exact (Nat.mod_le _ _).trans (Nat.add_le_add_left (Nat.mod_le _ _) _)

/-- Once the octets that are counted lag behind those that the pointer has passed, the loop does
not end before the pointer is behind all that may be read. -/
theorem nextList_lags {c : Cursor} (h : c.usedBytes.toNat + readable.length ≤ c.pointer + size) :
    nextList readable size c = .done (.error .outside) ∨
      ∃ c', nextList readable size c = .again c' ∧
        c'.usedBytes.toNat + readable.length ≤ c'.pointer + size := by
  obtain hfault | ⟨octet, pieces, -, -, hinside, heq⟩ := nextList_round readable size c
  · exact Or.inl hfault
  · have hused := usedBytes_le c.usedBytes (octet.toNat / 4 * 4)
    rw [if_pos (by omega)] at heq
    refine Or.inr ⟨_, heq, ?_⟩
    change (c.usedBytes + UInt32.ofNat (octet.toNat / 4 * 4)).toNat + readable.length ≤
      c.pointer + 1 + octet.toNat / 4 * 4 + size
    omega

theorem not_returns_ok {c : Cursor} (h : c.usedBytes.toNat + readable.length ≤ c.pointer + size)
    (text : List Piece) : ¬ Loop.Returns (nextList readable size) c (.ok text) := by
  rintro ⟨n, hn⟩
  induction n generalizing c with
  | zero => exact absurd hn (by simp [Loop.run])
  | succ n ih =>
    rcases nextList_lags h with hdone | ⟨c', hagain, hc'⟩
    · simp [Loop.run, hdone] at hn
    · rw [Loop.run, hagain] at hn
      exact ih hc' hn

theorem nextList_progress {c c' : Cursor} (h : nextList readable size c = .again c') :
    readable.length - c'.pointer < readable.length - c.pointer := by
  obtain hfault | ⟨octet, pieces, hoctet, -, -, heq⟩ := nextList_round readable size c
  · rw [hfault] at h
    cases h
  · have hpointer : c.pointer < readable.length := (List.getElem?_eq_some_iff.1 hoctet).1
    rw [heq] at h
    split_ifs at h
    obtain rfl := Loop.Next.again.inj h
    change readable.length - (c.pointer + 1 + octet.toNat / 4 * 4) < _
    omega

theorem dumpAddresses_again {c : Cursor} {r : Except Fault (List Piece)}
    (h : first readable size = .again c) :
    dumpAddresses readable size = r ↔ Loop.Returns (nextList readable size) c r := by
  have hμ : ∀ c c', nextList readable size c = .again c' →
      readable.length - c'.pointer < readable.length - c.pointer := fun _ _ h => nextList_progress h
  have hbound : readable.length - c.pointer < readable.length + 1 := by omega
  obtain ⟨r', hr'⟩ := Loop.exists_run_eq_some (fun c : Cursor => readable.length - c.pointer) hμ hbound
  have hdump : dumpAddresses readable size = r' := by
    unfold dumpAddresses
    rw [h]
    simp only [hr', Option.getD_some]
  rw [hdump, ← Loop.run_eq_some_iff (fun c : Cursor => readable.length - c.pointer) hμ hbound, hr',
    Option.some.injEq]

end

theorem getD_append_zero (value : List UInt8) (i : ℕ) (h : i < value.length) :
    (value ++ [0])[i]? = some (value.getD i 0) := by
  rw [List.getElem?_append_left h, List.getD_eq_getElem?_getD, List.getElem?_eq_getElem h]
  rfl

/-- The first round after a first list of two addresses or more: all is printed if it ends with the
NUL, else the loop leaves the value. -/
theorem dumpAddresses_many {value : List UInt8} (hlong : 5 ≤ value.length)
    (h : first (value ++ [0]) value.length = .again { pointer := 1, usedBytes := 1, text := [] }) :
    (∃ pieces, dumpAddresses (value ++ [0]) value.length = .ok pieces) ↔
      value.length = (value.getD 1 0).toNat / 4 * 4 + 1 := by
  simp only [dumpAddresses_again h]
  generalize hn : (value.getD 1 0).toNat / 4 = n
  have hcount : n ≤ 63 := by
    have hoctet := (value.getD 1 0).toNat_lt
    omega
  have hused : ((1 : UInt32) + UInt32.ofNat (n * 4)).toNat = 1 + n * 4 := by
    rw [UInt32.toNat_add, UInt32.toNat_ofNat', Nat.mod_eq_of_lt (a := n * 4) (by omega)]
    exact Nat.mod_eq_of_lt (by change 1 + n * 4 < _; omega)
  have hreadable : (value ++ [0]).length = value.length + 1 := by
    rw [List.length_append, List.length_singleton]
  obtain hfault | ⟨octet, pieces, hoctet, -, hinside, heq⟩ := nextList_round (value ++ [0]) value.length
    { pointer := 1, usedBytes := 1, text := [] }
  · refine iff_of_false ?_ fun hlength => ?_
    · rintro ⟨pieces, hreturns⟩
      cases (Loop.returns_done hfault).1 hreturns
    · -- the octets are there to be read
      obtain ⟨pieces, hpieces⟩ : ∃ pieces, printAddresses (value ++ [0]) 2 0 n = some pieces :=
        printAddresses_isSome (by omega)
      unfold nextList at hfault
      simp only [getD_append_zero value 1 (by omega), toNat_div_four, hn, hpieces] at hfault
      split_ifs at hfault
      cases hfault
  · rw [getD_append_zero value 1 (by omega), Option.some.injEq] at hoctet
    subst hoctet
    simp only [hn, hused] at hinside heq
    by_cases hlength : 1 + n * 4 < value.length
    · rw [if_pos hlength] at heq
      refine iff_of_false ?_ (by omega)
      rintro ⟨pieces', hreturns⟩
      refine not_returns_ok ?_ pieces' ((Loop.returns_again heq).1 hreturns)
      rw [hreadable]
      change ((1 : UInt32) + UInt32.ofNat (n * 4)).toNat + _ ≤ 1 + 1 + n * 4 + _
      rw [hused]
      omega
    · rw [if_neg hlength] at heq
      refine iff_of_true ⟨_, (Loop.returns_done heq).2 rfl⟩ (by omega)

theorem dumpAddresses_ok_iff (value : List UInt8) :
    (∃ pieces, dumpAddresses (value ++ [0]) value.length = .ok pieces) ↔
      5 ≤ value.length ∧ 4 ≤ (value.getD 0 0).toNat ∧
        ((value.getD 0 0).toNat < 8 ∨ value.length = (value.getD 1 0).toNat / 4 * 4 + 1) := by
  by_cases hlong : 5 ≤ value.length
  · have hhead : (value ++ [0]).headD 0 = value.getD 0 0 := by
      cases value with
      | nil => rfl
      | cons a value => rfl
    have hread : readAddress (value ++ [0]) 1 = some (((value ++ [0]).drop 1).take 4) := by
      refine if_pos ?_
      rw [List.length_append]
      omega
    have hfirst : first (value ++ [0]) value.length =
        if (value.getD 0 0).toNat / 4 < 1 then .done (.error .assertion)
        else if (value.getD 0 0).toNat / 4 = 1 then .done (.ok [.address (((value ++ [0]).drop 1).take 4)])
        else .again { pointer := 1, usedBytes := 1, text := [] } := by
      rw [first, if_neg (by omega), hhead]
      simp only [toNat_div_four, hread]
    by_cases hnone : (value.getD 0 0).toNat / 4 < 1
    · rw [if_pos hnone] at hfirst
      unfold dumpAddresses
      rw [hfirst]
      exact iff_of_false (by simp) (by omega)
    · rw [if_neg hnone] at hfirst
      by_cases hone : (value.getD 0 0).toNat / 4 = 1
      · rw [if_pos hone] at hfirst
        unfold dumpAddresses
        rw [hfirst]
        exact iff_of_true ⟨_, rfl⟩ ⟨hlong, by omega, Or.inl (by omega)⟩
      · rw [if_neg hone] at hfirst
        rw [dumpAddresses_many hlong hfirst]
        have hmany : ¬ (value.getD 0 0).toNat < 8 := by omega
        have hcount : 4 ≤ (value.getD 0 0).toNat := by omega
        simp only [hlong, hcount, hmany, false_or, true_and]
  · have hfirst : first (value ++ [0]) value.length = .done (.error .assertion) := if_pos (by omega)
    unfold dumpAddresses
    rw [hfirst]
    exact iff_of_false (by simp) (by omega)

theorem dumpOption_address {tag : UInt8} (value : List UInt8) (h : optionToFieldType tag = .address) :
    (∃ pieces, dumpOption tag value = .ok pieces) ↔ value ≠ [] ∧ value.length % 4 = 0 := by
  unfold dumpOption
  simp only [h]
  by_cases hmod : value.length % 4 = 0
  · rw [if_neg (by omega)]
    cases value with
    | nil => simp [readAddress]
    | cons a value =>
      have hlength : 4 ≤ (a :: value).length := by
        rw [List.length_cons] at hmod ⊢
        omega
      have hread : readAddress (a :: value ++ [0]) 0 = some (((a :: value ++ [0]).drop 0).take 4) := by
        refine if_pos ?_
        rw [List.length_append]
        omega
      obtain ⟨pieces, hpieces⟩ : ∃ pieces,
          printAddresses (a :: value ++ [0]) 0 0 ((a :: value).length / 4) = some pieces :=
        printAddresses_isSome (by rw [List.length_append]; omega)
      refine iff_of_true ?_ ⟨List.cons_ne_nil a value, hmod⟩
      rw [hread]
      simp only [hpieces]
      split_ifs
      · exact ⟨_, rfl⟩
      · exact ⟨_, rfl⟩
  · rw [if_pos (by omega)]
    simp [hmod]

theorem dumpOption_ok_iff (tag : UInt8) (value : List UInt8) :
    (∃ pieces, dumpOption tag value = .ok pieces) ↔ Printable tag value := by
  cases htype : optionToFieldType tag with
  | address => simp [dumpOption_address value htype, Printable, htype]
  | addresses =>
    simp only [dumpOption, htype, dumpAddresses_ok_iff, Printable]
    simp
  | command | integer | string | invalid => simp [dumpOption, htype, Printable]

theorem dumpOptions_ok_iff (options : List (UInt8 × List UInt8)) :
    (∃ text, dumpOptions options = .ok text) ↔ ∀ o ∈ options, Printable o.1 o.2 := by
  induction options with
  | nil => simp [dumpOptions]
  | cons o options ih =>
    obtain ⟨tag, value⟩ := o
    rw [List.forall_mem_cons, ← ih, ← dumpOption_ok_iff, dumpOptions]
    cases dumpOption tag value with
    | error f => simp [bind, Except.bind]
    | ok pieces => cases dumpOptions options <;> simp [bind, Except.bind, pure, Except.pure]

theorem dump_ok_iff (r : Record) :
    (∃ text, dump r = .ok text) ↔ ∀ tag value, r.options[tag]? = some value → Printable tag value := by
  rw [dump, dumpOptions_ok_iff]
  simp only [Prod.forall, ExtTreeMap.mem_toList_iff_getElem?_eq_some]

theorem AddressList.length_octets (l : AddressList) :
    l.octets.length = 1 + 4 * l.addresses.length := by
  have hsum : (l.addresses.flatMap Subtype.val).length = 4 * l.addresses.length := by
    induction l.addresses with
    | nil => rfl
    | cons a addresses ih =>
      rw [List.flatMap_cons, List.length_append, ih, a.2, List.length_cons]
      omega
  rw [octets, List.length_cons, hsum]
  omega

theorem first_eq (l : AddressList) (a : Octets 4) (addresses : List (Octets 4)) (rest : List UInt8)
    (h : l.addresses = a :: addresses) :
    first (l.octets ++ rest) (l.octets ++ rest).length =
      if addresses = [] then .done (.ok [.address a.1])
      else .again { pointer := 1, usedBytes := 1, text := [] } := by
  have hlength : l.addresses.length = addresses.length + 1 := by rw [h, List.length_cons]
  have hlong : 5 ≤ (l.octets ++ rest).length := by
    rw [List.length_append, l.length_octets]
    omega
  have hcount : ((l.octets ++ rest).headD 0 / 4).toNat = addresses.length + 1 := by
    have hcounted := l.counted
    change (UInt8.ofNat (4 * l.addresses.length) / 4).toNat = _
    rw [UInt8.toNat_div, UInt8.toNat_ofNat', Nat.mod_eq_of_lt (by omega), hlength]
    exact Nat.mul_div_cancel_left _ (by decide)
  have hread : readAddress (l.octets ++ rest) 1 = some a.1 := by
    rw [readAddress, if_pos (by omega), AddressList.octets, h, List.flatMap_cons]
    simp [a.2]
  rw [first, if_neg (by omega), hcount, if_neg (by omega), hread]
  simp only [Nat.add_eq_right, List.length_eq_zero_iff]

theorem printsAll_iff {lists : List AddressList} (h : lists ≠ []) :
    PrintsAll lists ↔ ∃ l, lists = [l] ∧ l.addresses.length = 1 := by
  cases lists with
  | nil => exact absurd rfl h
  | cons l lists =>
  obtain ⟨a, addresses, haddresses⟩ := List.exists_cons_of_ne_nil l.nonempty
  have hfirst := first_eq l a addresses (lists.flatMap AddressList.octets) haddresses
  unfold PrintsAll Dumps
  rw [List.flatMap_cons, hfirst, List.flatMap_cons, haddresses]
  by_cases hone : addresses = []
  · -- The dump has the first address, and no others.
    subst hone
    simp only [if_true, Except.ok.injEq, exists_eq_left]
    constructor
    · intro hprinted
      have hnone : lists = [] := by
        cases lists with
        | nil => rfl
        | cons l' lists =>
          obtain ⟨b, others, hothers⟩ := List.exists_cons_of_ne_nil l'.nonempty
          simp [Piece.address?, hothers] at hprinted
      exact ⟨l, by rw [hnone], by rw [haddresses]; rfl⟩
    · rintro ⟨l', hl', -⟩
      rw [(List.cons.inj hl').2]
      rfl
  · simp only [if_neg hone]
    constructor
    · rintro ⟨text, hreturns, -⟩
      exact absurd hreturns (not_returns_ok le_rfl text)
    · rintro ⟨l', hl', hlength⟩
      rw [← (List.cons.inj hl').1, haddresses, List.length_cons] at hlength
      exact absurd (List.length_eq_zero_iff.1 (by omega)) hone

def oneAddress : AddressList := ⟨[⟨[10, 0, 0, 1], rfl⟩], by simp, by decide⟩

theorem oneAddress_printsAll : PrintsAll [oneAddress] :=
  (printsAll_iff (List.cons_ne_nil _ _)).2 ⟨oneAddress, rfl, rfl⟩

/-- 10.0.0.1 and 10.0.0.2 -/
def twoAddresses : AddressList :=
  ⟨[⟨[10, 0, 0, 1], rfl⟩, ⟨[10, 0, 0, 2], rfl⟩], by simp, by decide⟩

/-- The 10 of the first address is read as the count of a list, and its second address ends behind
the value. -/
theorem twoAddresses_not_printsAll : ¬ PrintsAll [twoAddresses] := by
  rintro ⟨text, hdumps, -⟩
  exact not_returns_ok (c := { pointer := 1, usedBytes := 1, text := [] }) le_rfl text hdumps

end ACENetwork.Dhcp.Dump
