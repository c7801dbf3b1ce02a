import Mathlib
import ACENetwork.Spec.Dhcp.Parser

/-! One call of the DHCP scanner. Each start condition has one rule for a fixed number of
octets, which wins as soon as the buffer holds that many; with fewer octets left the rule
for invalid characters is all that matches. -/

namespace ACENetwork.Dhcp

open ByteOrder Flex Bison

theorem Start.octets_pos (c : Start) : 1 ≤ c.octets := by cases c <;> decide

theorem Start.mem_starts (c : Start) : c ∈ starts := by cases c <;> decide

theorem select_starts (cs : List Start) (c : Start) {s : List UInt8} (hs : s ≠ []) :
    select (cs.map (fun c => (⟨fun c' => decide (c' = c), Pattern.exactly (fun _ => true) c.octets,
        some c⟩ : Flex.Rule Start UInt8 (Option Start))) ++ [⟨fun _ => true, Pattern.any, none⟩]) c s =
      if c ∈ cs ∧ c.octets ≤ s.length then some (some c, c.octets) else some (none, 1) := by
  induction cs with
  | nil =>
    rw [List.map_nil, List.nil_append, if_neg (by simp)]
    exact select_cons_win rfl (by rw [Pattern.longest_any, if_neg hs]) (by simp [select])
  | cons a cs ih =>
    rw [List.map_cons, List.cons_append]
    by_cases ha : c = a
    · subst ha
      by_cases hlen : c.octets ≤ s.length
      · rw [if_pos ⟨List.mem_cons_self, hlen⟩]
        refine select_cons_win (by simp) (by simp [Pattern.longest_exactly, hlen]) ?_
        intro name m hm
        rw [ih] at hm
        split_ifs at hm
        · obtain ⟨-, rfl⟩ : some c = name ∧ c.octets = m := by simpa using hm
          exact le_rfl
        · obtain ⟨-, rfl⟩ : none = name ∧ 1 = m := by simpa using hm
          exact c.octets_pos
      · rw [if_neg (fun h => hlen h.2), select_cons_none (by simp [Pattern.longest_exactly, hlen]), ih,
          if_neg (fun h => hlen h.2)]
    · rw [select_cons_off (by simp [ha]), ih]
      simp [ha]

theorem select_rules (c : Start) {s : List UInt8} (hs : s ≠ []) :
    select rules c s = if c.octets ≤ s.length then some (some c, c.octets) else some (none, 1) := by
  rw [rules, select_starts starts c hs]
  simp [c.mem_starts]

variable {e : Endian} {s : State}

theorem scan_nil (h : s.buffer = []) : scan e s = .token .end_ (.ival 0) s := by simp [scan, h]

theorem scan_short (h : s.buffer ≠ []) (hlen : s.buffer.length < s.start.octets) :
    scan e s = .fault .invalidCharacter := by
  rw [scan, if_neg h, select_rules _ h, if_neg (by omega)]

theorem scan_match (hlen : s.start.octets ≤ s.buffer.length) :
    scan e s = act e s.start (s.buffer.take s.start.octets)
      { s with buffer := s.buffer.drop s.start.octets } := by
  have h : s.buffer ≠ [] := by
    have := s.start.octets_pos
    rintro h0
    rw [h0] at hlen
    simp at hlen
    omega
  rw [scan, if_neg h, select_rules _ h, if_pos hlen]

/-- The first two rules put back the octet that they match. -/
theorem scan_initial {a : UInt8} {b fragment : List UInt8} {record : Record} :
    scan e ⟨.initial, a :: b, fragment, record⟩ = .more ⟨.header, a :: b, fragment, record⟩ := by
  rw [scan_match (by simp [Start.octets])]
  simp [act, Start.octets]

theorem scan_header {a : UInt8} {b fragment : List UInt8} {record : Record} :
    scan e ⟨.header, a :: b, fragment, record⟩ = .more ⟨.op, a :: b, fragment, record⟩ := by
  rw [scan_match (by simp [Start.octets])]
  simp [act, Start.octets]

end ACENetwork.Dhcp
