import Mathlib
import ACENetwork.Spec.Net.Manager

/-! When the lookups return the connection they are asked for: the lookup by address always
does, the other two only where the connection is there, or no connection at all. -/

namespace ACENetwork.Net.Manager

variable {α Address : Type} {conn : Interface α Address} {s : Manager α} {maximum : UInt32}

theorem forIndex_eq {cs : List α} {i index : UInt32} {p : Option α} (hle : index ≤ i)
    (hlt : index.toNat + cs.length < 2 ^ 32) :
    forIndex i index p cs = (cs[i.toNat - index.toNat]? <|> cs.getLast? <|> p) := by
  induction cs generalizing index p with
  | nil => simp [forIndex]
  | cons c cs ih =>
    unfold forIndex
    split_ifs with h
    · subst h; simp
    · have hnext : (index + 1).toNat = index.toNat + 1 := by
        rw [UInt32.toNat_add]
        simp only [List.length_cons] at hlt
        exact Nat.mod_eq_of_lt (by simp; omega)
      have hlt' : index.toNat < i.toNat := by
        have hne : index.toNat ≠ i.toNat := fun h' => h (UInt32.toNat_inj.1 h')
        have := UInt32.le_iff_toNat_le.1 hle
        omega
      rw [ih (UInt32.le_iff_toNat_le.2 (by omega)) (by simp only [List.length_cons] at hlt; omega), hnext]
      obtain ⟨k, hk⟩ : ∃ k, i.toNat - index.toNat = k + 1 := ⟨i.toNat - index.toNat - 1, by omega⟩
      rw [hk, show i.toNat - (index.toNat + 1) = k by omega, List.getElem?_cons_succ]
      cases cs <;> simp [List.getLast?_cons]

theorem forHandle_eq {cs : List α} {i : ConnectionId} {p : Option α} :
    forHandle conn i p cs = (cs.find? (fun c => conn.id c = i) <|> cs.getLast? <|> p) := by
  induction cs generalizing p with
  | nil => simp [forHandle]
  | cons c cs ih =>
    unfold forHandle
    split_ifs with h
    · simp [h]
    · rw [ih, List.find?_cons_of_neg (by simpa using h)]
      cases cs <;> simp [List.getLast?_cons]

theorem forAddress_eq [DecidableEq Address] {cs : List α} {a : Address} (isPeerAddress : Bool) :
    forAddress conn a isPeerAddress none cs =
      cs.find? fun c => (if isPeerAddress = true then conn.peerAddress else conn.localAddress) c = a := by
  induction cs with
  | nil => rfl
  | cons c cs ih =>
    unfold forAddress
    cases isPeerAddress with
    | false =>
      by_cases h : conn.localAddress c = a
      · simp [h]
      · simpa [h] using ih
    | true =>
      by_cases h : conn.peerAddress c = a
      · simp [h]
      · simpa [h] using ih

variable [DecidableEq α]

@[simp] theorem increase_connections (c : α) : (s.increase c).connections = s.connections := rfl

@[simp] theorem decrease_connections (c : α) : (s.decrease c).connections = s.connections := rfl

@[simp] theorem increase_maximum (c : α) :
    (s.increase c).maximumNumberOfConnections = s.maximumNumberOfConnections := rfl

@[simp] theorem decrease_maximum (c : α) :
    (s.decrease c).maximumNumberOfConnections = s.maximumNumberOfConnections := rfl

theorem increase_eq (c : α) :
    s.increase c =
      { s with references := fun d => s.references d + if some c = some d then 1 else 0 } := by
  unfold increase
  congr 1
  funext d
  by_cases h : d = c
  · subst h; simp
  · simp [Function.update_of_ne h, Ne.symm h]

theorem register_cases (s : Manager α) (c : α) (fault : Option Fault) :
    (s.register_ c fault = (false, s)) ∨
    (s.register_ c fault = (false, (s.increase c).decrease c)) ∨
    (s.isActive = true ∧ s.connections.length < s.maximumNumberOfConnections.toNat ∧
      fault = none ∧
      s.register_ c fault = (true, { s.increase c with connections := s.connections ++ [c] })) := by
  unfold register_
  split_ifs with h
  · exact .inl rfl
  · push Not at h
    cases fault with
    | none => exact .inr (.inr ⟨by simpa using h.1, h.2, rfl, rfl⟩)
    | some f =>
      cases f with
      | increase => exact .inl rfl
      | insertTail => exact .inr (.inl rfl)

theorem deregister_cases (s : Manager α) (c : α) :
    (c ∉ s.connections ∧ s.deregister c = (false, s)) ∨
    (c ∈ s.connections ∧ s.deregister c =
      ((s.connections.erase c).isEmpty, { s with connections := s.connections.erase c }.decrease c)) := by
  unfold deregister
  split_ifs with h
  · exact .inr ⟨h, rfl⟩
  · exact .inl ⟨h, rfl⟩

theorem Reachable.length_le (h : Reachable maximum s) :
    s.maximumNumberOfConnections = maximum ∧ s.connections.length ≤ maximum.toNat := by
  induction h with
  | init => exact ⟨rfl, Nat.zero_le _⟩
  | @register_ s _ c fault ih =>
    obtain h | h | ⟨-, hlt, -, h⟩ := register_cases s c fault <;> rw [h]
    · exact ih
    · exact ih
    · rw [ih.1] at hlt
      exact ⟨ih.1, by simpa using hlt⟩
  | @deregister s _ c ih =>
    obtain ⟨-, h⟩ | ⟨-, h⟩ := deregister_cases s c <;> rw [h]
    · exact ih
    · exact ⟨ih.1, List.length_erase_le.trans ih.2⟩
  | @start s _ scheduled ih => unfold Manager.start; split_ifs <;> exact ih
  | stop _ ih => exact ih

/-- There is an answer to the lookup, or no connection at all. The invalid handle is excluded
by an assertion, and the lookup by address needs neither. -/
def Present (conn : Interface α Address) (s : Manager α) : Lookup Address → Prop
  | .index i => s.connections = [] ∨ i.toNat < s.connections.length
  | .id i => i ≠ invalidHandle ∧ (s.connections = [] ∨ ∃ c ∈ s.connections, conn.id c = i)
  | .address _ _ => True

variable [DecidableEq Address]

/-- The reference that `get` takes is always to what it returns, so only that can be wrong. -/
theorem answers_iff_wanted {l : Lookup Address} {p : Option α} (h : s.find conn l = some p) :
    s.Answers conn l ↔ s.Wanted conn p l := by
  constructor
  · rintro ⟨p', s', hget, hwanted, -⟩
    unfold get at hget
    cases p <;> simp only [h, Option.some.injEq, Prod.mk.injEq] at hget <;>
      rwa [← hget.1] at hwanted
  · intro hwanted
    cases p with
    | none => exact ⟨none, s, by simp [get, h], hwanted, by simp⟩
    | some c => exact ⟨some c, s.increase c, by simp [get, h], hwanted, increase_eq c⟩

theorem answers_index_iff (hlength : s.connections.length < 2 ^ 32) (i : UInt32) :
    s.Answers conn (.index i) ↔ s.Present conn (.index i) := by
  have hfind : s.find conn (.index i) = some (forIndex i 0 none s.connections) := rfl
  rw [answers_iff_wanted hfind, forIndex_eq (UInt32.le_iff_toNat_le.2 (Nat.zero_le _)) (by simpa using hlength)]
  simp only [Wanted, Present, UInt32.toNat_zero, Nat.sub_zero]
  by_cases hi : i.toNat < s.connections.length
  · simp [hi]
  · simp [hi]

theorem answers_id_iff (i : ConnectionId) :
    s.Answers conn (.id i) ↔ s.Present conn (.id i) := by
  unfold Present
  by_cases hi : i = invalidHandle
  · -- the assertion fails
    refine ⟨?_, fun h => absurd hi h.1⟩
    rintro ⟨p, s', hget, -⟩
    simp [get, find, hi] at hget
  have hfind : s.find conn (.id i) = some (forHandle conn i none s.connections) := by simp [find, hi]
  rw [answers_iff_wanted hfind, forHandle_eq]
  unfold Wanted
  cases hp : s.connections.find? (fun c => conn.id c = i) with
  | some c =>
    have hid : conn.id c = i := by simpa using List.find?_some hp
    have hmem : c ∈ s.connections := List.mem_of_find?_eq_some hp
    refine ⟨fun _ => ⟨hi, .inr ⟨c, hmem, hid⟩⟩, fun _ d => ?_⟩
    simp only [Option.orElse_eq_orElse, Option.orElse_some, Option.some.injEq]
    refine ⟨fun h => h ▸ ⟨hmem, hid⟩, fun h => conn.id_injective (hid.trans h.2.symm)⟩
  | none =>
    have habsent : ∀ c ∈ s.connections, conn.id c ≠ i := by simpa using List.find?_eq_none.1 hp
    constructor
    · intro h
      refine ⟨hi, .inl ?_⟩
      -- the last connection would be the answer
      by_contra hne
      have hlast := (h (s.connections.getLast hne)).1 (by simp [List.getLast?_eq_getLast_of_ne_nil hne])
      exact habsent _ hlast.1 hlast.2
    · rintro ⟨-, hnil | ⟨c, hc, hid⟩⟩
      · simp [hnil]
      · exact absurd hid (habsent c hc)

theorem answers_address (a : Address) (isPeerAddress : Bool) :
    s.Answers conn (.address a isPeerAddress) := by
  have hfind : s.find conn (.address a isPeerAddress) =
      some (forAddress conn a isPeerAddress none s.connections) := rfl
  rw [answers_iff_wanted hfind, forAddress_eq]
  unfold Wanted
  constructor
  · intro c hc
    exact ⟨List.mem_of_find?_eq_some hc, by simpa using List.find?_some hc⟩
  · intro h
    simpa using h

theorem answers_iff (h : Reachable maximum s) (l : Lookup Address) :
    s.Answers conn l ↔ s.Present conn l := by
  cases l with
  | index i => exact answers_index_iff (h.length_le.2.trans_lt maximum.toNat_lt) i
  | id i => exact answers_id_iff i
  | address a isPeerAddress => exact ⟨fun _ => trivial, fun _ => answers_address a isPeerAddress⟩

def numbered : Interface (Fin 4) ℕ where
  id i := ⟨i.val + 1, by omega⟩
  localAddress _ := 0
  peerAddress i := i
  id_injective i j h := by simpa [UInt32.ext_iff, Fin.ext_iff] using h

/-- A manager of at most `10` connections, with the first two of them. -/
def firstTwo : Manager (Fin 4) :=
  ((({ maximumNumberOfConnections := 10 } : Manager (Fin 4)).register_ 0 none).2.register_ 1 none).2

theorem reachable_firstTwo : Reachable 10 firstTwo := ((Reachable.init _).register_ 0 none).register_ 1 none

theorem answers_firstTwo : Reachable 10 firstTwo ∧ firstTwo.Answers numbered (.id 2) :=
  ⟨reachable_firstTwo, (answers_iff reachable_firstTwo _).2 ⟨by decide, .inr ⟨1, by decide, by decide⟩⟩⟩

/-- An identifier and an index that do not exist give the last connection. -/
theorem not_answers_firstTwo :
    Reachable 10 firstTwo ∧
      (firstTwo.get numbered (.id 3) = some (some 1, firstTwo.increase 1) ∧
        ¬ firstTwo.Answers numbered (.id 3)) ∧
      firstTwo.get numbered (.index 2) = some (some 1, firstTwo.increase 1) ∧
        ¬ firstTwo.Answers numbered (.index 2) := by
  refine ⟨reachable_firstTwo, ⟨rfl, ?_⟩, rfl, ?_⟩
  · rintro ⟨p, s', hget, hwanted, -⟩
    obtain ⟨rfl, -⟩ : some 1 = p ∧ _ := by simpa using Option.some.inj hget
    exact absurd ((hwanted 1).1 rfl).2 (by decide)
  · rintro ⟨p, s', hget, hwanted, -⟩
    obtain ⟨rfl, -⟩ : some 1 = p ∧ _ := by simpa using Option.some.inj hget
    have hnone : (some 1 : Option (Fin 4)) = firstTwo.connections[(2 : ℕ)]? := hwanted
    exact absurd hnone (by decide)

end ACENetwork.Net.Manager
