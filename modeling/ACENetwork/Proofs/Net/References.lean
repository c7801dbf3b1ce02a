import Mathlib
import ACENetwork.Library.Transition
import ACENetwork.Spec.Net.Threads
import ACENetwork.Proofs.Net.Lookup

/-! The references of the manager's connections. Every step but the first one of `abort ()` gives
back what it takes or hands it on, and that one does unless it leaves behind its first connection. -/

namespace ACENetwork.Net

open Transition

variable {ι α Address : Type} [DecidableEq α] {m : Manager α}

namespace Manager

theorem increase_references (c d : α) :
    (m.increase c).references d = m.references d + if c = d then 1 else 0 := by
  rw [increase_eq]
  simp

theorem decrease_references (c d : α) :
    (m.decrease c).references d = m.references d - if c = d then 1 else 0 := by
  unfold decrease
  by_cases h : d = c
  · subst h; simp
  · simp [Function.update_of_ne h, Ne.symm h]

theorem decrease_increase (c : α) : (m.increase c).decrease c = m := by
  unfold increase decrease
  simp

def taken (m : Manager α) (cs : List α) : Manager α :=
  { m with references := fun c => m.references c + cs.count c }

theorem taken_cons (m : Manager α) (c : α) (cs : List α) : m.taken (c :: cs) = (m.increase c).taken cs := by
  unfold taken
  simp only [increase_references, List.count_cons, beq_iff_eq]
  congr 1
  funext d
  split_ifs <;> push_cast <;> ring

theorem gather_cases (faults : ℕ → Option Fault) (a : List α) (m : Manager α) (cs : List α) :
    (m.gather faults a cs = (.filled (a ++ cs), m.taken cs) ∧ ∀ n < cs.length, faults n = none) ∨
    ∃ k < cs.length, (∀ n < k, faults n = none) ∧ faults k ≠ none ∧
      ∃ exit, (∀ l, exit ≠ .filled l) ∧ m.gather faults a cs = (exit, m.taken (cs.take k)) := by
  induction cs generalizing faults a m with
  | nil => exact .inl ⟨by simp [gather, taken], by simp⟩
  | cons c cs ih =>
    unfold gather
    cases hfault : faults 0 with
    | some f =>
      refine .inr ⟨0, by simp, by simp, by simp [hfault], ?_⟩
      cases f with
      | increase => exact ⟨.thrown, by simp, by simp [taken]⟩
      | insertTail => exact ⟨.returned, by simp, by simp [taken, decrease_increase]⟩
    | none =>
      obtain ⟨hgather, hnone⟩ | ⟨k, hk, hnone, hsome, exit, hexit, hgather⟩ :=
        ih (fun n => faults (n + 1)) (a ++ [c]) (m.increase c)
      · refine .inl ⟨?_, ?_⟩
        · rw [hgather, taken_cons, List.append_assoc, List.singleton_append]
        · intro n hn
          cases n with
          | zero => exact hfault
          | succ n => exact hnone n (by simpa using hn)
      · refine .inr ⟨k + 1, by simpa using hk, ?_, hsome, exit, hexit, ?_⟩
        · intro n hn
          cases n with
          | zero => exact hfault
          | succ n => exact hnone n (by omega)
        · rw [hgather, List.take_succ_cons, taken_cons]

end Manager

namespace System

variable [Fintype ι] {s s' : System ι α}

def inFlight (s : System ι α) (c : α) : ℕ := ∑ t, (s.calls t).count c

/-- Every reference is held by a caller, or by a call under way, or it is that of an element of
`connections_`. -/
def Balanced (s : System ι α) : Prop :=
  ∀ c, s.manager.references c = s.held c + s.manager.connections.count c + s.inFlight c

/-- The first step of `abort ()` fails at its first connection or nowhere. -/
def GathersAllOrNone (s : System ι α) (e : ι × Action α Address) (_ : System ι α) : Prop :=
  match e.2 with
  | .gather faults => faults 0 = none → ∀ n < s.manager.connections.length, faults n = none
  | _ => True

theorem inFlight_eq_zero (h : ∀ t, s.calls t = .idle) (c : α) : s.inFlight c = 0 := by
  unfold inFlight
  simp [h, Call.count]

theorem Initial.balanced (h : s.Initial) : s.Balanced := by
  intro c
  rw [h.references, h.connections, inFlight_eq_zero h.calls]
  simp

@[simp] theorem count_signal (call : Call α) (c : α) : call.signal.count c = call.count c := by
  cases call <;> rfl

theorem Balanced.register_ (h : s.Balanced) (c : α) (fault : Option Fault) :
    ({ s with manager := (s.manager.register_ c fault).2 } : System ι α).Balanced := by
  obtain hcase | hcase | ⟨-, -, -, hcase⟩ := Manager.register_cases s.manager c fault <;> rw [hcase]
  · exact h
  · simpa only [Manager.decrease_increase] using h
  · intro d
    have hd := h d
    have hfresh := Manager.increase_references (m := s.manager) c d
    simp only [inFlight] at hd ⊢
    rw [List.count_append, List.count_singleton]
    by_cases hcd : c = d
    · simp only [hcd, ↓reduceIte, BEq.rfl] at hfresh ⊢
      omega
    · simp only [hcd, ↓reduceIte, beq_iff_eq] at hfresh ⊢
      omega

theorem Balanced.deregister (h : s.Balanced) (c : α) (calls : ι → Call α)
    (hcalls : ∀ t d, (calls t).count d = (s.calls t).count d) :
    ({ s with manager := (s.manager.deregister c).2, calls := calls } : System ι α).Balanced := by
  intro d
  have hd := h d
  simp only [inFlight, hcalls] at hd ⊢
  obtain ⟨-, hcase⟩ | ⟨hmem, hcase⟩ := Manager.deregister_cases s.manager c <;> rw [hcase]
  · exact hd
  · have hgone := Manager.decrease_references
      (m := { s.manager with connections := s.manager.connections.erase c }) c d
    have hpos : 0 < s.manager.connections.count c := List.count_pos_iff.2 hmem
    simp only [Manager.decrease_connections, List.count_erase]
    by_cases hcd : c = d
    · subst hcd
      simp only [↓reduceIte, BEq.rfl] at hgone ⊢
      omega
    · simp only [hcd, ↓reduceIte, beq_iff_eq] at hgone ⊢
      omega

theorem Balanced.held (h : s.Balanced) (c : α) :
    ({ s with manager := s.manager.increase c, held := Function.update s.held c (s.held c + 1) } :
      System ι α).Balanced := by
  intro d
  have hd := h d
  have htaken := Manager.increase_references (m := s.manager) c d
  simp only [inFlight, Manager.increase_connections] at hd ⊢
  by_cases hcd : c = d
  · subst hcd
    simp only [↓reduceIte, Function.update_self] at htaken ⊢
    omega
  · simp only [hcd, ↓reduceIte, Function.update_of_ne (Ne.symm hcd)] at htaken ⊢
    omega

theorem Balanced.release (h : s.Balanced) {c : α} (hc : s.held c ≠ 0) :
    ({ s with manager := s.manager.decrease c, held := Function.update s.held c (s.held c - 1) } :
      System ι α).Balanced := by
  intro d
  have hd := h d
  have hgiven := Manager.decrease_references (m := s.manager) c d
  simp only [inFlight, Manager.decrease_connections] at hd ⊢
  by_cases hcd : c = d
  · subst hcd
    simp only [↓reduceIte, Function.update_self] at hgiven ⊢
    omega
  · simp only [hcd, ↓reduceIte, Function.update_of_ne (Ne.symm hcd)] at hgiven ⊢
    omega

variable [DecidableEq ι]

theorem inFlight_goto (s : System ι α) (t : ι) (call : Call α) (c : α) :
    (s.goto t call).inFlight c + (s.calls t).count c = s.inFlight c + call.count c := by
  change (∑ u, (Function.update s.calls t call u).count c) + _ = (∑ u, (s.calls u).count c) + _
  have hsum := Finset.sum_erase_add Finset.univ (fun u => (s.calls u).count c) (Finset.mem_univ t)
  have hsum' := Finset.sum_erase_add Finset.univ
    (fun u => ((Function.update s.calls t call) u).count c) (Finset.mem_univ t)
  have hrest : ∑ u ∈ Finset.univ.erase t, ((Function.update s.calls t call) u).count c =
      ∑ u ∈ Finset.univ.erase t, (s.calls u).count c := by
    apply Finset.sum_congr rfl
    intro u hu
    rw [Function.update_of_ne (Finset.ne_of_mem_erase hu)]
  simp only [Function.update_self] at hsum'
  omega

theorem Balanced.goto (h : s.Balanced) {m : Manager α} {t : ι} {call : Call α}
    (hconnections : m.connections = s.manager.connections)
    (hreferences : ∀ c, m.references c + (s.calls t).count c = s.manager.references c + call.count c) :
    (({ s with manager := m } : System ι α).goto t call).Balanced := by
  intro c
  have hgoto := inFlight_goto { s with manager := m } t call c
  have hbalanced := h c
  have hc := hreferences c
  change m.references c = s.held c + m.connections.count c + _
  simp only [inFlight] at hgoto hbalanced hc ⊢
  rw [hconnections]
  omega

theorem balanced_gather_iff (h : s.Balanced) {t : ι} {wait : Bool} (ht : s.calls t = .aborting wait)
    {e : Action α Address} {faults : ℕ → Option Fault} (he : e = .gather faults)
    {conn : Interface α Address} [DecidableEq Address] (hs' : s.step conn (t, e) = some s') :
    s'.Balanced ↔ s.GathersAllOrNone (t, e) s' := by
  subst he
  unfold step at hs'
  simp only [ht] at hs'
  obtain ⟨hgather, hnone⟩ | ⟨k, hk, hbefore, hfault, exit, hexit, hgather⟩ :=
    Manager.gather_cases faults [] s.manager s.manager.connections
  · simp only [hgather, Option.some.injEq] at hs'
    subst hs'
    refine ⟨fun _ _ => hnone, fun _ => h.goto rfl fun c => ?_⟩
    rw [ht, List.nil_append]
    cases hc : s.manager.connections with
    | nil => simp [Call.count, Manager.taken]
    | cons c cs => simp [Call.count, Manager.taken]
  · have hs : s' = { s with manager := s.manager.taken (s.manager.connections.take k) }.goto t .idle := by
      cases exit with
      | filled l => exact absurd rfl (hexit l)
      | returned => simpa [hgather, eq_comm] using hs'
      | thrown => simpa [hgather, eq_comm] using hs'
    have hkept (c : α) : s'.Balanced → (s.manager.connections.take k).count c = 0 := by
      intro hb
      have hbc := hb c
      have hhc := h c
      have hgoto :=
        inFlight_goto { s with manager := s.manager.taken (s.manager.connections.take k) } t .idle c
      rw [hs] at hbc
      simp only [goto, inFlight, ht, Call.count, Manager.taken] at hbc hhc hgoto
      omega
    constructor
    · intro hb hzero
      -- the first connection was taken
      obtain ⟨c, cs, hcons⟩ : ∃ c cs, s.manager.connections = c :: cs :=
        List.exists_cons_of_length_pos (by omega)
      obtain ⟨j, rfl⟩ : ∃ j, k = j + 1 := by
        cases k with
        | zero => exact absurd hzero hfault
        | succ j => exact ⟨j, rfl⟩
      have := hkept c hb
      rw [hcons, List.take_succ_cons, List.count_cons_self] at this
      omega
    · intro hall
      have hk0 : k = 0 := by
        by_contra hne
        exact hfault (hall (hbefore 0 (by omega)) k hk)
      subst hk0 hs
      exact h.goto rfl fun c => by simp [ht, Call.count, Manager.taken]

variable [DecidableEq Address] {conn : Interface α Address}

theorem Balanced.get (h : s.Balanced) {t : ι} {l : Manager.Lookup Address} {throws : Bool}
    (hs' : s.step conn (t, .get l throws) = some s') : s'.Balanced := by
  unfold step at hs'
  simp only [Manager.get] at hs'
  cases hfind : s.manager.find conn l with
  | none => simp [hfind] at hs'
  | some p =>
    cases p with
    | none =>
      simp only [hfind, Option.some.injEq] at hs'
      exact hs' ▸ h
    | some c =>
      cases throws with
      | false =>
        simp only [hfind, Bool.false_eq_true, ↓reduceIte, Option.some.injEq] at hs'
        exact hs' ▸ h.held c
      | true =>
        simp only [hfind, ↓reduceIte, Option.some.injEq] at hs'
        exact hs' ▸ h

theorem Balanced.abortStrategy (h : s.Balanced) {t : ι} {strategy : AbortStrategy} {throws : Bool}
    (hs' : s.step conn (t, .abortStrategy strategy throws) = some s') : s'.Balanced := by
  unfold step at hs'
  cases ht : s.calls t with
  | idle =>
    cases hc : oldestOrNewest s.manager strategy with
    | none =>
      simp only [ht, hc, Option.some.injEq] at hs'
      exact hs' ▸ h
    | some c =>
      simp only [ht, hc] at hs'
      split_ifs at hs' with hthrows
      · exact Option.some.inj hs' ▸ h
      · rw [← Option.some.inj hs']
        refine h.goto rfl fun d => ?_
        rw [Manager.increase_references, ht]
        simp [Call.count]
  | _ => simp [ht] at hs'

theorem Balanced.close (h : s.Balanced) {t : ι} (hs' : s.step conn (t, .close) = some s') :
    s'.Balanced := by
  unfold step at hs'
  cases ht : s.calls t with
  | closing wait cs =>
    cases cs with
    | nil =>
      cases wait <;> simp only [ht, Option.some.injEq] at hs' <;> subst hs' <;>
        exact h.goto rfl fun d => by simp [ht, Call.count]
    | cons c cs =>
      simp only [ht, Option.some.injEq] at hs'
      subst hs'
      refine h.goto rfl fun d => ?_
      rw [Manager.decrease_references, ht]
      simp only [Call.count, List.count_cons, beq_iff_eq]
      split_ifs <;> push_cast <;> ring
  | _ => simp [ht] at hs'

theorem Balanced.closeOne (h : s.Balanced) {t : ι} (hs' : s.step conn (t, .closeOne) = some s') :
    s'.Balanced := by
  unfold step at hs'
  cases ht : s.calls t with
  | closingOne c =>
    simp only [ht, Option.some.injEq] at hs'
    subst hs'
    refine h.goto rfl fun d => ?_
    rw [Manager.decrease_references, ht]
    simp [Call.count]
  | _ => simp [ht] at hs'

theorem Balanced.move (h : s.Balanced) {t : ι} {m : Manager α} {call : Call α}
    (hconnections : m.connections = s.manager.connections)
    (hreferences : m.references = s.manager.references)
    (hbefore : ∀ c, (s.calls t).count c = 0) (hafter : ∀ c, call.count c = 0) :
    (({ s with manager := m } : System ι α).goto t call).Balanced :=
  h.goto hconnections fun c => by rw [hreferences, hbefore, hafter]

theorem balanced_step_iff (h : s.Balanced) {e : ι × Action α Address}
    (hs' : s.step conn e = some s') : s'.Balanced ↔ s.GathersAllOrNone e s' := by
  obtain ⟨t, e⟩ := e
  have of_balanced (hb : s'.Balanced) (he : s.GathersAllOrNone (t, e) s') :
      s'.Balanced ↔ s.GathersAllOrNone (t, e) s' := ⟨fun _ => he, fun _ => hb⟩
  cases e with
  | gather faults =>
    cases ht : s.calls t with
    | aborting wait => exact balanced_gather_iff h ht rfl hs'
    | _ => simp [step, ht] at hs'
  | increase c => exact of_balanced (Option.some.inj hs' ▸ h.held c) trivial
  | decrease c =>
    refine of_balanced ?_ trivial
    simp only [step] at hs'
    split_ifs at hs' with hc
    exact Option.some.inj hs' ▸ h.release hc
  | register_ c fault => exact of_balanced (Option.some.inj hs' ▸ h.register_ c fault) trivial
  | deregister c =>
    refine of_balanced (Option.some.inj hs' ▸ h.deregister c _ fun t d => ?_) trivial
    split_ifs
    · exact count_signal _ d
    · rfl
  | get l throws => exact of_balanced (h.get hs') trivial
  | collect | reset | dumpState => exact of_balanced (Option.some.inj hs' ▸ h) trivial
  | start scheduled =>
    refine of_balanced (Option.some.inj hs' ▸ ?_) trivial
    cases scheduled <;> exact h
  | stop wait =>
    refine of_balanced ?_ trivial
    cases ht : s.calls t with
    | idle =>
      cases wait with
      | false => simp only [step, ht, Bool.false_eq_true, ↓reduceIte, Option.some.injEq] at hs'; exact hs' ▸ h
      | true =>
        simp only [step, ht, ↓reduceIte, Option.some.injEq] at hs'
        exact hs' ▸ h.move rfl rfl (by simp [ht, Call.count]) (by simp [Call.count])
    | _ => simp [step, ht] at hs'
  | wait =>
    refine of_balanced ?_ trivial
    cases ht : s.calls t with
    | idle =>
      simp only [step, ht, Option.some.injEq] at hs'
      exact hs' ▸ h.move rfl rfl (by simp [ht, Call.count]) (by simp [Call.count])
    | _ => simp [step, ht] at hs'
  | check =>
    refine of_balanced ?_ trivial
    cases ht : s.calls t with
    | waiting stopping =>
      simp only [step, ht, Option.some.injEq] at hs'
      refine hs' ▸ h.move rfl rfl (by simp [ht, Call.count]) fun c => ?_
      split_ifs <;> rfl
    | _ => simp [step, ht] at hs'
  | wake =>
    refine of_balanced ?_ trivial
    cases ht : s.calls t with
    | blocked stopping =>
      simp only [step, ht, Option.some.injEq] at hs'
      exact hs' ▸ h.move rfl rfl (by simp [ht, Call.count]) (by simp [Call.count])
    | _ => simp [step, ht] at hs'
  | abort wait =>
    refine of_balanced ?_ trivial
    cases ht : s.calls t with
    | idle =>
      simp only [step, ht, Option.some.injEq] at hs'
      exact hs' ▸ h.move rfl rfl (by simp [ht, Call.count]) (by simp [Call.count])
    | _ => simp [step, ht] at hs'
  | close => exact of_balanced (h.close hs') trivial
  | abortStrategy strategy throws => exact of_balanced (h.abortStrategy hs') trivial
  | closeOne => exact of_balanced (h.closeOne hs') trivial

def Accounted (s : System ι α) : Prop :=
  ∀ c, s.manager.references c = s.held c + s.manager.connections.count c

/-- Runs are balanced in every state exactly if no first step of an `abort ()` stops behind its
first connection; a balanced state in which no call is under way is accounted for. -/
theorem balanced_iff_gathersAllOrNone (h : s.Initial) (es : List (ι × Action α Address)) :
    (Always (step conn) (fun _ _ s' => s'.Balanced) s es ↔ Always (step conn) GathersAllOrNone s es) ∧
      ∀ s' : System ι α, s'.Balanced → (∀ t, s'.calls t = .idle) → s'.Accounted := by
  have hiff : ∀ (s : System ι α) e s', s.Balanced → step conn s e = some s' →
      (s'.Balanced ↔ GathersAllOrNone s e s') := fun s e s' hs hstep => balanced_step_iff hs hstep
  refine ⟨always_iff_of_step hiff ?_ es h.balanced, ?_⟩
  · intro s e s' hs hstep hgathers
    exact (hiff s e s' hs hstep).2 hgathers
  · intro s' hs' hidle c
    have := hs' c
    rw [inFlight_eq_zero hidle c] at this
    simpa using this

/-- A new manager, two threads, and four connections with one reference each. -/
def fresh : System (Fin 2) (Fin 4) where
  manager := { maximumNumberOfConnections := 10, references := fun _ => 1 }
  held _ := 1
  calls _ := .idle

theorem initial_fresh : fresh.Initial := ⟨rfl, rfl, fun _ => rfl, fun _ => rfl⟩

/-- `abort (false)` with two connections registered, with these faults in its first step. -/
def abortTwo (t : ι) (c d : α) (faults : ℕ → Option Fault) : List (ι × Action α ℕ) :=
  [(t, .register_ c none), (t, .register_ d none), (t, .abort false), (t, .gather faults)]

theorem balanced_abortTwo :
    fresh.Initial ∧
      Always (step Manager.numbered) (fun _ _ s' => s'.Balanced) fresh
        (abortTwo 0 0 1 fun _ => none) := by
  refine ⟨initial_fresh, (balanced_iff_gathersAllOrNone initial_fresh _).1.2 ?_⟩
  refine always_of_forall (P := fun e => ∀ faults, e.2 = .gather faults → ∀ n, faults n = none) ?_ _ ?_
  · intro s e s' hfaults _
    unfold GathersAllOrNone
    split
    next faults hgather => exact fun _ n _ => hfaults faults hgather n
    next => trivial
  · intro e he faults hgather n
    simp only [abortTwo, List.mem_cons, List.not_mem_nil, or_false] at he
    obtain rfl | rfl | rfl | rfl := he
    case inr.inr.inr => exact (Action.gather.inj hgather) ▸ rfl
    all_goals exact absurd hgather (by simp)

/-- `insert_tail ()` fails at the second connection, and the first one keeps its third reference. -/
theorem not_accounted_abortTwo :
    fresh.Initial ∧ ∃ s', exec (step Manager.numbered) fresh
        (abortTwo 0 0 1 fun n => if n = 1 then some .insertTail else none) = some s' ∧
      (∀ t, s'.calls t = .idle) ∧ s'.manager.references 0 = 3 ∧ s'.held 0 = 1 ∧
      s'.manager.connections = [0, 1] ∧ ¬ s'.Accounted := by
  refine ⟨initial_fresh, _, rfl, ?_, by decide, rfl, by decide, fun h => absurd (h 0) (by decide)⟩
  decide

end System

end ACENetwork.Net
