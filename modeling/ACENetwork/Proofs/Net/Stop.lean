import Mathlib
import ACENetwork.Library.Transition
import ACENetwork.Spec.Net.Threads
import ACENetwork.Proofs.Net.Lookup

/-! A stopped manager stays empty, unless it is started again before `stop ()` returns; and
nobody sleeps in `wait ()` once the list is empty. -/

namespace ACENetwork.Net.System

open Transition

variable {ι α Address : Type} {conn : Interface α Address} {s s' : System ι α} {e : ι × Action α Address}

theorem signal_ne_blocked (call : Call α) (stopping : Bool) : call.signal ≠ .blocked stopping := by
  cases call <;> simp [Call.signal]

theorem blocked_goto [DecidableEq ι] {m : Manager α} {t : ι} {call : Call α} (hcall : ∀ stopping, call ≠ .blocked stopping)
    (u : ι) (stopping : Bool)
    (h : (({ s with manager := m } : System ι α).goto t call).calls u = .blocked stopping) :
    s.calls u = .blocked stopping := by
  change Function.update s.calls t call u = .blocked stopping at h
  by_cases hu : u = t
  · subst hu
    rw [Function.update_self] at h
    exact absurd h (hcall stopping)
  · rwa [Function.update_of_ne hu] at h

variable [DecidableEq α]

theorem gather_manager (faults : ℕ → Option Fault) (a : List α) (m : Manager α) (cs : List α) :
    (m.gather faults a cs).2.connections = m.connections ∧ (m.gather faults a cs).2.isActive = m.isActive := by
  induction cs generalizing faults a m with
  | nil => exact ⟨rfl, rfl⟩
  | cons c cs ih =>
    unfold Manager.gather
    cases faults 0 with
    | none => exact ih _ _ (m.increase c)
    | some f => cases f <;> exact ⟨rfl, rfl⟩

theorem get_manager [DecidableEq Address] {m m' : Manager α} {l : Manager.Lookup Address} {p : Option α}
    (h : m.get conn l = some (p, m')) : m'.connections = m.connections ∧ m'.isActive = m.isActive := by
  unfold Manager.get at h
  split at h
  · simp at h
  · obtain ⟨-, rfl⟩ := Prod.mk.inj (Option.some.inj h)
    exact ⟨rfl, rfl⟩
  · obtain ⟨-, rfl⟩ := Prod.mk.inj (Option.some.inj h)
    exact ⟨rfl, rfl⟩

/-- What a step does to the list, to the flag, and to the threads that sleep. -/
inductive Change (s s' : System ι α) : Action α Address → Prop where
  | move {a : Action α Address} (hconnections : s'.manager.connections = s.manager.connections)
      (hactive : s'.manager.isActive = s.manager.isActive)
      (hcalls : ∀ u stopping, s'.calls u = .blocked stopping → s.calls u = .blocked stopping) : Change s s' a
  | sleep {a : Action α Address} (hmanager : s'.manager = s.manager)
      (hsome : s.manager.connections ≠ []) : Change s s' a
  | registered {a : Action α Address} (c : α) (hactive : s.manager.isActive = true)
      (hconnections : s'.manager.connections = s.manager.connections ++ [c]) : Change s s' a
  | deregistered {a : Action α Address} (c : α)
      (hconnections : s'.manager.connections = s.manager.connections.erase c)
      (hactive : s'.manager.isActive = s.manager.isActive)
      (hcalls : s'.manager.connections = [] → ∀ u stopping, s'.calls u ≠ .blocked stopping) : Change s s' a
  | stopped {wait : Bool} (hconnections : s'.manager.connections = s.manager.connections)
      (hactive : s'.manager.isActive = false)
      (hcalls : ∀ u stopping, s'.calls u = .blocked stopping → s.calls u = .blocked stopping) :
      Change s s' (.stop wait)
  | started (hconnections : s'.manager.connections = s.manager.connections)
      (hcalls : s'.calls = s.calls) : Change s s' (.start true)

theorem Change.goto [DecidableEq ι] {a : Action α Address} {m : Manager α} {t : ι} {call : Call α}
    (hconnections : m.connections = s.manager.connections) (hactive : m.isActive = s.manager.isActive)
    (hcall : ∀ stopping, call ≠ .blocked stopping) :
    Change s (({ s with manager := m } : System ι α).goto t call) a :=
  .move hconnections hactive (blocked_goto hcall)

variable [DecidableEq ι] [DecidableEq Address]

theorem change_deregister {t : ι} {c : α} (hs' : s.step conn (t, .deregister c) = some s') :
    Change s s' (.deregister c : Action α Address) := by
  simp only [step, Option.some.injEq] at hs'
  subst hs'
  obtain ⟨-, hcase⟩ | ⟨-, hcase⟩ := Manager.deregister_cases s.manager c
  · exact .move (by rw [hcase]) (by rw [hcase]) (by simp [hcase])
  · refine .deregistered c (by rw [hcase]; rfl) (by rw [hcase]; rfl) fun hnil u stopping => ?_
    have hempty : s.manager.connections.erase c = [] := by simpa [hcase] using hnil
    simp only [hcase, hempty, List.isEmpty_nil, ↓reduceIte]
    exact signal_ne_blocked _ _

theorem change_register {t : ι} {c : α} {fault : Option Fault}
    (hs' : s.step conn (t, .register_ c fault) = some s') :
    Change s s' (.register_ c fault : Action α Address) := by
  simp only [step, Option.some.injEq] at hs'
  subst hs'
  obtain hcase | hcase | ⟨hactive, -, -, hcase⟩ := Manager.register_cases s.manager c fault
  · exact .move (by rw [hcase]) (by rw [hcase]) fun _ _ h => h
  · exact .move (by rw [hcase]; rfl) (by rw [hcase]; rfl) fun _ _ h => h
  · exact .registered c hactive (by rw [hcase])

theorem change_get {t : ι} {l : Manager.Lookup Address} {throws : Bool}
    (hs' : s.step conn (t, .get l throws) = some s') : Change s s' (.get l throws) := by
  simp only [step] at hs'
  split at hs'
  · simp at hs'
  · exact Option.some.inj hs' ▸ .move rfl rfl fun _ _ h => h
  next c m hget =>
    split_ifs at hs'
    · exact Option.some.inj hs' ▸ .move rfl rfl fun _ _ h => h
    · obtain rfl := Option.some.inj hs'
      exact .move (get_manager hget).1 (get_manager hget).2 fun _ _ h => h

theorem change_stop {t : ι} {wait : Bool} (hs' : s.step conn (t, .stop wait) = some s') :
    Change s s' (.stop wait : Action α Address) := by
  cases ht : s.calls t with
  | idle =>
    simp only [step, ht, Option.some.injEq] at hs'
    cases wait with
    | false => exact hs' ▸ .stopped rfl rfl fun _ _ h => h
    | true => exact hs' ▸ .stopped rfl rfl (blocked_goto (by simp))
  | _ => simp [step, ht] at hs'

theorem change_check {t : ι} (hs' : s.step conn (t, .check) = some s') :
    Change s s' (.check : Action α Address) := by
  cases ht : s.calls t with
  | waiting stopping =>
    simp only [step, ht, Option.some.injEq] at hs'
    by_cases hempty : s.manager.connections = []
    · exact hs' ▸ .goto rfl rfl (by simp [hempty])
    · exact hs' ▸ .sleep rfl hempty
  | _ => simp [step, ht] at hs'

theorem change_gather {t : ι} {faults : ℕ → Option Fault} (hs' : s.step conn (t, .gather faults) = some s') :
    Change s s' (.gather faults : Action α Address) := by
  cases ht : s.calls t with
  | aborting wait =>
    have hm := gather_manager faults [] s.manager s.manager.connections
    simp only [step, ht] at hs'
    split at hs'
    next l m hgather =>
      rw [hgather] at hm
      refine Option.some.inj hs' ▸ .goto hm.1 hm.2 fun stopping => ?_
      split_ifs <;> simp
    next exit m _ hgather =>
      rw [hgather] at hm
      exact Option.some.inj hs' ▸ .goto hm.1 hm.2 (by simp)
  | _ => simp [step, ht] at hs'

theorem change_close {t : ι} (hs' : s.step conn (t, .close) = some s') :
    Change s s' (.close : Action α Address) := by
  cases ht : s.calls t with
  | closing wait cs =>
    cases cs with
    | nil =>
      cases wait <;> simp only [step, ht, Option.some.injEq] at hs' <;> exact hs' ▸ .goto rfl rfl (by simp)
    | cons c cs =>
      simp only [step, ht, Option.some.injEq] at hs'
      exact hs' ▸ .goto rfl rfl (by simp)
  | _ => simp [step, ht] at hs'

theorem change_abortStrategy {t : ι} {strategy : AbortStrategy} {throws : Bool}
    (hs' : s.step conn (t, .abortStrategy strategy throws) = some s') :
    Change s s' (.abortStrategy strategy throws : Action α Address) := by
  cases ht : s.calls t with
  | idle =>
    simp only [step, ht] at hs'
    split at hs'
    · exact Option.some.inj hs' ▸ .move rfl rfl fun _ _ h => h
    · split_ifs at hs'
      · exact Option.some.inj hs' ▸ .move rfl rfl fun _ _ h => h
      · exact Option.some.inj hs' ▸ .goto rfl rfl (by simp)
  | _ => simp [step, ht] at hs'

theorem change_call {t : ι} {a : Action α Address}
    (ha : a = .wait ∨ a = .wake ∨ (∃ wait, a = .abort wait) ∨ a = .closeOne)
    (hs' : s.step conn (t, a) = some s') : Change s s' a := by
  obtain rfl | rfl | ⟨wait, rfl⟩ | rfl := ha
  · cases ht : s.calls t with
    | idle =>
      simp only [step, ht, Option.some.injEq] at hs'
      exact hs' ▸ .goto rfl rfl (by simp)
    | _ => simp [step, ht] at hs'
  · cases ht : s.calls t with
    | blocked stopping =>
      simp only [step, ht, Option.some.injEq] at hs'
      exact hs' ▸ .goto rfl rfl (by simp)
    | _ => simp [step, ht] at hs'
  · cases ht : s.calls t with
    | idle =>
      simp only [step, ht, Option.some.injEq] at hs'
      exact hs' ▸ .goto rfl rfl (by simp)
    | _ => simp [step, ht] at hs'
  · cases ht : s.calls t with
    | closingOne c =>
      simp only [step, ht, Option.some.injEq] at hs'
      exact hs' ▸ .goto rfl rfl (by simp)
    | _ => simp [step, ht] at hs'

theorem step_change {t : ι} {a : Action α Address} (hs' : s.step conn (t, a) = some s') :
    Change s s' a := by
  cases a with
  | increase c => exact Option.some.inj hs' ▸ .move rfl rfl fun _ _ h => h
  | decrease c =>
    simp only [step] at hs'
    split_ifs at hs'
    exact Option.some.inj hs' ▸ .move rfl rfl fun _ _ h => h
  | register_ c fault => exact change_register hs'
  | deregister c => exact change_deregister hs'
  | get l throws => exact change_get hs'
  | collect | reset | dumpState => exact Option.some.inj hs' ▸ .move rfl rfl fun _ _ h => h
  | start scheduled =>
    cases scheduled with
    | false => exact Option.some.inj hs' ▸ .move rfl rfl fun _ _ h => h
    | true => exact Option.some.inj hs' ▸ .started rfl rfl
  | stop wait => exact change_stop hs'
  | wait => exact change_call (Or.inl rfl) hs'
  | check => exact change_check hs'
  | wake => exact change_call (Or.inr (Or.inl rfl)) hs'
  | abort wait => exact change_call (Or.inr (Or.inr (Or.inl ⟨wait, rfl⟩))) hs'
  | gather faults => exact change_gather hs'
  | close => exact change_close hs'
  | abortStrategy strategy throws => exact change_abortStrategy hs'
  | closeOne => exact change_call (Or.inr (Or.inr (Or.inr rfl))) hs'

/-- Who sleeps has a connection to wait for. A thread that was signalled is not asleep. -/
def SleepersHaveWork (s : System ι α) : Prop :=
  ∀ t stopping, s.calls t = .blocked stopping → s.manager.connections ≠ []

theorem sleepersHaveWork_step (h : s.SleepersHaveWork) (hs' : s.step conn e = some s') :
    s'.SleepersHaveWork := by
  intro u stopping hu
  obtain ⟨t, a⟩ := e
  cases step_change hs' with
  | move hconnections _ hcalls => exact hconnections ▸ h u stopping (hcalls u stopping hu)
  | sleep hmanager hsome => exact hmanager ▸ hsome
  | registered c _ hconnections => rw [hconnections]; simp
  | deregistered c _ _ hcalls => exact fun hnil => hcalls hnil u stopping hu
  | stopped hconnections _ hcalls => exact hconnections ▸ h u stopping (hcalls u stopping hu)
  | started hconnections hcalls => exact hconnections ▸ h u stopping (hcalls ▸ hu)

theorem sleepersHaveWork_run (h : s.SleepersHaveWork) (es : List (ι × Action α Address))
    (hrun : exec (step conn) s es = some s') : s'.SleepersHaveWork := by
  induction es generalizing s with
  | nil => exact Option.some.inj hrun ▸ h
  | cons e es ih =>
    obtain ⟨s₁, hs₁, hrest⟩ := exec_cons_eq_some.1 hrun
    exact ih (sleepersHaveWork_step h hs₁) hrest

theorem inactive_step (h : s.manager.isActive = false) (he : e.2 ≠ .start true)
    (hs' : s.step conn e = some s') :
    s'.manager.isActive = false ∧ s'.manager.connections.Sublist s.manager.connections := by
  obtain ⟨t, a⟩ := e
  cases step_change hs' with
  | move hconnections hactive _ => exact ⟨hactive.trans h, hconnections ▸ .refl _⟩
  | sleep hmanager _ => exact ⟨hmanager ▸ h, hmanager ▸ .refl _⟩
  | registered c hactive _ => rw [h] at hactive; exact absurd hactive (by simp)
  | deregistered c hconnections hactive _ =>
    exact ⟨hactive.trans h, hconnections ▸ List.erase_sublist⟩
  | stopped hconnections hactive _ => exact ⟨hactive, hconnections ▸ .refl _⟩
  | started => exact absurd rfl he

theorem inactive_run (h : s.manager.isActive = false) (es : List (ι × Action α Address))
    (hes : ∀ t, (t, .start true) ∉ es) (hrun : exec (step conn) s es = some s') :
    s'.manager.isActive = false ∧ s'.manager.connections.Sublist s.manager.connections := by
  induction es generalizing s with
  | nil => exact Option.some.inj hrun ▸ ⟨h, .refl _⟩
  | cons e es ih =>
    obtain ⟨s₁, hs₁, hrest⟩ := exec_cons_eq_some.1 hrun
    have he : e.2 ≠ .start true := by
      intro heq
      exact hes e.1 (heq ▸ List.mem_cons_self)
    obtain ⟨hactive, hsub⟩ := inactive_step h he hs₁
    obtain ⟨hactive', hsub'⟩ := ih hactive (fun t ht => hes t (List.mem_cons_of_mem _ ht)) hrest
    exact ⟨hactive', hsub'.trans hsub⟩

/-- After the steps `es`, the steps `es'` follow on the critical section of a `stop (true)` of
thread `t`, and with the next step the call has returned and the state is `s'`. -/
def StopReturned (conn : Interface α Address) (s : System ι α) (es : List (ι × Action α Address)) (t : ι)
    (es' : List (ι × Action α Address)) (s' : System ι α) : Prop :=
  ∃ s₁, exec (step conn) s (es ++ (t, .stop true) :: es') = some s₁ ∧
    s₁.calls t = .waiting true ∧ step conn s₁ (t, .check) = some s' ∧ s'.calls t = .idle

theorem StopReturned.inactive {es es' : List (ι × Action α Address)} {t : ι}
    (h : StopReturned conn s es t es' s') (hes' : ∀ u, (u, .start true) ∉ es') :
    s'.manager.isActive = false ∧ s'.manager.connections = [] := by
  obtain ⟨s₁, hrun, hwaiting, hcheck, hidle⟩ := h
  simp only [exec, List.foldlM_append] at hrun
  obtain ⟨s₂, -, hrun⟩ := Option.bind_eq_some_iff.1 hrun
  obtain ⟨s₃, hstop, hrun⟩ := exec_cons_eq_some.1 hrun
  have hstopped : s₃.manager.isActive = false := by
    cases ht : s₂.calls t with
    | idle =>
      simp only [step, ht, ↓reduceIte, Option.some.injEq] at hstop
      exact hstop ▸ rfl
    | _ => simp [step, ht] at hstop
  have hactive := (inactive_run hstopped es' hes' hrun).1
  simp only [step, hwaiting, Option.some.injEq] at hcheck
  subst hcheck
  refine ⟨hactive, ?_⟩
  change (Function.update s₁.calls t _) t = _ at hidle
  rw [Function.update_self] at hidle
  split_ifs at hidle with hempty
  exact List.isEmpty_iff.1 hempty

/-- The manager is empty, and turns away everybody who wants to register. -/
def Closed (s : System ι α) : Prop :=
  s.manager.connections = [] ∧ ∀ c fault, (s.manager.register_ c fault).1 = false

theorem closed_after_stop {s₀ : System ι α} (h₀ : s₀.Initial) :
    (∀ (es es' es'' : List (ι × Action α Address)) (t : ι) (s s' : System ι α),
      StopReturned conn s₀ es t es' s → (∀ u, (u, .start true) ∉ es') →
      exec (step conn) s es'' = some s' → (∀ u, (u, .start true) ∉ es'') → s'.Closed) ∧
    ∀ (es : List (ι × Action α Address)) (s : System ι α),
      exec (step conn) s₀ es = some s → s.SleepersHaveWork := by
  constructor
  · intro es es' es'' t s s' hreturned hes' hrun hes''
    obtain ⟨hactive, hnil⟩ := hreturned.inactive hes'
    obtain ⟨hactive', hsub⟩ := inactive_run hactive es'' hes'' hrun
    refine ⟨List.sublist_nil.1 (hnil ▸ hsub), fun c fault => ?_⟩
    simp [Manager.register_, hactive']
  · intro es s hrun
    refine sleepersHaveWork_run (fun t stopping ht => ?_) es hrun
    rw [h₀.calls t] at ht
    exact absurd ht (by simp)

def empty : System (Fin 3) (Fin 4) where
  manager := { maximumNumberOfConnections := 10 }
  held _ := 0
  calls _ := .idle

theorem initial_empty : empty.Initial := ⟨rfl, rfl, fun _ => rfl, fun _ => rfl⟩

def waiterFirst (waiter owner : Fin 3) (c : Fin 4) : List (Fin 3 × Action (Fin 4) ℕ) :=
  [(owner, .increase c), (owner, .register_ c none), (waiter, .wait), (waiter, .check)]

/-- A thread waits for it as well, in `stop (true)`, until its owner has deregistered it. -/
def lastDeregistered (stopper waiter owner : Fin 3) (c : Fin 4) : List (Fin 3 × Action (Fin 4) ℕ) :=
  [(stopper, .check), (owner, .deregister c), (waiter, .check)]

def registeredLate (owner : Fin 3) (c : Fin 4) : List (Fin 3 × Action (Fin 4) ℕ) :=
  [(owner, .increase c), (owner, .register_ c none)]

theorem closed_waiter :
    empty.Initial ∧
      (∃ s, exec (step Manager.numbered) empty (waiterFirst 1 2 0 ++ [(0, .stop true), (0, .check)]) =
          some s ∧ s.calls 0 = .blocked true ∧ s.calls 1 = .blocked false ∧ s.SleepersHaveWork) ∧
      ∃ s s', StopReturned Manager.numbered empty (waiterFirst 1 2 0) 0 (lastDeregistered 0 1 2 0) s ∧
        s.calls 1 = .idle ∧ exec (step Manager.numbered) s (registeredLate 2 1) = some s' ∧ s'.Closed := by
  refine ⟨initial_empty, ?_, ?_⟩
  · obtain ⟨s, hrun, hstop, hwait⟩ : ∃ s,
        exec (step Manager.numbered) empty (waiterFirst 1 2 0 ++ [(0, .stop true), (0, .check)]) = some s ∧
          s.calls 0 = .blocked true ∧ s.calls 1 = .blocked false := ⟨_, rfl, rfl, rfl⟩
    exact ⟨s, hrun, hstop, hwait, (closed_after_stop initial_empty).2 _ s hrun⟩
  · obtain ⟨s, s', hreturned, hidle, hrun⟩ : ∃ s s',
        StopReturned Manager.numbered empty (waiterFirst 1 2 0) 0 (lastDeregistered 0 1 2 0) s ∧
          s.calls 1 = .idle ∧ exec (step Manager.numbered) s (registeredLate 2 1) = some s' :=
      ⟨_, _, ⟨_, rfl, rfl, rfl, rfl⟩, rfl, rfl⟩
    exact ⟨s, s', hreturned, hidle, hrun, (closed_after_stop initial_empty).1 _ _ _ 0 s s' hreturned
      (by simp [lastDeregistered]) hrun (by simp [registeredLate])⟩

/-- Thread `1` starts the manager while thread `0` is in `stop (true)`, and registers a connection
when that has returned. -/
theorem not_closed_empty :
    empty.Initial ∧ ∃ s s', StopReturned Manager.numbered empty [] 0 [(1, .start true)] s ∧
      exec (step Manager.numbered) s [(1, .register_ 0 none)] = some s' ∧
      (s.manager.register_ 0 none).1 = true ∧ ¬ s.Closed ∧ ¬ s'.Closed := by
  refine ⟨initial_empty, _, _, ⟨_, rfl, rfl, rfl, rfl⟩, rfl, rfl, ?_, ?_⟩
  · intro h
    exact absurd (h.2 0 none) (by decide)
  · intro h
    exact absurd h.1 (by decide)

end ACENetwork.Net.System
