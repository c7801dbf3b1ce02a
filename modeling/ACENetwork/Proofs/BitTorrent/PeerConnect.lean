import Mathlib
import ACENetwork.Spec.BitTorrent.PeerConnect

/-! When the configuration is what it was once the threads have connected. Each setting is a
register of its own: a step of the session is an access to one of the three, or to none. -/

namespace ACENetwork.BitTorrent.PeerConnect

open Register

variable {ι : Type} [DecidableEq ι] {s : System ι} {t u : ι} {f g : Setting} {i : Instruction}
  {σ : List ι}

namespace System

@[simp] theorem threads_setThread_self (x : Thread) : (s.setThread t x).threads t = x :=
  Function.update_self ..

@[simp] theorem threads_setThread_ne (h : t ≠ u) (x : Thread) :
    (s.setThread u x).threads t = s.threads t := Function.update_of_ne h ..

theorem todo_perform : ((s.perform u i).threads t).todo = (s.threads t).todo := by
  rcases i with _ | ⟨g, _ | _ | _⟩ | _
  case access.save =>
    by_cases h : t = u
    · subst h
      simp [perform]
    · simp [perform, h]
  all_goals rfl

/-- A thread has taken as many instructions as it has steps in the schedule. -/
theorem todo_run (hs : s.Started) (σ : List ι) (t : ι) :
    ((s.run σ).threads t).todo = program.drop (σ.count t) := by
  induction σ with
  | nil => exact hs t
  | cons u σ ih =>
    rw [run, step]
    cases hu : ((s.run σ).threads u).todo with
    | nil =>
      by_cases h : t = u
      · subst h
        rw [ih] at hu ⊢
        rw [List.count_cons_self, hu, ← List.drop_drop, hu, List.drop_nil]
      · rw [ih, List.count_cons_of_ne (Ne.symm h)]
    | cons i todo =>
      dsimp only
      rw [todo_perform]
      by_cases h : t = u
      · subst h
        rw [ih] at hu
        rw [threads_setThread_self, List.count_cons_self, ← List.drop_drop, hu, List.drop_one,
          List.tail_cons]
      · rw [threads_setThread_ne h, ih, List.count_cons_of_ne (Ne.symm h)]

theorem own_step : (s.step u).own = s.own := by
  rw [step]
  rcases (s.threads u).todo with _ | ⟨_ | ⟨g, _ | _ | _⟩ | _, todo⟩ <;> rfl

theorem own_run (σ : List ι) : (s.run σ).own = s.own := by
  induction σ with
  | nil => rfl
  | cons u σ ih => rw [run, own_step, ih]

def register (s : System ι) (f : Setting) : State ι f.Value :=
  ⟨s.configuration.settings f, fun t => (s.threads t).saved f⟩

theorem register_access (a : Access) :
    (s.perform t (.access f a)).register f = access (s.own f) (s.register f) (t, a) := by
  cases a with
  | save =>
    unfold register perform access setThread
    congr 1
    funext u
    by_cases h : u = t
    · subst h
      simp
    · simp [h]
  | override => simp [register, perform, access, set]
  | restore => simp [register, perform, access, set]

theorem register_access_ne (h : g ≠ f) (a : Access) :
    (s.perform t (.access g a)).register f = s.register f := by
  cases a with
  | save =>
    unfold register perform setThread
    congr 1
    funext u
    by_cases hu : u = t
    · subst hu
      simp [Function.update_of_ne h.symm]
    · simp [hu]
  | override => simp [register, perform, set, Function.update_of_ne h.symm]
  | restore => simp [register, perform, set, Function.update_of_ne h.symm]

theorem register_todo (todo : List Instruction) :
    (s.setThread t { s.threads t with todo := todo }).register f = s.register f := by
  unfold register setThread
  congr 1
  funext u
  by_cases h : u = t
  · subst h
    simp
  · simp [h]

theorem register_run (hs : s.Started) (f : Setting) (σ : List ι) :
    (s.run σ).register f = Register.run (s.own f) (s.register f) (accesses f σ) := by
  induction σ with
  | nil => rfl
  | cons t σ ih =>
    have htodo := todo_run hs σ t
    have hnext : program[σ.count t]? = ((s.run σ).threads t).todo.head? := by
      rw [htodo, List.head?_drop]
    rw [run, step, accesses, hnext]
    rcases ((s.run σ).threads t).todo with _ | ⟨_ | ⟨g, a⟩ | _, todo⟩
    · exact ih
    · exact (register_todo todo).trans ih
    · dsimp only [List.head?_cons]
      by_cases h : g = f
      · subst h
        rw [if_pos rfl, Register.run, register_access, register_todo, ih]
        exact congrArg (access · _ _) (congrFun (own_run σ) g)
      · rw [if_neg h, register_access_ne h, register_todo, ih]
    · exact (register_todo todo).trans ih

end System

theorem mem_accesses {a : Access} :
    (t, a) ∈ accesses f σ ↔ ∃ k < σ.count t, program[k]? = some (.access f a) := by
  induction σ with
  | nil => simp [accesses]
  | cons u σ ih =>
    have hcons : (t, a) ∈ accesses f (u :: σ) ↔
        (u = t ∧ program[σ.count u]? = some (.access f a)) ∨ (t, a) ∈ accesses f σ := by
      rw [accesses]
      split
      · rename_i g b h
        split_ifs with hg
        · subst hg
          simp [h, eq_comm]
        · simp [h, hg]
      · rename_i h
        refine ⟨Or.inr, fun hm => hm.resolve_left fun hu => ?_⟩
        exact h _ _ hu.2
    rw [hcons, ih]
    by_cases h : u = t
    · subst h
      rw [List.count_cons_self]
      simp only [true_and, Nat.lt_succ_iff_lt_or_eq]
      grind
    · rw [List.count_cons_of_ne h]
      simp [h]

theorem program_save (k : ℕ) (h : program[k]? = some (.access f .save)) :
    k = program.idxOf (.access f .save) := by
  have hk : k < 11 := (List.getElem?_eq_some_iff.1 h).1
  interval_cases k <;> cases f <;> simp [program] at h ⊢

theorem program_restore (k : ℕ) (h : program[k]? = some (.access f .restore)) :
    program.idxOf (.access f .save) < k := by
  have hk : k < 11 := (List.getElem?_eq_some_iff.1 h).1
  interval_cases k <;> cases f <;> simp [program] at h ⊢

theorem orderly_accesses (f : Setting) (σ : List ι) : Orderly (accesses f σ) := by
  induction σ with
  | nil => trivial
  | cons t σ ih =>
    rw [accesses]
    split
    · rename_i g a h
      split_ifs with hg
      · subst hg
        cases a with
        | save =>
          refine ⟨fun hm => ?_, ih⟩
          obtain ⟨k, hk, hsave⟩ := mem_accesses.1 hm
          have := program_save k hsave
          have := program_save _ h
          omega
        | override => exact ih
        | restore =>
          refine ⟨mem_accesses.2 ⟨_, program_restore _ h, ?_⟩, ih⟩
          cases g <;> rfl
      · exact ih
    · exact ih

/-- After any steps of any number of threads, the settings are those that the configuration had
before the first one, exactly when each of them had the session's own value then or its accesses
fall into sections. -/
theorem settings_run_iff (hs : s.Started) (σ : List ι) :
    (s.run σ).configuration.settings = s.configuration.settings ↔
      ∀ f, s.own f = s.configuration.settings f ∨ Sectioned (accesses f σ) := by
  have hvalue : ∀ f, (s.run σ).configuration.settings f =
      (Register.run (s.own f) (s.register f) (accesses f σ)).value := fun f =>
    congrArg State.value (System.register_run hs f σ)
  rw [funext_iff]
  refine forall_congr' fun f => ?_
  rw [hvalue]
  exact value_eq_iff (orderly_accesses f σ)

def twoPeers : System Bool where
  peerStreamHandler := 1
  peerHandlerModule := some 2
  configuration :=
    { address := none
      settings := fun
        | .subscriber => some 3
        | .cloneModule => true
        | .module => none }
  threads t := { address := if t then "10.0.0.1:6881" else "10.0.0.2:6881" }

/-- One thread connects after the other has returned. -/
theorem settings_run_serial :
    (twoPeers.run (List.replicate 11 true ++ List.replicate 11 false)).configuration.settings =
      twoPeers.configuration.settings := by
  refine (settings_run_iff (fun _ => rfl) _).2 fun f => Or.inr ?_
  have hsections : Sectioned [(true, .restore), (true, .override), (true, .save),
      (false, .restore), (false, .override), (false, .save)] :=
    .closed (m := [(true, .override)]) (.closed (m := [(false, .override)]) .nil)
  cases f <;> exact hsections

/-- Both threads connect before the first of them resets the configuration. The second one has
saved what the first one had set up, and leaves that behind. -/
theorem settings_run_overlapping :
    ¬ ∀ (ι : Type) [DecidableEq ι] (s : System ι) (σ : List ι), s.Started → (s.run σ).Finished →
      (s.run σ).configuration.settings = s.configuration.settings := by
  intro h
  have hrun := h Bool twoPeers (List.replicate 3 true ++ List.replicate 3 false ++
    List.replicate 8 true ++ List.replicate 8 false) (fun _ => rfl) (by intro t; cases t <;> rfl)
  have hclone : (false : Bool) = true := congrFun hrun .cloneModule
  exact Bool.noConfusion hclone

end ACENetwork.BitTorrent.PeerConnect
