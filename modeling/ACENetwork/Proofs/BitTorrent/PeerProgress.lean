import Mathlib
import ACENetwork.Proofs.BitTorrent.PeerSetup

/-! Peer setup where no call fails: `notify` waits until every thread has connected to the address
that it has taken, and then there is none left. -/

namespace ACENetwork.BitTorrent.PeerSetup

open Transition

/-- The statements up to the end of `notify`. -/
def Pc.left (n : ℕ) : Pc → ℕ
  | .allocateIds => 3 * n + 10
  | .allocateHandles => 3 * n + 9
  | .allocateNames => 3 * n + 8
  | .allocateName i => 2 * n + 7 + (n - i)
  | .spawn => 2 * n + 6
  | .clean _ .ids => 2 * n + 5
  | .clean _ .handles => 2 * n + 4
  | .clean _ (.check i) => 2 * (n - i) + 3
  | .clean _ (.name i) => 2 * (n - i) + 2
  | .clean _ .names => 2
  | .wait => 1
  | .returned => 0

namespace System

variable {α : Type} {s s' : System α} {addresses : List α} {early : Prop} {n : ℕ}

/-- What is true of a state without a failed call behind it. -/
structure Smooth (addresses : List α) (s : System α) : Prop extends Inv True addresses s where
  regular : ∀ stage, s.pc ≠ .clean .error stage
  spawned : (∃ stage, s.pc = .clean .regular stage) ∨ s.pc = .wait ∨ s.pc = .returned →
    s.started = addresses.length
  done : s.pc = .returned → s.connected.length = s.started

theorem smooth_begin (addresses : List α) : (begin addresses).Smooth addresses where
  toInv := inv_begin True addresses
  regular := by simp [begin]
  spawned := by simp [begin]
  done := by simp [begin]

theorem Shared.connected_entered (h : s.Shared addresses) {t : ℕ} (ht : t ∈ s.connected.map Prod.fst) :
    t ∈ s.taken.map Prod.fst ∧ t ∈ s.entered := by
  have htaken : t ∈ s.taken.map Prod.fst := List.map_subset _ h.connected ht
  exact ⟨htaken, h.took t htaken⟩

/-- `notify` has not returned while there is a thread that has not connected. -/
theorem Smooth.not_returned (h : s.Smooth addresses) {t : ℕ} (ht : t < s.started)
    (hnew : t ∉ s.connected.map Prod.fst) : s.pc ≠ .returned := by
  intro hpc
  have hbound : ∀ t' ∈ s.connected.map Prod.fst, t' < s.started := fun t' ht' =>
    h.bound t' (h.connected_entered ht').2
  have hlength : (t :: s.connected.map Prod.fst).length ≤ s.started :=
    length_threads (List.nodup_cons.2 ⟨hnew, h.once⟩) (List.forall_mem_cons.2 ⟨ht, hbound⟩)
  rw [List.length_cons, List.length_map, h.done hpc] at hlength
  omega

theorem Inv.lengths (h : s.Inv early addresses) : s.entered.length ≤ addresses.length ∧
    s.taken.length ≤ addresses.length ∧ s.connected.length ≤ addresses.length := by
  have htaken : ∀ t ∈ s.taken.map Prod.fst, t < s.started := fun t ht => h.bound t (h.took t ht)
  have hconnected : ∀ t ∈ s.connected.map Prod.fst, t < s.started := fun t ht =>
    h.bound t (h.connected_entered ht).2
  have hthreads := length_threads h.threads htaken
  have honce := length_threads h.once hconnected
  rw [List.length_map] at hthreads honce
  exact ⟨(length_threads h.entered h.bound).trans h.started, hthreads.trans h.started, honce.trans h.started⟩

/-- The steps that are left: those of `notify`, and three of each thread. -/
def left (n : ℕ) (s : System α) : ℕ :=
  s.pc.left n + (3 * n - (s.entered.length + s.taken.length + s.connected.length))

theorem smooth_thread (h : s.Smooth addresses) (h' : s'.Inv True addresses) (hreturned : s.pc ≠ .returned)
    (hpc : s'.pc = s.pc) (hstarted : s'.started = s.started)
    (hmore : s.entered.length + s.taken.length + s.connected.length <
      s'.entered.length + s'.taken.length + s'.connected.length) :
    s'.Smooth addresses ∧ s'.left addresses.length < s.left addresses.length := by
  refine ⟨⟨h', hpc ▸ h.regular, ?_, fun hend => absurd (hpc ▸ hend) hreturned⟩, ?_⟩
  · rw [hpc, hstarted]
    exact h.spawned
  · obtain ⟨hentered, htaken, hconnected⟩ := h'.lengths
    rw [left, left, hpc]
    omega

theorem smooth_enter {t : ℕ} (h : s.Smooth addresses) (hstep : s.enter t = some s') :
    s'.Smooth addresses ∧ s'.left addresses.length < s.left addresses.length := by
  have hthread : t < s.started ∧ t ∉ s.entered := by
    rw [enter] at hstep
    split_ifs at hstep with hthread
    · exact hthread
    · exact hthread
  have hreturned : s.pc ≠ .returned := h.not_returned hthread.1 fun hmem =>
    hthread.2 (h.connected_entered hmem).2
  have h' := inv_enter h.toInv hreturned hstep
  rw [enter, if_pos hthread, if_neg hreturned] at hstep
  obtain rfl := Option.some.inj hstep
  refine smooth_thread h h' hreturned rfl rfl ?_
  simp only [List.length_cons]
  omega

theorem smooth_take {t : ℕ} (h : s.Smooth addresses) (hstep : s.take t = some s') :
    s'.Smooth addresses ∧ s'.left addresses.length < s.left addresses.length := by
  have hthread : t ∈ s.entered ∧ t ∉ s.taken.map Prod.fst := by
    rw [take] at hstep
    split_ifs at hstep with hthread
    · exact hthread
    · exact hthread
  have hreturned : s.pc ≠ .returned := h.not_returned (h.bound t hthread.1) fun hmem =>
    hthread.2 (h.connected_entered hmem).1
  have h' := inv_take h.toInv hreturned (Or.inl trivial) hstep
  have hne : s.addresses ≠ [] := h.addresses_ne hthread.1 hthread.2
  rw [take, if_pos hthread, if_neg hreturned, List.getLast?_eq_some_getLast hne] at hstep
  obtain rfl := Option.some.inj hstep
  refine smooth_thread h h' hreturned rfl rfl ?_
  simp only [List.length_cons]
  omega

theorem smooth_connect {t : ℕ} (h : s.Smooth addresses) (hstep : s.connect t = some s') :
    s'.Smooth addresses ∧ s'.left addresses.length < s.left addresses.length := by
  obtain ⟨⟨a, hmem⟩, hnew, hcases⟩ := connect_cases hstep
  have hstarted : t < s.started := h.bound t (h.took t (List.mem_map_of_mem hmem))
  have hreturned : s.pc ≠ .returned := h.not_returned hstarted hnew
  have h' := inv_connect h.toInv hreturned hstep
  obtain ⟨hpc, -⟩ | ⟨-, a', -, rfl⟩ := hcases
  · exact absurd hpc hreturned
  · refine smooth_thread h h' hreturned rfl rfl ?_
    simp only [List.length_cons]
    omega

theorem delete_pc {p : Option Block} {pc : Pc} (h : (s.delete p pc).fault = none) :
    (s.delete p pc).pc = pc ∧ (s.delete p pc).started = s.started := by
  cases p with
  | none => exact ⟨rfl, rfl⟩
  | some b =>
    rw [delete] at h ⊢
    split_ifs at h ⊢
    · exact ⟨rfl, rfl⟩
    · cases h

theorem deleteName_pc {i : ℕ} {pc : Pc} (h : (s.deleteName i pc).fault = none) :
    (s.deleteName i pc).pc = pc ∧ (s.deleteName i pc).started = s.started := by
  rw [deleteName] at h ⊢
  split at h
  · cases h
  split_ifs at h ⊢
  · cases h
  split at h
  · exact delete_pc h
  · exact delete_pc h
  · cases h
  · cases h

def behind (s : System α) (exit : Exit) : Stage → Pc
  | .ids => .clean exit .handles
  | .handles => .clean exit (.check 0)
  | .check i => .clean exit (if i < s.addresses.length then .name i else .names)
  | .name i => .clean exit (.check (i + 1))
  | .names => match exit with | .regular => .wait | .error => .returned

theorem clean_pc {exit : Exit} {stage : Stage} (h : (s.clean exit stage).fault = none) :
    (s.clean exit stage).pc = s.behind exit stage ∧ (s.clean exit stage).started = s.started := by
  cases stage with
  | ids | handles | names => exact delete_pc h
  | name i => exact deleteName_pc h
  | check i =>
    rw [clean, behind]
    split_ifs <;> exact ⟨rfl, rfl⟩

theorem behind_left {exit : Exit} {stage : Stage} (hwithin : Within n stage) :
    (s.behind exit stage).left n < (Pc.clean exit stage).left n := by
  cases stage with
  | ids => simp [behind, Pc.left]
  | handles => simp [behind, Pc.left]
  | check i =>
    rw [behind]
    split_ifs
    · simp [Pc.left]
    · simp only [Pc.left]
      omega
  | name i =>
    have hi : i < n := hwithin
    simp only [behind, Pc.left]
    omega
  | names => cases exit <;> simp [behind, Pc.left]

theorem smooth_clean {stage : Stage} (h : s.Smooth addresses) (hpc : s.pc = .clean .regular stage) :
    (s.clean .regular stage).Smooth addresses ∧
      (s.clean .regular stage).left addresses.length < s.left addresses.length := by
  have h' : (s.clean .regular stage).Inv True addresses := inv_clean h.toInv hpc
  obtain ⟨hnext, hstarted⟩ := clean_pc h'.fault
  have hframe := clean_frame .regular stage s
  have hat := h.at_
  rw [hpc] at hat
  have hwithin : Within addresses.length stage := hat.2.2.2.1
  refine ⟨⟨h', ?_, fun _ => hstarted.trans (h.spawned (Or.inl ⟨stage, hpc⟩)), ?_⟩, ?_⟩
  · rw [hnext]
    cases stage <;> simp [behind]
  · rw [hnext]
    cases stage <;> simp [behind]
  · rw [left, left, hnext, hpc, hframe.entered, hframe.taken, hframe.connected]
    have hlt : (s.behind .regular stage).left addresses.length <
        (Pc.clean .regular stage).left addresses.length := behind_left hwithin
    omega

theorem smooth_notify (h : s.Smooth addresses) (hstep : s.notify .succeeds = some s') :
    s'.Smooth addresses ∧ s'.left addresses.length < s.left addresses.length := by
  have hsafe : s.Safe (.notify .succeeds) := trivial
  have h' : s'.Inv True addresses := inv_notify h.toInv hsafe hstep
  have hframe := notify_frame hstep
  have hsteps : s'.pc.left addresses.length < s.pc.left addresses.length →
      s'.left addresses.length < s.left addresses.length := by
    intro hlt
    rw [left, left, hframe.entered, hframe.taken, hframe.connected]
    omega
  unfold notify at hstep
  cases hpc : s.pc with
  | clean exit stage =>
    rw [hpc] at hstep
    cases exit with
    | error => exact absurd hpc (h.regular stage)
    | regular =>
      obtain rfl := Option.some.inj hstep
      exact smooth_clean h hpc
  | returned =>
    rw [hpc] at hstep
    cases hstep
  | allocateName i =>
    rw [hpc] at hstep hsteps
    dsimp only at hstep
    have hat := h.at_
    rw [hpc] at hat
    have hi : i ≤ addresses.length := hat.2
    have hlength := hat.1.length h.toInv
    split_ifs at hstep with hlt
    · obtain rfl := Option.some.inj hstep
      exact ⟨⟨h', by simp, by simp, by simp⟩, hsteps (by simp only [Pc.left]; omega)⟩
    · obtain rfl := Option.some.inj hstep
      exact ⟨⟨h', by simp [goto], by simp [goto], by simp [goto]⟩, hsteps (by simp only [goto, Pc.left]; omega)⟩
  | spawn =>
    rw [hpc] at hstep hsteps
    have hat := h.at_
    rw [hpc] at hat
    have hlength := Building.length hat h.toInv
    obtain rfl := Option.some.inj hstep
    exact ⟨⟨h', by simp, fun _ => hlength, by simp⟩, hsteps (by simp [Pc.left])⟩
  | wait =>
    rw [hpc] at hstep hsteps
    dsimp only at hstep
    split_ifs at hstep with hdone
    obtain rfl := Option.some.inj hstep
    exact ⟨⟨h', by simp [goto], fun _ => h.spawned (Or.inr (Or.inl hpc)), fun _ => hdone⟩,
      hsteps (by simp [goto, Pc.left])⟩
  | allocateIds | allocateHandles | allocateNames =>
    rw [hpc] at hstep hsteps
    obtain rfl := Option.some.inj hstep
    exact ⟨⟨h', by simp, by simp, by simp⟩, hsteps (by simp only [Pc.left]; omega)⟩

theorem smooth_step {e : Event} (h : s.Smooth addresses) (he : e.Succeeds) (hstep : s.step e = some s') :
    s'.Smooth addresses ∧ s'.left addresses.length < s.left addresses.length := by
  have hnext := step_next hstep
  cases e with
  | notify o =>
    obtain rfl : o = .succeeds := he
    exact smooth_notify h hnext
  | enter t => exact smooth_enter h hnext
  | take t => exact smooth_take h hnext
  | connect t => exact smooth_connect h hnext

theorem Runs.smooth {events : List Event} (h : Runs addresses events s) :
    s.Smooth addresses ∧ events.length ≤ (begin addresses).left addresses.length := by
  obtain ⟨hsmooth, hlength⟩ := exec_length_le (fun s : System α => s.left addresses.length)
    (fun _ _ _ hs he hstep => smooth_step hs he hstep) events (smooth_begin addresses) h.1 h.2
  exact ⟨hsmooth, by omega⟩

theorem Smooth.exists_thread_step (h : s.Smooth addresses) {t : ℕ} (ht : t < s.started)
    (hnew : t ∉ s.connected.map Prod.fst) : ∃ e s', Event.Succeeds e ∧ s.step e = some s' := by
  have hreturned := h.not_returned ht hnew
  by_cases hentered : t ∈ s.entered
  · by_cases htaken : t ∈ s.taken.map Prod.fst
    · obtain ⟨a, hlookup⟩ : ∃ a, s.taken.lookup t = some a := by
        cases hlookup : s.taken.lookup t with
        | some a => exact ⟨a, rfl⟩
        | none =>
          obtain ⟨p, hp, rfl⟩ := List.mem_map.1 htaken
          have hne := List.lookup_eq_none_iff.1 hlookup p hp
          simp at hne
      refine ⟨.connect t, { s with connected := (t, a) :: s.connected }, trivial, ?_⟩
      rw [step, if_pos h.fault, next, connect, hlookup]
      dsimp only
      rw [if_neg hnew, if_neg hreturned]
    · have hne := h.addresses_ne hentered htaken
      refine ⟨.take t, { s with
        addresses := s.addresses.dropLast
        taken := (t, s.addresses.getLast hne) :: s.taken }, trivial, ?_⟩
      rw [step, if_pos h.fault, next, take, if_pos ⟨hentered, htaken⟩, if_neg hreturned,
        List.getLast?_eq_some_getLast hne]
  · refine ⟨.enter t, { s with entered := t :: s.entered }, trivial, ?_⟩
    rw [step, if_pos h.fault, next, enter, if_pos ⟨ht, hentered⟩, if_neg hreturned]

theorem Smooth.exists_step (h : s.Smooth addresses) (hreturned : s.pc ≠ .returned) :
    ∃ e s', Event.Succeeds e ∧ s.step e = some s' := by
  have hnotify : (∃ s', s.notify .succeeds = some s') → ∃ e s', Event.Succeeds e ∧ s.step e = some s' := by
    rintro ⟨s', hs'⟩
    exact ⟨.notify .succeeds, s', rfl, by rw [step, if_pos h.fault, next, hs']⟩
  cases hpc : s.pc with
  | returned => exact absurd hpc hreturned
  | wait =>
    by_cases hdone : s.connected.length = s.started
    · refine hnotify ⟨s.goto .returned, ?_⟩
      unfold notify
      rw [hpc]
      exact if_pos hdone
    · -- there are more threads than those that have connected
      obtain ⟨t, ht, hnew⟩ : ∃ t, t < s.started ∧ t ∉ s.connected.map Prod.fst := by
        by_contra hall
        have hsubset : List.range s.started ⊆ s.connected.map Prod.fst := fun t ht =>
          by_contra fun hnew => hall ⟨t, List.mem_range.1 ht, hnew⟩
        have hle := (List.nodup_range.subperm hsubset).length_le
        rw [List.length_range, List.length_map] at hle
        have hbound := length_threads h.once fun t ht => h.bound t (h.connected_entered ht).2
        rw [List.length_map] at hbound
        omega
      exact h.exists_thread_step ht hnew
  | allocateName i =>
    refine hnotify ?_
    unfold notify
    rw [hpc]
    dsimp only
    split_ifs <;> exact ⟨_, rfl⟩
  | _ =>
    refine hnotify ?_
    unfold notify
    rw [hpc]
    exact ⟨_, rfl⟩

/-- When `notify` has returned, the threads have connected to all addresses. -/
theorem Smooth.all (h : s.Smooth addresses) (hreturned : s.pc = .returned) :
    s.taken.map Prod.snd = addresses ∧ s.connected.Perm s.taken := by
  have hlength := h.length_eq
  have hconnected : s.connected.length = addresses.length :=
    (h.done hreturned).trans (h.spawned (Or.inr (Or.inr hreturned)))
  have htaken := h.lengths.2.1
  have hperm : s.connected.Perm s.taken :=
    (h.once.of_map.subperm h.connected).perm_of_length_le (by omega)
  have hnil : s.addresses = [] := by
    have heq := hperm.length_eq
    exact List.length_eq_zero_iff.1 (by omega)
  have hown := h.own
  rw [hnil, List.nil_append] at hown
  exact ⟨hown.symm, hperm⟩

end System

theorem connects (addresses : List α) : Connects addresses where
  own events s hexec := by
    have h := System.shared_exec events (System.shared_begin addresses) hexec
    exact ⟨h.own, h.threads, h.connected, h.once⟩
  goesOn events s hruns := or_iff_not_imp_left.2 hruns.smooth.1.exists_step
  ends := ⟨_, fun events s hruns => hruns.smooth.2⟩
  all events s hruns := hruns.smooth.1.all

end ACENetwork.BitTorrent.PeerSetup
