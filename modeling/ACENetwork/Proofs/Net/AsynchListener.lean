import Mathlib
import ACENetwork.Spec.Net.AsynchListener

/-! No connection and no message block is lost or used twice by an asynchronous listener, and the
number of its accepts stays what `open ()` made it. -/

namespace ACENetwork.Net

open Transition

namespace AsynchListener

variable {s s' : AsynchListener} {r : AcceptResult} {backLog : ℕ}

/-- What is taken out of a list, counted by what it is mapped to. -/
theorem count_eraseIdx {α : Type*} {l : List α} {k : ℕ} {a : α} (h : l[k]? = some a) (f : α → List ℕ)
    (x : ℕ) : (l.flatMap f).count x = (f a).count x + ((l.eraseIdx k).flatMap f).count x := by
  obtain ⟨hk, rfl⟩ := List.getElem?_eq_some_iff.1 h
  have hperm := (List.getElem_cons_eraseIdx_perm hk).flatMap_right f
  rw [← hperm.count_eq, List.flatMap_cons, List.count_append]

/-- The two parts of `Sound` by counting. -/
structure Counted (s : AsynchListener) : Prop where
  connections : ∀ x, (s.posted.flatMap fun p => p.2.acceptHandle.toList).count x + s.opened.count x +
    s.closed.count x = (List.range s.connections).count x
  blocks : ∀ x, s.accepting.count x + (s.posted.flatMap fun p => [p.1]).count x + s.released.count x =
    (List.range s.blocks).count x

theorem sound_iff : s.Sound ↔ s.Counted := by
  have harrived : s.arrived = s.posted.flatMap fun p => p.2.acceptHandle.toList := by
    rw [arrived, List.filterMap_eq_flatMap_toList]
  have hblocks : s.posted.map Prod.fst = s.posted.flatMap fun p => [p.1] := by
    rw [List.map_eq_flatMap]
  constructor
  · intro h
    have hc := List.perm_iff_count.1 h.connections
    have hb := List.perm_iff_count.1 h.blocks
    simp only [List.count_append, harrived, hblocks] at hc hb
    exact ⟨hc, hb⟩
  · intro h
    refine ⟨List.perm_iff_count.2 ?_, List.perm_iff_count.2 ?_⟩
    · simpa only [List.count_append, harrived] using h.connections
    · simpa only [List.count_append, hblocks] using h.blocks

theorem accept_cases (s : AsynchListener) (r : AcceptResult) :
    (s.accept r = (true, { s with blocks := s.blocks + 1, accepting := s.accepting ++ [s.blocks] }) ∧
      s.isOpen = true) ∨
    s.accept r = (false, { s with blocks := s.blocks + 1, released := s.released ++ [s.blocks] }) ∨
    s.accept r = (false, s) := by
  cases r with
  | noMemory => exact Or.inr (Or.inr rfl)
  | refused => exact Or.inr (Or.inl rfl)
  | accepted =>
    by_cases h : s.isOpen = true
    · refine Or.inl ⟨?_, h⟩
      simp [accept, h]
    · refine Or.inr (Or.inl ?_)
      simp [accept, h]

theorem counted_accept (h : s.Counted) (r : AcceptResult) : (s.accept r).2.Counted := by
  have hb := h.blocks
  have hnew : ∀ x, (List.range (s.blocks + 1)).count x =
      (List.range s.blocks).count x + [s.blocks].count x := fun x => by
    rw [List.range_succ, List.count_append]
  obtain ⟨hr, -⟩ | hr | hr := accept_cases s r
  · rw [hr]
    refine ⟨h.connections, fun x => ?_⟩
    have := hb x
    have := hnew x
    simp only [List.count_append]
    omega
  · rw [hr]
    refine ⟨h.connections, fun x => ?_⟩
    have := hb x
    have := hnew x
    simp only [List.count_append]
    omega
  · rw [hr]
    exact h

theorem counted_post (h : s.Counted) : s.post.Counted := by
  refine ⟨fun x => ?_, fun x => ?_⟩
  · have hnone : (s.accepting.map canceledAccept).flatMap (fun p => p.2.acceptHandle.toList) = [] := by
      simp [canceledAccept]
    simpa [post, List.flatMap_append, hnone] using h.connections x
  · have hall : (s.accepting.map canceledAccept).flatMap (fun p => [p.1]) = s.accepting := by
      simp [List.flatMap_map, canceledAccept]
    have := h.blocks x
    simp only [post, List.flatMap_append, hall, List.count_append, List.count_nil]
    omega

theorem counted_closeAccept (h : s.Counted) (c : CancelResult) : (s.closeAccept c).Counted := by
  cases c with
  | failed => exact ⟨h.connections, h.blocks⟩
  | canceled => exact ⟨(counted_post h).connections, (counted_post h).blocks⟩

/-- `start ()` does nothing, or it gets no socket, or it has one and fails, or it goes on to the
accepts. -/
theorem start_cases (s : AsynchListener) (backLog : ℕ) (address : Bool) (e : OpenResults) :
    s.start backLog address e = s ∨
    (s.isListening = false ∧
      s.start backLog address e = { s with validateNewConnection := true, reissueAccept := true }) ∨
    (s.isListening = false ∧ ∃ s₁, s₁ = { s with
        validateNewConnection := true
        reissueAccept := true
        handle := true
        isOpen := true
        lost := 0
        opening := some backLog } ∧
      (s.start backLog address e = s₁.closeAccept e.cancel ∨ s.start backLog address e = s₁)) := by
  unfold start
  by_cases hi : s.isInitialized = true
  swap
  · simp [hi]
  by_cases hl : s.isListening = true
  · simp [hl]
  by_cases ha : address = true
  swap
  · simp [ha]
  by_cases hs : e.socket = true
  swap
  · simp [hi, hl, ha, hs]
  refine Or.inr (Or.inr ⟨by simpa using hl, _, rfl, ?_⟩)
  simp only [hi, hl, ha, hs, Bool.not_true, Bool.false_eq_true, if_false]
  split_ifs <;> simp

theorem counted_start (h : s.Counted) (address : Bool) (e : OpenResults) :
    (s.start backLog address e).Counted := by
  have hflags : ∀ s₁ : AsynchListener, s₁.posted = s.posted → s₁.opened = s.opened →
      s₁.closed = s.closed → s₁.connections = s.connections → s₁.accepting = s.accepting →
      s₁.released = s.released → s₁.blocks = s.blocks → s₁.Counted := by
    intro s₁ hp ho hc hn ha hr hb
    exact ⟨by rw [hp, ho, hc, hn]; exact h.connections, by rw [ha, hp, hr, hb]; exact h.blocks⟩
  obtain hs | ⟨-, hs⟩ | ⟨-, s₁, rfl, hs | hs⟩ := start_cases s backLog address e
  · rw [hs]
    exact h
  · rw [hs]
    exact hflags _ rfl rfl rfl rfl rfl rfl rfl
  · rw [hs]
    refine counted_closeAccept ?_ e.cancel
    exact hflags _ rfl rfl rfl rfl rfl rfl rfl
  · rw [hs]
    exact hflags _ rfl rfl rfl rfl rfl rfl rfl

theorem counted_initialAccept {c : CancelResult} (h : s.Counted) (hs : s.initialAccept r c = some s') :
    s'.Counted := by
  unfold initialAccept at hs
  cases hopening : s.opening with
  | none => simp [hopening] at hs
  | some left =>
    cases left with
    | zero =>
      simp only [hopening, Option.some.injEq] at hs
      subst hs
      exact ⟨h.connections, h.blocks⟩
    | succ left =>
      have haccept := counted_accept h r
      simp only [hopening] at hs
      rcases hr : s.accept r with ⟨_ | _, s₁⟩
      · simp only [hr, Option.some.injEq] at hs haccept
        subst hs
        exact counted_closeAccept haccept c
      · simp only [hr, Option.some.injEq] at hs haccept
        subst hs
        exact ⟨haccept.connections, haccept.blocks⟩

theorem counted_stop (h : s.Counted) (c : CloseResult) : (s.stop c).Counted := by
  unfold stop
  split_ifs
  · exact h
  · cases c with
    | noAccept => exact h
    | failed => exact ⟨h.connections, h.blocks⟩
    | closed => exact ⟨(counted_post h).connections, (counted_post h).blocks⟩

theorem handleAccept_eq (s : AsynchListener) (block : ℕ) (c : AcceptCompletion) (makeHandler : Bool)
    (r : AcceptResult) : ∃ error, s.handleAccept block c makeHandler r =
      if s.reissueAccept && s.handle && !c.canceled then
        match (s.dispatch block c error).accept r with
        | (true, s) => s
        | (false, s) => { s with lost := s.lost + 1 }
      else s.dispatch block c error := ⟨_, rfl⟩

theorem counted_dispatch {k block : ℕ} {c : AcceptCompletion} (h : s.Counted)
    (hk : s.posted[k]? = some (block, c)) (error : Bool) :
    (({ s with posted := s.posted.eraseIdx k } : AsynchListener).dispatch block c error).Counted := by
  refine ⟨fun x => ?_, fun x => ?_⟩
  · have hc := h.connections x
    rw [count_eraseIdx hk] at hc
    cases error with
    | false =>
      simp only [dispatch, Bool.false_eq_true, if_false, List.count_append, List.append_nil] at hc ⊢
      omega
    | true =>
      simp only [dispatch, if_true, List.count_append, List.append_nil] at hc ⊢
      omega
  · have hb := h.blocks x
    rw [count_eraseIdx hk] at hb
    simp only [dispatch, List.count_append] at hb ⊢
    omega

theorem counted_handleAccept {k block : ℕ} {c : AcceptCompletion} (h : s.Counted)
    (hk : s.posted[k]? = some (block, c)) (makeHandler : Bool) (r : AcceptResult) :
    (({ s with posted := s.posted.eraseIdx k } : AsynchListener).handleAccept block c makeHandler r).Counted := by
  obtain ⟨error, heq⟩ := handleAccept_eq ({ s with posted := s.posted.eraseIdx k } : AsynchListener)
    block c makeHandler r
  have hdispatch := counted_dispatch h hk error
  have haccept := counted_accept hdispatch r
  rw [heq]
  split_ifs
  · rcases hr : (({ s with posted := s.posted.eraseIdx k } : AsynchListener).dispatch block c error).accept r
      with ⟨_ | _, s₁⟩
    · rw [hr] at haccept
      exact ⟨haccept.connections, haccept.blocks⟩
    · rw [hr] at haccept
      exact haccept
  · exact hdispatch

theorem counted_complete {k : ℕ} {success connected : Bool} (h : s.Counted)
    (hs : step backLog s (.complete k success connected) = some s') : s'.Counted := by
  simp only [step] at hs
  cases hk : s.accepting[k]? with
  | none => simp [hk] at hs
  | some block =>
    simp only [hk, Option.some.injEq] at hs
    subst hs
    refine ⟨fun x => ?_, fun x => ?_⟩
    · have hc := h.connections x
      cases connected with
      | false => simpa [List.flatMap_append] using hc
      | true =>
        simp only [if_true, List.flatMap_append, List.count_append, List.range_succ, List.flatMap_cons,
          List.flatMap_nil, List.append_nil, Option.toList_some]
        omega
    · have hb := h.blocks x
      have hcount := count_eraseIdx hk (fun b => [b]) x
      simp only [List.flatMap_singleton'] at hcount
      simp only [List.flatMap_append, List.count_append, List.flatMap_cons, List.flatMap_nil, List.append_nil]
      omega

theorem counted_step (h : s.Counted) (e : Event) (hs : step backLog s e = some s') : s'.Counted := by
  cases e with
  | initialize_ =>
    obtain ⟨-, rfl⟩ := by simpa [step] using hs
    exact ⟨h.connections, h.blocks⟩
  | start address e =>
    obtain ⟨-, rfl⟩ := by simpa [step] using hs
    exact counted_start h address e
  | initialAccept r c => exact counted_initialAccept h hs
  | stop c =>
    obtain ⟨-, rfl⟩ := by simpa [step] using hs
    exact counted_stop h c
  | complete k success connected => exact counted_complete h hs
  | handleAccept k makeHandler r =>
    simp only [step] at hs
    cases hk : s.posted[k]? with
    | none => simp [hk] at hs
    | some p =>
      simp only [hk, Option.some.injEq] at hs
      subst hs
      exact counted_handleAccept h hk makeHandler r

/-- What every state of a run has in which the listener is started again only when it is
drained. -/
structure Kept (backLog : ℕ) (s : AsynchListener) : Prop where
  serving : s.Serving → s.handle = true ∧ s.isOpen = true ∧ s.reissueAccept = true
  one : s.opening ≠ none → s.isListening = false
  pool : s.Pooled backLog

theorem kept_of_idle (hopening : s.opening = none) (hl : s.isListening = false) : s.Kept backLog := by
  have hidle : ¬ s.Serving := by simp [Serving, hopening, hl]
  exact ⟨fun h => absurd h hidle, fun h => absurd hopening h, fun h => absurd h hidle⟩

theorem kept_closeAccept (hl : s.isListening = false) (c : CancelResult) :
    (s.closeAccept c).Kept backLog := by
  cases c with
  | failed => exact kept_of_idle rfl hl
  | canceled => exact kept_of_idle rfl hl

theorem kept_start (h : s.Kept backLog) (hopening : s.opening = none)
    (hdrained : s.isListening = false → s.accepting = [] ∧ s.live = []) (address : Bool)
    (e : OpenResults) : (s.start backLog address e).Kept backLog := by
  obtain hs | ⟨hl, hs⟩ | ⟨hl, s₁, rfl, hs | hs⟩ := start_cases s backLog address e
  · rw [hs]
    exact h
  · rw [hs]
    exact kept_of_idle hopening hl
  · rw [hs]
    refine kept_closeAccept ?_ e.cancel
    exact hl
  · obtain ⟨haccepting, hlive⟩ := hdrained hl
    rw [hs]
    refine ⟨fun _ => ⟨rfl, rfl, rfl⟩, fun _ => hl, fun _ => ?_⟩
    simpa [haccepting, live] using hlive

theorem kept_initialAccept {c : CancelResult} (h : s.Kept backLog) (hs : s.initialAccept r c = some s') :
    s'.Kept backLog := by
  unfold initialAccept at hs
  cases hopening : s.opening with
  | none => simp [hopening] at hs
  | some left =>
    have hserving : s.Serving := Or.inl (by simp [hopening])
    have hl := h.one (by simp [hopening])
    have hpool := h.pool hserving
    cases left with
    | zero =>
      simp only [hopening, Option.some.injEq] at hs
      subst hs
      refine ⟨fun _ => h.serving hserving, fun hn => absurd rfl hn, fun _ => ?_⟩
      simpa [hopening, live] using hpool
    | succ left =>
      simp only [hopening] at hs
      obtain ⟨hr, -⟩ | hr | hr := accept_cases s r
      · simp only [hr, Option.some.injEq] at hs
        subst hs
        refine ⟨fun _ => h.serving hserving, fun _ => hl, fun _ => ?_⟩
        simp only [hopening, Option.getD_some, live] at hpool ⊢
        simp only [List.length_append, List.length_singleton]
        omega
      · simp only [hr, Option.some.injEq] at hs
        subst hs
        refine kept_closeAccept ?_ c
        exact hl
      · simp only [hr, Option.some.injEq] at hs
        subst hs
        refine kept_closeAccept ?_ c
        exact hl

theorem kept_stop (h : s.Kept backLog) (hopening : s.opening = none) (c : CloseResult) :
    (s.stop c).Kept backLog := by
  unfold stop
  split_ifs
  · exact h
  · cases c with
    | noAccept => exact h
    | failed => exact kept_of_idle hopening rfl
    | closed => exact kept_of_idle hopening rfl

theorem length_live_eraseIdx {k block : ℕ} {c : AcceptCompletion} (hk : s.posted[k]? = some (block, c)) :
    s.live.length = (if c.canceled then 0 else 1) +
      ((s.posted.eraseIdx k).filter fun p => !p.2.canceled).length := by
  obtain ⟨hlt, hget⟩ := List.getElem?_eq_some_iff.1 hk
  have hperm := ((hget ▸ List.getElem_cons_eraseIdx_perm hlt).filter fun p : ℕ × AcceptCompletion =>
    !p.2.canceled).length_eq
  rw [live, ← hperm, List.filter_cons]
  cases c.canceled with
  | false => simp [Nat.add_comm]
  | true => simp

theorem kept_complete {k : ℕ} {success connected : Bool} (h : s.Kept backLog)
    (hs : step backLog s (.complete k success connected) = some s') : s'.Kept backLog := by
  simp only [step] at hs
  cases hk : s.accepting[k]? with
  | none => simp [hk] at hs
  | some block =>
    obtain ⟨hlt, -⟩ := List.getElem?_eq_some_iff.1 hk
    simp only [hk, Option.some.injEq] at hs
    subst hs
    refine ⟨h.serving, h.one, fun hserving => ?_⟩
    have hpool := h.pool hserving
    simp only [live, List.filter_append, List.length_append, List.length_eraseIdx_of_lt hlt] at hpool ⊢
    simp only [List.filter_cons, List.filter_nil, Bool.not_false, if_true, List.length_singleton]
    omega

/-- It changes nothing that `start ()` and `stop ()` set. -/
theorem handleAccept_socket (s : AsynchListener) (block : ℕ) (c : AcceptCompletion) (makeHandler : Bool)
    (r : AcceptResult) :
    (s.handleAccept block c makeHandler r).opening = s.opening ∧
      (s.handleAccept block c makeHandler r).isListening = s.isListening ∧
      (s.handleAccept block c makeHandler r).handle = s.handle ∧
      (s.handleAccept block c makeHandler r).isOpen = s.isOpen ∧
      (s.handleAccept block c makeHandler r).reissueAccept = s.reissueAccept := by
  obtain ⟨error, heq⟩ := handleAccept_eq s block c makeHandler r
  rw [heq]
  split_ifs
  · obtain ⟨hr, -⟩ | hr | hr := accept_cases (s.dispatch block c error) r
    · rw [hr]
      exact ⟨rfl, rfl, rfl, rfl, rfl⟩
    · rw [hr]
      exact ⟨rfl, rfl, rfl, rfl, rfl⟩
    · rw [hr]
      exact ⟨rfl, rfl, rfl, rfl, rfl⟩
  · exact ⟨rfl, rfl, rfl, rfl, rfl⟩

theorem pooled_handleAccept {k block : ℕ} {c : AcceptCompletion} (h : s.Kept backLog)
    (hk : s.posted[k]? = some (block, c)) (makeHandler : Bool) (r : AcceptResult) (hserving : s.Serving) :
    (({ s with posted := s.posted.eraseIdx k } : AsynchListener).handleAccept block c makeHandler r).Pooled
      backLog := by
  intro _
  obtain ⟨error, heq⟩ := handleAccept_eq ({ s with posted := s.posted.eraseIdx k } : AsynchListener)
    block c makeHandler r
  have hlive := length_live_eraseIdx hk
  obtain ⟨hhandle, hopen, hreissue⟩ := h.serving hserving
  have hpool := h.pool hserving
  have hagain : (s.reissueAccept && s.handle && !c.canceled) = !c.canceled := by
    rw [hhandle, hreissue]
    rfl
  rw [heq]
  simp only [hagain]
  cases hc : c.canceled with
  | true =>
    simp only [hc, if_true, Nat.zero_add] at hlive
    rw [if_neg (by simp)]
    rw [hlive] at hpool
    exact hpool
  | false =>
    simp only [hc, Bool.false_eq_true, if_false] at hlive
    rw [if_pos (by simp)]
    obtain ⟨hr, -⟩ | hr | hr := accept_cases
      (({ s with posted := s.posted.eraseIdx k } : AsynchListener).dispatch block c error) r
    · rw [hr]
      simp only [dispatch, live, List.length_append, List.length_singleton] at hpool hlive ⊢
      omega
    · rw [hr]
      simp only [dispatch, live] at hpool hlive ⊢
      omega
    · rw [hr]
      simp only [dispatch, live] at hpool hlive ⊢
      omega

theorem kept_handleAccept {k block : ℕ} {c : AcceptCompletion} (h : s.Kept backLog)
    (hk : s.posted[k]? = some (block, c)) (makeHandler : Bool) (r : AcceptResult) :
    (({ s with posted := s.posted.eraseIdx k } : AsynchListener).handleAccept block c makeHandler r).Kept
      backLog := by
  obtain ⟨hopening, hl, hhandle, hopen, hreissue⟩ := handleAccept_socket
    ({ s with posted := s.posted.eraseIdx k } : AsynchListener) block c makeHandler r
  refine ⟨fun hserving => ?_, fun hn => ?_, fun hserving => ?_⟩
  · rw [Serving, hopening, hl] at hserving
    rw [hhandle, hopen, hreissue]
    exact h.serving hserving
  · rw [hopening] at hn
    rw [hl]
    exact h.one hn
  · have hserving' := hserving
    rw [Serving, hopening, hl] at hserving'
    exact pooled_handleAccept h hk makeHandler r hserving' hserving

theorem kept_step (h : s.Kept backLog) (e : Event) (hs : step backLog s e = some s')
    (hdrained : Drained s e s') : s'.Kept backLog := by
  cases e with
  | initialize_ =>
    obtain ⟨-, rfl⟩ := by simpa [step] using hs
    exact ⟨h.serving, h.one, h.pool⟩
  | start address e =>
    obtain ⟨hopening, rfl⟩ := by simpa [step] using hs
    exact kept_start h hopening hdrained address e
  | initialAccept r c => exact kept_initialAccept h hs
  | stop c =>
    obtain ⟨hopening, rfl⟩ := by simpa [step] using hs
    exact kept_stop h hopening c
  | complete k success connected => exact kept_complete h hs
  | handleAccept k makeHandler r =>
    simp only [step] at hs
    cases hk : s.posted[k]? with
    | none => simp [hk] at hs
    | some p =>
      simp only [hk, Option.some.injEq] at hs
      subst hs
      exact kept_handleAccept h hk makeHandler r

/-- What every state of a run has in which the accepts can be canceled. -/
def Idle (s : AsynchListener) : Prop :=
  s.Serving ∨ s.accepting = [] ∧ ¬ (s.handle = true ∧ s.isOpen = true)

theorem idle_closeAccept {c : CancelResult} (hc : c = .canceled) : (s.closeAccept c).Idle := by
  subst hc
  exact Or.inr ⟨rfl, by simp [closeAccept]⟩

theorem idle_start (h : s.Idle) (address : Bool) (e : OpenResults) (hc : e.cancel = .canceled) :
    (s.start backLog address e).Idle := by
  obtain hs | ⟨-, hs⟩ | ⟨-, s₁, rfl, hs | hs⟩ := start_cases s backLog address e
  · rw [hs]
    exact h
  · rw [hs]
    exact h
  · rw [hs]
    exact idle_closeAccept hc
  · rw [hs]
    exact Or.inl (Or.inl (by simp))

theorem idle_initialAccept {c : CancelResult} (hc : c = .canceled)
    (hs : s.initialAccept r c = some s') : s'.Idle := by
  unfold initialAccept at hs
  split at hs
  · cases hs
  · obtain rfl := Option.some.inj hs
    exact Or.inl (Or.inr rfl)
  · split at hs
    · obtain rfl := Option.some.inj hs
      exact Or.inl (Or.inl (by simp))
    · obtain rfl := Option.some.inj hs
      exact idle_closeAccept hc

theorem idle_stop (h : s.Idle) {c : CloseResult} (hc : c ≠ .failed) : (s.stop c).Idle := by
  unfold stop
  split_ifs
  · exact h
  · cases c with
    | noAccept => exact h
    | failed => exact absurd rfl hc
    | closed => exact Or.inr ⟨rfl, by simp⟩

theorem idle_complete {k : ℕ} {success connected : Bool} (h : s.Idle)
    (hs : step backLog s (.complete k success connected) = some s') : s'.Idle := by
  simp only [step] at hs
  cases hk : s.accepting[k]? with
  | none => simp [hk] at hs
  | some block =>
    simp only [hk, Option.some.injEq] at hs
    subst hs
    obtain hserving | ⟨haccepting, -⟩ := h
    · exact Or.inl hserving
    · simp [haccepting] at hk

theorem idle_handleAccept (h : s.Idle) (posted : List (ℕ × AcceptCompletion)) (block : ℕ)
    (c : AcceptCompletion) (makeHandler : Bool) (r : AcceptResult) :
    (({ s with posted := posted } : AsynchListener).handleAccept block c makeHandler r).Idle := by
  obtain ⟨hopening, hl, hhandle, hopen, -⟩ := handleAccept_socket
    ({ s with posted := posted } : AsynchListener) block c makeHandler r
  rw [Idle, Serving, hopening, hl, hhandle, hopen]
  refine h.imp id fun ⟨haccepting, hsocket⟩ => ⟨?_, hsocket⟩
  obtain ⟨error, heq⟩ := handleAccept_eq ({ s with posted := posted } : AsynchListener)
    block c makeHandler r
  rw [heq]
  split_ifs with hagain
  · have hclosed : ¬ s.isOpen = true := fun hopen => hsocket ⟨by simp_all, hopen⟩
    obtain ⟨-, hopen⟩ | hr | hr := accept_cases
      (({ s with posted := posted } : AsynchListener).dispatch block c error) r
    · exact absurd hopen hclosed
    · rw [hr]
      exact haccepting
    · rw [hr]
      exact haccepting
  · exact haccepting

theorem idle_step (h : s.Idle) (e : Event) (hs : step backLog s e = some s') (hc : Cancels s e s') :
    s'.Idle := by
  cases e with
  | initialize_ =>
    obtain ⟨-, rfl⟩ := by simpa [step] using hs
    exact h
  | start address e =>
    obtain ⟨-, rfl⟩ := by simpa [step] using hs
    exact idle_start h address e hc
  | initialAccept r c => exact idle_initialAccept hc hs
  | stop c =>
    obtain ⟨-, rfl⟩ := by simpa [step] using hs
    exact idle_stop h hc
  | complete k success connected => exact idle_complete h hs
  | handleAccept k makeHandler r =>
    simp only [step] at hs
    cases hk : s.posted[k]? with
    | none => simp [hk] at hs
    | some p =>
      simp only [hk, Option.some.injEq] at hs
      subst hs
      exact idle_handleAccept h _ p.1 p.2 makeHandler r

theorem counted_initial : Counted {} := ⟨by simp, by simp⟩

theorem kept_initial : Kept backLog {} := kept_of_idle rfl rfl

theorem idle_initial : Idle {} := Or.inr ⟨rfl, by simp⟩

/-- Whatever the threads do in whatever order: every accepted connection has one handler, or is
closed, once, or waits for its dispatch, and every message block is released once or belongs to an
accept that is under way. If `start ()` is called when what `stop ()` left is dispatched, then the
accepts that are under way while it serves are as many as `open ()` made, but for those that could not
be made again; and while it does not serve there are none, unless they could not be canceled. -/
theorem accepts_sound (backLog : ℕ) (es : List Event) (hs : exec (step backLog) {} es = some s) :
    s.Sound ∧ (Always (step backLog) Drained {} es → s.Pooled backLog) ∧
      (Always (step backLog) Cancels {} es → s.Serving ∨ s.accepting = []) := by
  refine ⟨?_, fun hdrained => ?_, fun hcancels => ?_⟩
  · have halways : Always (step backLog) (fun _ _ s' => s'.Counted) {} es :=
      always_of_step (fun s e s' h hstep _ => ⟨counted_step h e hstep, counted_step h e hstep⟩) es
        counted_initial (always_of_forall (fun _ _ _ _ _ => trivial) es fun _ _ => trivial)
    exact sound_iff.2 (exec_of_always es counted_initial halways hs)
  · have halways : Always (step backLog) (fun _ _ s' => s'.Kept backLog) {} es :=
      always_of_step (fun s e s' h hstep hd => ⟨kept_step h e hstep hd, kept_step h e hstep hd⟩) es
        kept_initial hdrained
    exact (exec_of_always es kept_initial halways hs).pool
  · have halways : Always (step backLog) (fun _ _ s' => s'.Idle) {} es :=
      always_of_step (fun s e s' h hstep hc => ⟨idle_step h e hstep hc, idle_step h e hstep hc⟩) es
        idle_initial hcancels
    exact (exec_of_always es idle_initial halways hs).imp id And.left

/-- Two accepts, one of which gets a handler and is made again, while the other one fails; then the
listener is stopped, at the second attempt, and started again. -/
def restarted : List Event :=
  [.initialize_, .start true {}, .initialAccept .accepted .canceled, .initialAccept .accepted .canceled,
    .initialAccept .accepted .canceled, .complete 1 true true, .handleAccept 0 true .accepted,
    .complete 0 false false, .stop .noAccept, .stop .closed, .handleAccept 0 true .accepted,
    .start true {}]

theorem restarted_sound : ∃ s s', exec (step 2) {} restarted = some s ∧ s.Sound ∧ s.Pooled 2 ∧
    exec (step 2) {} (restarted.take 10) = some s' ∧ (s'.Serving ∨ s'.accepting = []) := by
  obtain ⟨s, hs⟩ : ∃ s, exec (step 2) {} restarted = some s := ⟨_, rfl⟩
  obtain ⟨s', hs'⟩ : ∃ s', exec (step 2) {} (restarted.take 10) = some s' := ⟨_, rfl⟩
  have hsound := accepts_sound 2 restarted hs
  have hstopped := accepts_sound 2 (restarted.take 10) hs'
  exact ⟨s, s', hs, hsound.1, hsound.2.1 (by decide), hs', hstopped.2.2 (by decide)⟩

end AsynchListener

end ACENetwork.Net
