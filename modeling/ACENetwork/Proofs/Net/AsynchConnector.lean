import Mathlib
import ACENetwork.Library.Transition
import ACENetwork.Spec.Net.AsynchConnector

/-! Waiting for an asynchronous connect. The condition and the map serve all the connects, and
`wait ()` sleeps without a test of its entry: it returns the result of its own connect in the runs
in which it is woken behind its own completion and in no other way, and nobody else changes the
entry before it has read it. -/

namespace ACENetwork.Net

open Transition

namespace AsynchConnector

variable {ι H : Type} {s s' : AsynchConnector ι H}
  {t : ι} {k : Connecting H} {c n : ℕ} {a a' : Attempt H} {h : H}

def Owns (s : AsynchConnector ι H) : ι ⊕ ℕ → H → Prop
  | .inl t, h => (s.threads t).socket = some h
  | .inr c, h => ∃ a, s.attempts c = some a ∧ a.handle = h ∧ a.completing ≠ .closed

structure Owned (s : AsynchConnector ι H) : Prop where
  opened : ∀ o h, s.Owns o h → s.sockets h = true
  distinct : ∀ o o' h, s.Owns o h → s.Owns o' h → o = o'
  fresh : ∀ c, s.accepted ≤ c → s.attempts c = none

/-- A step after which nobody owns what he did not own before. -/
theorem Owned.mono (hs : s.Owned) (howns : ∀ o h, s'.Owns o h → s.Owns o h)
    (hsockets : s'.sockets = s.sockets) (hfresh : ∀ c, s'.accepted ≤ c → s'.attempts c = none) :
    s'.Owned where
  opened o h ho := by
    rw [hsockets]
    exact hs.opened o h (howns o h ho)
  distinct o o' h ho ho' := hs.distinct o o' h (howns o h ho) (howns o' h ho')
  fresh := hfresh

theorem Owned.close [DecidableEq H] (hs : s.Owned) {o₀ : ι ⊕ ℕ} {h₀ : H} (h₀owns : s.Owns o₀ h₀)
    (howns : ∀ o h, s'.Owns o h → s.Owns o h) (hrid : ∀ h, ¬ s'.Owns o₀ h)
    (hsockets : s'.sockets = Function.update s.sockets h₀ false)
    (hfresh : ∀ c, s'.accepted ≤ c → s'.attempts c = none) : s'.Owned where
  opened o h ho := by
    have hne : h ≠ h₀ := by
      intro heq
      subst heq
      obtain rfl := hs.distinct o o₀ h (howns o h ho) h₀owns
      exact hrid h ho
    rw [hsockets, Function.update_of_ne hne]
    exact hs.opened o h (howns o h ho)
  distinct o o' h ho ho' := hs.distinct o o' h (howns o h ho) (howns o' h ho')
  fresh := hfresh

theorem owns_congr (hthreads : ∀ t, (s'.threads t).socket = (s.threads t).socket)
    (hattempts : s'.attempts = s.attempts) (o : ι ⊕ ℕ) (h : H) (ho : s'.Owns o h) : s.Owns o h := by
  cases o with
  | inl t => exact (hthreads t).symm.trans ho
  | inr c =>
    obtain ⟨a, ha, ho⟩ := ho
    exact ⟨a, by rw [← ha, hattempts], ho⟩

theorem owns_goto [DecidableEq ι] (hk : ∀ h, k.socket = some h → (s.threads t).socket = some h) (o : ι ⊕ ℕ) (h : H)
    (ho : (s.goto t k).Owns o h) : s.Owns o h := by
  cases o with
  | inl t' =>
    change (Function.update s.threads t k t').socket = some h at ho
    by_cases ht : t' = t
    · subst ht
      rw [Function.update_self] at ho
      exact hk h ho
    · rwa [Function.update_of_ne ht] at ho
  | inr c => exact ho

theorem owns_complete (ha : s.attempts c = some a) (hhandle : a'.handle = a.handle)
    (hopen : a'.completing ≠ .closed → a.completing ≠ .closed) (o : ι ⊕ ℕ) (h : H)
    (ho : (s.complete c a').Owns o h) : s.Owns o h := by
  cases o with
  | inl t => exact ho
  | inr c' =>
    obtain ⟨a₁, ha₁, hh, hclosed⟩ := ho
    change Function.update s.attempts c (some a') c' = some a₁ at ha₁
    by_cases hc : c' = c
    · subst hc
      rw [Function.update_self] at ha₁
      obtain rfl := Option.some.inj ha₁
      exact ⟨a, ha, hhandle ▸ hh, hopen hclosed⟩
    · rw [Function.update_of_ne hc] at ha₁
      exact ⟨a₁, ha₁, hh, hclosed⟩

theorem Owned.lt (hs : s.Owned) (ha : s.attempts c = some a) : c < s.accepted := by
  by_contra hc
  have hnone := hs.fresh c (by omega)
  rw [ha] at hnone
  cases hnone

theorem Owned.fresh_complete (hs : s.Owned) (ha : s.attempts c = some a) (c' : ℕ)
    (hc' : s.accepted ≤ c') : (s.complete c a').attempts c' = none := by
  have hlt := hs.lt ha
  change Function.update s.attempts c (some a') c' = none
  rw [Function.update_of_ne (by omega)]
  exact hs.fresh c' hc'

def Attempt.Unsignalled (a : Attempt H) : Prop := a.completing = .pending ∨ a.completing = .recorded

/-- The entry for an attempt, with its result once that is known. -/
def HasEntry (s : AsynchConnector ι H) (a : Attempt H) (n : ℕ) : Prop :=
  ∃ v, s.handles a.handle = some (n, v) ∧ (a.completing ≠ .pending → v = a.disposition)

def Fits (s : AsynchConnector ι H) : Connecting H → Prop
  | .connect h => ∃ entry, s.handles h = some entry
  | .connected c => ∃ a, s.attempts c = some a ∧ (Attempt.Unsignalled a → ∃ n, s.HasEntry a n)
  | .blocked c n => ∃ a, s.attempts c = some a ∧ Attempt.Unsignalled a ∧ s.HasEntry a n
  | .woken c n => ∃ a, s.attempts c = some a ∧ a.completing ≠ .pending ∧ s.HasEntry a n
  | .answered c result =>
    ∃ a, s.attempts c = some a ∧ a.completing ≠ .pending ∧ result = some a.disposition
  | _ => True

structure Inv (s : AsynchConnector ι H) : Prop where
  owned : s.Owned
  fits : ∀ t, s.Fits (s.threads t)

theorem isFor_iff [DecidableEq H] (ha : s.attempts c = some a) : s.isFor c h = true ↔ a.handle = h := by
  simp [isFor, ha]

theorem unsignalled_iff (ha : s.attempts c = some a) :
    s.unsignalled c = true ↔ Attempt.Unsignalled a := by
  simp [unsignalled, ha, Attempt.Unsignalled]

theorem completed_iff (ha : s.attempts c = some a) : s.completed c = true ↔ a.completing ≠ .pending := by
  simp [completed, ha]

/-- The number of the attempt that a thread is concerned with. -/
def attemptOf : Connecting H → Option ℕ
  | .connected c | .blocked c _ | .woken c _ | .answered c _ => some c
  | _ => none

theorem Fits.attempt_ne (hf : s.Fits k) (hc : s.attempts c = none) : attemptOf k ≠ some c := by
  intro hk
  cases k with
  | connected c' | blocked c' n | woken c' n | answered c' result =>
    obtain rfl : c' = c := Option.some.inj hk
    obtain ⟨a, ha, -⟩ := hf
    rw [hc] at ha
    cases ha
  | idle | setsockopt | insert | connect | closesocket | erase => cases hk

theorem Fits.congr (hf : s.Fits k) (hhandles : s'.handles = s.handles)
    (hattempts : s'.attempts = s.attempts) : s'.Fits k := by
  cases k with
  | connect | connected | blocked | woken | answered =>
    simpa only [Fits, HasEntry, hhandles, hattempts] using hf
  | idle | setsockopt | insert | closesocket | erase => trivial

theorem HasEntry.update [DecidableEq H] {a : Attempt H} (hentry : s.HasEntry a n) (hne : a.handle ≠ h)
    (entry : Option (ℕ × ℤ)) :
    ({ s with handles := Function.update s.handles h entry } : AsynchConnector ι H).HasEntry a n := by
  obtain ⟨v, hv, hd⟩ := hentry
  refine ⟨v, ?_, hd⟩
  rw [← hv]
  exact Function.update_of_ne hne _ _

/-- The entry of a handle changes, and the thread has no need of it. -/
theorem Fits.update [DecidableEq H] (hf : s.Fits k) (hk : s.needs h k = false) (entry : Option (ℕ × ℤ)) :
    ({ s with handles := Function.update s.handles h entry } : AsynchConnector ι H).Fits k := by
  cases k with
  | connect h' =>
    have hne : h' ≠ h := by simpa [needs] using hk
    obtain ⟨e, he⟩ := hf
    exact ⟨e, by rw [← he]; exact Function.update_of_ne hne _ _⟩
  | connected c =>
    obtain ⟨a, ha, hentry⟩ := hf
    refine ⟨a, ha, fun hu => ?_⟩
    have hne : a.handle ≠ h := by
      intro heq
      simp [needs, isFor, ha, heq, (unsignalled_iff ha).2 hu] at hk
    obtain ⟨n, hentry⟩ := hentry hu
    exact ⟨n, hentry.update hne entry⟩
  | blocked c n | woken c n =>
    obtain ⟨a, ha, hu, hentry⟩ := hf
    have hne : a.handle ≠ h := by
      intro heq
      simp [needs, isFor, ha, heq] at hk
    exact ⟨a, ha, hu, hentry.update hne entry⟩
  | answered c result => exact hf
  | idle | setsockopt | insert | closesocket | erase => trivial

theorem Fits.complete (hf : s.Fits k) (hk : attemptOf k ≠ some c) : (s.complete c a').Fits k := by
  have hsame : ∀ c', attemptOf k = some c' → (s.complete c a').attempts c' = s.attempts c' := by
    intro c' hc'
    refine Function.update_of_ne ?_ _ _
    rintro rfl
    exact hk hc'
  cases k with
  | connected c' | blocked c' n | woken c' n | answered c' result =>
    obtain ⟨a, ha, hentry⟩ := hf
    exact ⟨a, (hsame c' rfl).trans ha, hentry⟩
  | connect h => exact hf
  | idle | setsockopt | insert | closesocket | erase => trivial

theorem Inv.goto [DecidableEq ι] (hs : s.Inv) (hk : ∀ h, k.socket = some h → (s.threads t).socket = some h)
    (hf : s.Fits k) : (s.goto t k).Inv where
  owned := hs.owned.mono (owns_goto hk) rfl hs.owned.fresh
  fits t' := by
    refine Fits.congr (s := s) ?_ rfl rfl
    change s.Fits (Function.update s.threads t k t')
    by_cases ht : t' = t
    · subst ht
      rwa [Function.update_self]
    · rw [Function.update_of_ne ht]
      exact hs.fits t'

/-- Nobody else needs the entry for the handle of an attempt whose socket is open, but for a
thread that was woken. -/
theorem Inv.needs [DecidableEq H] (hs : s.Inv) (ha : s.attempts c = some a) (hopen : a.completing ≠ .closed)
    (hreads : s.reads a.handle (s.threads t) = false) (hother : attemptOf (s.threads t) ≠ some c) :
    s.needs a.handle (s.threads t) = false := by
  have howns : s.Owns (.inr c) a.handle := ⟨a, ha, rfl, hopen⟩
  have hfits := hs.fits t
  by_contra hneeds
  rw [Bool.not_eq_false] at hneeds
  cases hk : s.threads t with
  | connect h =>
    have heq : h = a.handle := by simpa [AsynchConnector.needs, hk] using hneeds
    have hown : s.Owns (.inl t) a.handle := by
      change (s.threads t).socket = some a.handle
      rw [hk, heq]
      rfl
    cases hs.owned.distinct _ _ _ hown howns
  | connected c' =>
    rw [hk] at hfits hneeds
    obtain ⟨a', ha', -⟩ := hfits
    simp only [AsynchConnector.needs, Bool.and_eq_true, isFor_iff ha', unsignalled_iff ha'] at hneeds
    obtain ⟨heq, hu⟩ := hneeds
    have hclosed : a'.completing ≠ .closed := by rcases hu with hu | hu <;> simp [hu]
    cases hs.owned.distinct (.inr c') (.inr c) _ ⟨a', ha', heq, hclosed⟩ howns
    exact hother (by rw [hk]; rfl)
  | blocked c' n =>
    rw [hk] at hfits hneeds
    obtain ⟨a', ha', hu, -⟩ := hfits
    have heq : a'.handle = a.handle := (isFor_iff ha').1 hneeds
    have hclosed : a'.completing ≠ .closed := by rcases hu with hu | hu <;> simp [hu]
    cases hs.owned.distinct (.inr c') (.inr c) _ ⟨a', ha', heq, hclosed⟩ howns
    exact hother (by rw [hk]; rfl)
  | woken c' n =>
    rw [hk] at hneeds hreads
    exact Bool.false_ne_true (hreads.symm.trans hneeds)
  | idle | setsockopt | insert | closesocket | erase | answered => simp [AsynchConnector.needs, hk] at hneeds

theorem Fits.advance (hf : s.Fits k) (ha : s.attempts c = some a) (hpending : a.completing ≠ .pending)
    (hhandle : a'.handle = a.handle) (hdisposition : a'.disposition = a.disposition)
    (hsignalled : ¬ Attempt.Unsignalled a') (hawake : ∀ n, k ≠ .blocked c n) : (s.complete c a').Fits k := by
  by_cases hk : attemptOf k = some c
  · have hself : (s.complete c a').attempts c = some a' := Function.update_self ..
    have hpending' : a'.completing ≠ .pending := fun hp => hsignalled (.inl hp)
    cases k with
    | connected c' =>
      obtain rfl : c' = c := Option.some.inj hk
      exact ⟨a', hself, fun hu => absurd hu hsignalled⟩
    | blocked c' n =>
      obtain rfl : c' = c := Option.some.inj hk
      exact absurd rfl (hawake n)
    | woken c' n =>
      obtain rfl : c' = c := Option.some.inj hk
      obtain ⟨a₁, ha₁, -, v, hv, hd⟩ := hf
      obtain rfl : a = a₁ := Option.some.inj (ha.symm.trans ha₁)
      refine ⟨a', hself, hpending', v, ?_, fun _ => ?_⟩
      · rw [← hv, hhandle]
        rfl
      · rw [hd hpending, hdisposition]
    | answered c' result =>
      obtain rfl : c' = c := Option.some.inj hk
      obtain ⟨a₁, ha₁, -, hr⟩ := hf
      obtain rfl : a = a₁ := Option.some.inj (ha.symm.trans ha₁)
      exact ⟨a', hself, hpending', by rw [hr, hdisposition]⟩
    | idle | setsockopt | insert | connect | closesocket | erase => cases hk
  · exact hf.complete hk

theorem Connecting.socket_signal : ∀ k : Connecting H, k.signal.socket = k.socket
  | .idle | .setsockopt _ | .insert _ | .connect _ | .closesocket _ | .erase _ | .connected _
  | .blocked _ _ | .woken _ _ | .answered _ _ => rfl

theorem Fits.signal (hf : s.Fits k) (hready : s.ready k = true) : s.Fits k.signal := by
  cases k with
  | blocked c n =>
    obtain ⟨a, ha, -, hentry⟩ := hf
    exact ⟨a, ha, (completed_iff ha).1 hready, hentry⟩
  | idle | setsockopt | insert | connect | closesocket | erase | connected | woken | answered => exact hf

theorem Inv.update [DecidableEq H] (hs : s.Inv) (n : ℕ) (entry : Option (ℕ × ℤ))
    (hneeds : ∀ t, s.needs h (s.threads t) = false) :
    ({ s with handles := Function.update s.handles h entry, entries := n } : AsynchConnector ι H).Inv where
  owned := hs.owned.mono (owns_congr (fun _ => rfl) rfl) rfl hs.owned.fresh
  fits t := ((hs.fits t).update (hneeds t) entry).congr rfl rfl

theorem Inv.needs_none [DecidableEq H] (hs : s.Inv) (hnone : s.handles h = none) (t : ι) :
    s.needs h (s.threads t) = false := by
  have hfits := hs.fits t
  by_contra hneeds
  rw [Bool.not_eq_false] at hneeds
  cases hk : s.threads t with
  | connect h' =>
    rw [hk] at hfits hneeds
    obtain ⟨entry, hentry⟩ := hfits
    obtain rfl : h' = h := by simpa [AsynchConnector.needs] using hneeds
    rw [hnone] at hentry
    cases hentry
  | connected c =>
    rw [hk] at hfits hneeds
    obtain ⟨a, ha, hentry⟩ := hfits
    simp only [AsynchConnector.needs, Bool.and_eq_true, isFor_iff ha, unsignalled_iff ha] at hneeds
    obtain ⟨rfl, hu⟩ := hneeds
    obtain ⟨n, v, hv, -⟩ := hentry hu
    rw [hnone] at hv
    cases hv
  | blocked c n | woken c n =>
    rw [hk] at hfits hneeds
    obtain ⟨a, ha, -, v, hv, -⟩ := hfits
    obtain rfl : a.handle = h := (isFor_iff ha).1 hneeds
    rw [hnone] at hv
    cases hv
  | idle | setsockopt | insert | closesocket | erase | answered => simp [AsynchConnector.needs, hk] at hneeds

/-- Behind the broadcast nobody is asleep for the attempt. -/
theorem Inv.advance (hs : s.Inv) (ha : s.attempts c = some a) (hsignalled : ¬ Attempt.Unsignalled a)
    (hsignalled' : ¬ Attempt.Unsignalled a') (hhandle : a'.handle = a.handle)
    (hdisposition : a'.disposition = a.disposition) (t : ι) : (s.complete c a').Fits (s.threads t) := by
  have hfits := hs.fits t
  by_cases hown : attemptOf (s.threads t) = some c
  · refine hfits.advance ha (fun hp => hsignalled (.inl hp)) hhandle hdisposition hsignalled' ?_
    intro n hn
    rw [hn] at hfits
    obtain ⟨a₁, ha₁, hu, -⟩ := hfits
    obtain rfl : a = a₁ := Option.some.inj (ha.symm.trans ha₁)
    exact hsignalled hu
  · exact hfits.complete hown

theorem inv_start : ({} : AsynchConnector ι H).Inv := by
  have hnone : ∀ o h, ¬ ({} : AsynchConnector ι H).Owns o h := by
    intro o h ho
    cases o with
    | inl t => cases ho
    | inr c =>
      obtain ⟨a, ha, -⟩ := ho
      cases ha
  exact ⟨⟨fun o h ho => absurd ho (hnone o h), fun o o' h ho => absurd ho (hnone o h), fun _ _ => rfl⟩,
    fun _ => trivial⟩

theorem Inv.waits (hs : s.Inv) : s.Waits := by
  intro t
  have hfits := hs.fits t
  cases hk : s.threads t with
  | answered c result =>
    rw [hk] at hfits
    obtain ⟨a, ha, hpending, hresult⟩ := hfits
    simp [Right, ha, hpending, hresult]
  | blocked c n =>
    rw [hk] at hfits
    obtain ⟨a, ha, hu, -⟩ := hfits
    rcases hu with hu | hu <;> simp [Right, ha, hu]
  | idle | setsockopt | insert | connect | closesocket | erase | connected | woken => trivial

variable [DecidableEq ι] [DecidableEq H]

theorem Inv.socket (hs : s.Inv) (hstep : step s (.socket t h) = some s') : s'.Inv := by
  have hs' : s.sockets h = false ∧
      s' = { s.goto t (.setsockopt h) with sockets := Function.update s.sockets h true } := by
    simp only [step] at hstep
    split at hstep
    · rename_i hopen
      exact ⟨hopen, (Option.some.inj hstep).symm⟩
    · rename_i hopen
      exact ⟨hopen, (Option.some.inj hstep).symm⟩
    · cases hstep
  obtain ⟨hclosed, rfl⟩ := hs'
  -- nobody has the handle, and the thread is the only one to get it
  have hnone : ∀ o, ¬ s.Owns o h := by
    intro o ho
    rw [hs.owned.opened o h ho] at hclosed
    cases hclosed
  have howns : ∀ o h', ({ s.goto t (.setsockopt h) with
      sockets := Function.update s.sockets h true } : AsynchConnector ι H).Owns o h' →
      (o = .inl t ∧ h' = h) ∨ (o ≠ .inl t ∧ s.Owns o h') := by
    intro o h' ho
    cases o with
    | inl t' =>
      change (Function.update s.threads t (.setsockopt h) t').socket = some h' at ho
      by_cases ht : t' = t
      · subst ht
        rw [Function.update_self] at ho
        exact .inl ⟨rfl, (Option.some.inj ho).symm⟩
      · rw [Function.update_of_ne ht] at ho
        exact .inr ⟨fun heq => ht (Sum.inl.inj heq), ho⟩
    | inr c => exact .inr ⟨by simp, ho⟩
  refine ⟨⟨?_, ?_, hs.owned.fresh⟩, ?_⟩
  · intro o h' ho
    change Function.update s.sockets h true h' = true
    obtain ⟨-, rfl⟩ | ⟨-, hold⟩ := howns o h' ho
    · exact Function.update_self ..
    · rw [Function.update_of_ne (by rintro rfl; exact hnone o hold)]
      exact hs.owned.opened o h' hold
  · intro o o' h' ho ho'
    obtain ⟨rfl, rfl⟩ | ⟨-, hold⟩ := howns o h' ho
    · obtain ⟨rfl, -⟩ | ⟨-, hold'⟩ := howns o' h' ho'
      · rfl
      · exact absurd hold' (hnone o')
    · obtain ⟨-, rfl⟩ | ⟨-, hold'⟩ := howns o' h' ho'
      · exact absurd hold (hnone o)
      · exact hs.owned.distinct o o' h' hold hold'
  · intro t'
    refine Fits.congr (s := s) ?_ rfl rfl
    change s.Fits (Function.update s.threads t (.setsockopt h) t')
    by_cases ht : t' = t
    · subst ht
      rw [Function.update_self]
      trivial
    · rw [Function.update_of_ne ht]
      exact hs.fits t'

theorem Inv.setsockopt (hs : s.Inv) {ok : Bool} (hstep : step s (.setsockopt t ok) = some s') : s'.Inv := by
  simp only [step] at hstep
  split at hstep
  · rename_i h ht
    obtain rfl := Option.some.inj hstep
    cases ok with
    | true => exact hs.goto (fun h' hh => by rw [ht]; exact hh) trivial
    | false => exact hs.goto (fun h' hh => by rw [ht]; exact hh) trivial
  · cases hstep

theorem Inv.insert (hs : s.Inv) (hstep : step s (.insert t) = some s') : s'.Inv := by
  simp only [step] at hstep
  split at hstep
  · rename_i h ht
    have hsocket : ∀ h', (Connecting.connect h).socket = some h' → (s.threads t).socket = some h' := by
      intro h' hh
      rw [ht]
      exact hh
    split at hstep
    · rename_i entry hentry
      obtain rfl := Option.some.inj hstep
      exact hs.goto hsocket ⟨entry, hentry⟩
    · rename_i hnone
      obtain rfl := Option.some.inj hstep
      have hmade := hs.update (s.entries + 1) (some (s.entries, -1)) (hs.needs_none hnone)
      exact hmade.goto (t := t) (k := .connect h) hsocket ⟨_, Function.update_self ..⟩
  · cases hstep

theorem Inv.erase (hs : s.Inv) (hstep : step s (.erase t) = some s') (htime : InTime s (.erase t) s') :
    s'.Inv := by
  simp only [step] at hstep
  split at hstep
  · rename_i h ht
    obtain rfl := Option.some.inj hstep
    simp only [InTime, ht] at htime
    have herased := hs.update s.entries none htime
    exact herased.goto (t := t) (k := .idle) (fun h' hh => by cases hh) trivial
  · cases hstep

theorem Inv.closesocket (hs : s.Inv) (hstep : step s (.closesocket t) = some s') : s'.Inv := by
  simp only [step] at hstep
  split at hstep
  · rename_i h ht
    obtain rfl := Option.some.inj hstep
    have howns : s.Owns (.inl t) h := by
      change (s.threads t).socket = some h
      rw [ht]
      rfl
    have hgoto := hs.goto (t := t) (k := .erase h) (fun h' hh => by cases hh) trivial
    refine ⟨hs.owned.close howns ?_ ?_ rfl hs.owned.fresh, fun t' => (hgoto.fits t').congr rfl rfl⟩
    · intro o h' ho
      refine owns_goto (t := t) (k := .erase h) (fun h'' hh => by cases hh) o h' ?_
      exact owns_congr (fun _ => rfl) rfl o h' ho
    · intro h' ho
      change (Function.update s.threads t (.erase h) t).socket = some h' at ho
      rw [Function.update_self] at ho
      cases ho
  · cases hstep

/-- The socket of the thread passes to the attempt that was accepted. -/
theorem Inv.connect (hs : s.Inv) {ok : Bool} (hstep : step s (.connect t ok) = some s') : s'.Inv := by
  simp only [step] at hstep
  split at hstep
  case h_2 => cases hstep
  rename_i h ht
  cases ok with
  | false =>
    obtain rfl := Option.some.inj hstep
    exact hs.goto (fun h' hh => by rw [ht]; exact hh) trivial
  | true =>
    obtain rfl := Option.some.inj hstep
    have howner : s.Owns (.inl t) h := by
      change (s.threads t).socket = some h
      rw [ht]
      rfl
    set s₁ : AsynchConnector ι H := { (s.goto t (.connected s.accepted)).complete s.accepted { handle := h } with
      accepted := s.accepted + 1 }
    have hself : s₁.attempts s.accepted = some { handle := h } := Function.update_self ..
    have hne {c : ℕ} (hc : c ≠ s.accepted) : s₁.attempts c = s.attempts c := Function.update_of_ne hc _ _
    -- who owns a handle now is who owned it before, the attempt in the place of the thread
    have howns : ∀ o h', s₁.Owns o h' →
        (o = .inr s.accepted ∧ h' = h) ∨ (o ≠ .inr s.accepted ∧ o ≠ .inl t ∧ s.Owns o h') := by
      intro o h' ho
      cases o with
      | inl t' =>
        change (Function.update s.threads t (.connected s.accepted) t').socket = some h' at ho
        by_cases ht' : t' = t
        · subst ht'
          rw [Function.update_self] at ho
          cases ho
        · rw [Function.update_of_ne ht'] at ho
          exact .inr ⟨by simp, fun heq => ht' (Sum.inl.inj heq), ho⟩
      | inr c =>
        obtain ⟨a, ha, hh, hclosed⟩ := ho
        by_cases hc : c = s.accepted
        · subst hc
          rw [hself] at ha
          obtain rfl := Option.some.inj ha
          exact .inl ⟨rfl, hh.symm⟩
        · rw [hne hc] at ha
          exact .inr ⟨fun heq => hc (Sum.inr.inj heq), by simp, a, ha, hh, hclosed⟩
    refine ⟨⟨?_, ?_, ?_⟩, ?_⟩
    · intro o h' ho
      obtain ⟨-, rfl⟩ | ⟨-, -, hold⟩ := howns o h' ho
      · exact hs.owned.opened _ _ howner
      · exact hs.owned.opened _ _ hold
    · intro o o' h' ho ho'
      obtain ⟨rfl, rfl⟩ | ⟨-, hnt, hold⟩ := howns o h' ho
      · obtain ⟨rfl, -⟩ | ⟨-, hnt', hold'⟩ := howns o' h' ho'
        · rfl
        · exact absurd (hs.owned.distinct _ _ _ hold' howner) hnt'
      · obtain ⟨-, rfl⟩ | ⟨-, hnt', hold'⟩ := howns o' h' ho'
        · exact absurd (hs.owned.distinct _ _ _ hold howner) hnt
        · exact hs.owned.distinct _ _ _ hold hold'
    · intro c hc
      have hlt : s.accepted + 1 ≤ c := hc
      rw [hne (by omega)]
      exact hs.owned.fresh c (by omega)
    · intro t'
      change s₁.Fits (Function.update s.threads t (.connected s.accepted) t')
      by_cases ht' : t' = t
      · subst ht'
        rw [Function.update_self]
        have hfits := hs.fits t'
        rw [ht] at hfits
        obtain ⟨entry, hentry⟩ := hfits
        exact ⟨_, hself, fun _ => ⟨entry.1, entry.2, hentry, fun hp => absurd rfl hp⟩⟩
      · rw [Function.update_of_ne ht']
        refine Fits.congr (s := s.complete s.accepted { handle := h }) ((hs.fits t').complete ?_) rfl rfl
        exact (hs.fits t').attempt_ne (hs.owned.fresh _ le_rfl)

theorem Inv.wait (hs : s.Inv) (hstep : step s (.wait t) = some s') (htime : InTime s (.wait t) s') :
    s'.Inv := by
  simp only [step] at hstep
  split at hstep
  case h_2 => cases hstep
  rename_i c ht
  have hfits := hs.fits t
  rw [ht] at hfits
  obtain ⟨a, ha, hentry⟩ := hfits
  have hu : Attempt.Unsignalled a := by
    rw [← unsignalled_iff ha]
    simpa only [InTime, ht, early] using htime
  obtain ⟨n, v, hv, hd⟩ := hentry hu
  simp only [ha, hv, Option.some.injEq] at hstep
  subst hstep
  exact hs.goto (fun h' hh => by cases hh) ⟨a, ha, hu, v, hv, hd⟩

theorem Inv.wake (hs : s.Inv) (hstep : step s (.wake t) = some s') (htime : InTime s (.wake t) s') :
    s'.Inv := by
  simp only [step] at hstep
  split at hstep
  case h_2 => cases hstep
  rename_i c n ht
  obtain rfl := Option.some.inj hstep
  have hfits := (hs.fits t).signal htime
  rw [ht] at hfits
  exact hs.goto (fun h' hh => by cases hh) hfits

theorem Inv.resume (hs : s.Inv) (hstep : step s (.resume t) = some s') : s'.Inv := by
  simp only [step] at hstep
  split at hstep
  case h_2 => cases hstep
  rename_i c n ht
  have hfits := hs.fits t
  rw [ht] at hfits
  obtain ⟨a, ha, hpending, v, hv, hd⟩ := hfits
  simp only [ha, hv, if_true, Option.some.injEq] at hstep
  subst hstep
  exact hs.goto (fun h' hh => by cases hh) ⟨a, ha, hpending, by rw [hd hpending]⟩

theorem Inv.validate (hs : s.Inv) {success : Bool} {error : ℤ}
    (hstep : step s (.validate c success error) = some s') (htime : InTime s (.validate c success error) s') :
    s'.Inv := by
  simp only [step] at hstep
  split at hstep
  case h_2 => cases hstep
  rename_i a ha
  simp only [InTime, ha] at htime
  by_cases hpending : a.completing = .pending
  case neg =>
    rw [if_neg hpending] at hstep
    cases hstep
  rw [if_pos hpending] at hstep
  obtain rfl := Option.some.inj hstep
  set v := if success = true then 0 else error
  set a' : Attempt H := { a with completing := .recorded, disposition := v }
  set entry := (s.handles a.handle).map fun entry => (entry.1, v)
  have hopen : a.completing ≠ .closed := by simp [hpending]
  refine ⟨hs.owned.mono ?_ rfl (hs.owned.fresh_complete ha), fun t => ?_⟩
  · intro o h ho
    have hcompleted : (s.complete c a').Owns o h := owns_congr (fun _ => rfl) rfl o h ho
    exact owns_complete ha (by rfl) (fun _ => hopen) o h hcompleted
  have hfits := hs.fits t
  by_cases hown : attemptOf (s.threads t) = some c
  · -- the thread of this attempt has not begun to wait, or is asleep
    change Fits _ (s.threads t)
    have hself : (s.complete c a').attempts c = some a' := Function.update_self ..
    cases hk : s.threads t with
    | connected c' =>
      rw [hk] at hfits hown
      obtain rfl : c' = c := Option.some.inj hown
      obtain ⟨a₁, ha₁, hentry⟩ := hfits
      obtain rfl : a = a₁ := Option.some.inj (ha.symm.trans ha₁)
      obtain ⟨n, w, hw, -⟩ := hentry (.inl hpending)
      refine ⟨a', hself, fun _ => ⟨n, v, ?_, fun _ => rfl⟩⟩
      exact (Function.update_self ..).trans (by simp [hw])
    | blocked c' n =>
      rw [hk] at hfits hown
      obtain rfl : c' = c := Option.some.inj hown
      obtain ⟨a₁, ha₁, -, w, hw, -⟩ := hfits
      obtain rfl : a = a₁ := Option.some.inj (ha.symm.trans ha₁)
      refine ⟨a', hself, .inr rfl, v, ?_, fun _ => rfl⟩
      exact (Function.update_self ..).trans (by simp [hw])
    | woken c' n =>
      rw [hk] at hfits hown
      obtain rfl : c' = c := Option.some.inj hown
      obtain ⟨a₁, ha₁, hdone, -⟩ := hfits
      obtain rfl : a = a₁ := Option.some.inj (ha.symm.trans ha₁)
      exact absurd hpending hdone
    | answered c' result =>
      rw [hk] at hfits hown
      obtain rfl : c' = c := Option.some.inj hown
      obtain ⟨a₁, ha₁, hdone, -⟩ := hfits
      obtain rfl : a = a₁ := Option.some.inj (ha.symm.trans ha₁)
      exact absurd hpending hdone
    | idle | setsockopt | insert | connect | closesocket | erase =>
      rw [hk] at hown
      cases hown
  · have hneeds := hs.needs ha hopen (htime t) hown
    exact Fits.congr (s := AsynchConnector.complete _ c a') ((hfits.update hneeds entry).complete hown) rfl rfl

theorem Inv.broadcast (hs : s.Inv) (hstep : step s (.broadcast c) = some s')
    (htime : InTime s (.broadcast c) s') : s'.Inv := by
  simp only [step] at hstep
  split at hstep
  case h_2 => cases hstep
  rename_i a ha
  split_ifs at hstep with hrecorded
  obtain rfl := Option.some.inj hstep
  set a' : Attempt H := { a with completing := .signalled }
  refine ⟨hs.owned.mono ?_ rfl (hs.owned.fresh_complete ha), fun t => ?_⟩
  · intro o h ho
    have hcompleted : (s.complete c a').Owns o h := by
      cases o with
      | inl t =>
        change (s.threads t).signal.socket = some h at ho
        rwa [Connecting.socket_signal] at ho
      | inr c' => exact ho
    exact owns_complete ha (by rfl) (fun _ => by simp [hrecorded]) o h hcompleted
  · refine Fits.congr (s := s.complete c a') ?_ rfl rfl
    refine ((hs.fits t).signal (htime t)).advance ha (by simp [hrecorded]) rfl rfl ?_ ?_
    · simp [Attempt.Unsignalled, a']
    · intro n hn
      cases hk : s.threads t <;> simp [hk, Connecting.signal] at hn

theorem Inv.onConnect (hs : s.Inv) (hstep : step s (.onConnect c) = some s') : s'.Inv := by
  simp only [step] at hstep
  split at hstep
  case h_2 => cases hstep
  rename_i a ha
  split_ifs at hstep with hsignalled
  obtain rfl := Option.some.inj hstep
  refine ⟨hs.owned.mono (owns_complete ha rfl fun _ => by simp [hsignalled]) rfl
    (hs.owned.fresh_complete ha), ?_⟩
  exact hs.advance ha (by simp [Attempt.Unsignalled, hsignalled]) (by simp [Attempt.Unsignalled]) rfl rfl

theorem Inv.close (hs : s.Inv) (hstep : step s (.close c) = some s') : s'.Inv := by
  simp only [step] at hstep
  split at hstep
  case h_2 => cases hstep
  rename_i a ha
  split_ifs at hstep with hreturned
  obtain rfl := Option.some.inj hstep
  set a' : Attempt H := { a with completing := .closed }
  have hopen : a.completing ≠ .closed := by simp [hreturned]
  have hself : (s.complete c a').attempts c = some a' := Function.update_self ..
  have howns : s.Owns (.inr c) a.handle := ⟨a, ha, rfl, hopen⟩
  refine ⟨hs.owned.close howns ?_ ?_ rfl (hs.owned.fresh_complete ha), ?_⟩
  · intro o h ho
    have hcompleted : (s.complete c a').Owns o h := owns_congr (fun _ => rfl) rfl o h ho
    exact owns_complete ha (by rfl) (fun _ => hopen) o h hcompleted
  · intro h ho
    obtain ⟨a₁, ha₁, -, hclosed⟩ := ho
    obtain rfl : a' = a₁ := Option.some.inj (hself.symm.trans ha₁)
    exact hclosed rfl
  · intro t
    have hsignalled : ¬ Attempt.Unsignalled a' := by simp [Attempt.Unsignalled, a']
    exact (hs.advance ha (by simp [Attempt.Unsignalled, hreturned]) hsignalled rfl rfl t).congr rfl rfl

theorem Inv.step (hs : s.Inv) {e : Event ι H} (hstep : step s e = some s') (htime : InTime s e s') :
    s'.Inv := by
  cases e with
  | socket t h => exact hs.socket hstep
  | setsockopt t ok => exact hs.setsockopt hstep
  | insert t => exact hs.insert hstep
  | connect t ok => exact hs.connect hstep
  | closesocket t => exact hs.closesocket hstep
  | erase t => exact hs.erase hstep htime
  | wait t => exact hs.wait hstep htime
  | wake t => exact hs.wake hstep htime
  | resume t => exact hs.resume hstep
  | validate c success error => exact hs.validate hstep htime
  | broadcast c => exact hs.broadcast hstep htime
  | onConnect c => exact hs.onConnect hstep
  | close c => exact hs.close hstep

/-- In every run whose steps are in time, every call of `wait ()` returns the result of its own
connect behind its completion, and none sleeps on. -/
theorem waits_of_inTime (es : List (Event ι H)) (h : Always step InTime {} es) :
    Always step (fun _ _ (s' : AsynchConnector ι H) => s'.Waits) {} es := by
  have hstep : ∀ (s : AsynchConnector ι H) e s', s.Inv → step s e = some s' → InTime s e s' →
      s'.Inv ∧ s'.Waits := fun s e s' hs he ht => ⟨hs.step he ht, (hs.step he ht).waits⟩
  exact always_of_step hstep es inv_start h

/-- A connect that fails with code 111, and another one behind it that gets the same handle. -/
theorem waits_two : Always step (fun _ _ (s' : AsynchConnector Bool (Fin 2)) => s'.Waits) {}
    [.socket false 0, .setsockopt false true, .insert false, .connect false true, .wait false,
      .validate 0 false 111, .broadcast 0, .resume false, .onConnect 0, .close 0,
      .socket true 0, .setsockopt true true, .insert true, .connect true true, .wait true,
      .validate 1 true 0, .wake true, .resume true, .broadcast 1, .onConnect 1] :=
  waits_of_inTime _ (by decide)

/-- A connect that has succeeded before the thread comes to wait for it: the thread is not woken. -/
theorem not_waits_late : ¬ ∀ es : List (Event Bool (Fin 2)),
    Always step (fun _ _ (s' : AsynchConnector Bool (Fin 2)) => s'.Waits) {} es := by
  intro hall
  have h := hall [.socket false 0, .setsockopt false true, .insert false, .connect false true,
    .validate 0 true 0, .broadcast 0, .onConnect 0, .wait false]
  revert h
  decide

/-- The completion of another connect ends a wait, with the -1 that the entry was made with. -/
example : ¬ Always step (fun _ _ (s' : AsynchConnector Bool (Fin 2)) => s'.Waits) {}
    [.socket false 0, .setsockopt false true, .insert false, .connect false true, .wait false,
      .socket true 1, .setsockopt true true, .insert true, .connect true true,
      .validate 1 true 0, .broadcast 1, .resume false] := by decide

end AsynchConnector

end ACENetwork.Net
