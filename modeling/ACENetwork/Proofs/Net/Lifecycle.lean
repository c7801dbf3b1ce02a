import Mathlib
import ACENetwork.Library.Transition
import ACENetwork.Spec.Net.Lifecycle

/-! The life cycle of a connection is well ordered in every run in which `handle_close ()` waits for
`open ()`. -/

namespace ACENetwork.Net

open Transition

def Opening.Live (o : Opening) : Prop := o = .notifyConnect ∨ o = .returned true

/-- The connection is not registered with the manager, and will not be after a failure. -/
def Opening.Unregistered : Opening → Prop
  | .setRegistered _ | .setStatus | .notifyConnect | .returned true => False
  | _ => True

def Closing.Late : Closing → Prop
  | .idle | .testStatus | .setStatus => False
  | _ => True

theorem Opening.Unregistered.not_returned {o : Opening} (h : o.Unregistered) : o ≠ .returned true := by
  rintro rfl
  exact h

theorem Opening.Unregistered.not_setRegistered {o : Opening} (h : o.Unregistered) (result : Bool) :
    o ≠ .setRegistered result := by
  rintro rfl
  exact h

theorem Opening.Unregistered.not_live {o : Opening} (h : o.Unregistered) : ¬ (o = .setStatus ∨ o.Live) := by
  rintro (rfl | rfl | rfl) <;> exact h

namespace Lifecycle

variable {s s' : Lifecycle}

/-- What the stream was notified of, for every state. -/
structure Notified (s : Lifecycle) : Prop where
  connected : s.opening = .returned true → s.messages = [.connect] ∨ s.messages = [.connect, .disconnect]
  silent : s.opening ≠ .returned true → s.messages = []
  clear : s.closing = .clearNotify → s.notify = true
  cleared : s.closing = .notifyDisconnect → s.notify = false
  once : s.notify = true ∨ s.closing = .notifyDisconnect → .disconnect ∉ s.messages

/-- Where the connection is registered, for every state. -/
structure Registered (s : Lifecycle) : Prop where
  flag : s.registered = true → s.isRegistered = true ∨ s.opening = .setRegistered true ∨
    s.closing = .deregister
  unregistered : s.opening.Unregistered → s.registered = false ∧ s.isRegistered = false
  setRegistered : ∀ result, s.opening = .setRegistered result →
    s.isRegistered = false ∧ (s.registered = true → result = true)
  clearing : s.closing = .clearRegistered → s.isRegistered = true
  deregistering : s.closing = .deregister → s.opening = .setStatus ∨ s.opening.Live
  done : s.opening.Live → s.closing = .closeHandler false ∨ s.closing = .deregister ∨
    s.closing = .finish ∨ s.closed = true → s.isRegistered = false

/-- What the status says of where the threads are, in a run in time. -/
structure Waiting (s : Lifecycle) : Prop where
  early : ¬ s.opening.Settled → s.closed = false ∧ (s.closing = .idle ∨ s.closing = .testStatus)
  live : s.status = .ok ∨ s.leaving = true → s.opening.Live
  failed : s.opening = .returned false → s.status = .initializationFailed ∧ s.closing ≠ .setStatus ∧
    s.closing ≠ .clearNotify ∧ s.closing ≠ .notifyDisconnect

structure Ordered (s : Lifecycle) : Prop where
  waiting : s.Waiting
  notified : s.Notified
  status : s.closed = true ∨ s.closing.Late → s.status ≠ .ok
  registered : s.Registered

theorem ordered_start (isManaged : Bool) : ({ isManaged := isManaged } : Lifecycle).Ordered := by
  refine ⟨⟨?_, ?_, ?_⟩, ⟨?_, ?_, ?_, ?_, ?_⟩, ?_, ⟨?_, ?_, ?_, ?_, ?_, ?_⟩⟩ <;>
    simp [Closing.Late, Opening.Live]

theorem Ordered.wellOrdered (h : s.Ordered) : s.WellOrdered where
  messages := by
    by_cases hopen : s.opening = .returned true
    · rcases h.notified.connected hopen with hmessages | hmessages <;> simp [hmessages]
    · simp [h.notified.silent hopen]
  status hclosed := h.status (Or.inl hclosed)
  registered ok hopen hclosed hidle := by
    cases ok with
    | true =>
      have hgone := h.registered.done (Or.inr hopen) (Or.inr (Or.inr (Or.inr hclosed)))
      by_contra hregistered
      have hflag := h.registered.flag (by simpa using hregistered)
      simp [hgone, hopen, hidle] at hflag
    | false => exact (h.registered.unregistered (by simp [hopen, Opening.Unregistered])).1

theorem openOn_cases {ok : Bool} (hs : s.openOn ok = some s') :
    (s.opening.Unregistered ∧ ¬ s.opening.Settled ∧ ∃ reactor opening, opening.Unregistered ∧
      ¬ opening.Settled ∧ s' = { s with reactor := reactor, opening := opening }) ∨
    (s.opening = .setFailed ∧
      s' = { s with status := .initializationFailed, opening := .returned false }) ∨
    (s.opening = .register_ ∧
      s' = { s with registered := s.registered || ok, opening := .setRegistered ok }) ∨
    (s.opening = .registerWithReactor ∧ s' = { s with reactor := true, opening := .setStatus }) ∨
    (∃ result, s.opening = .setRegistered result ∧ s' = { s with
      isRegistered := result
      opening := if result then .setStatus else .deregisterFromReactor }) ∨
    (s.opening = .setStatus ∧ s' = { s with status := .ok, opening := .notifyConnect }) ∨
    (s.opening = .notifyConnect ∧
      s' = { s with messages := s.messages ++ [.connect], opening := .returned true }) := by
  unfold Lifecycle.openOn at hs
  cases hopen : s.opening with
  | startStream =>
    simp only [hopen, Option.some.injEq] at hs
    refine Or.inl ⟨trivial, by decide, s.reactor, _, ?_, ?_, hs.symm⟩
    · cases ok <;> trivial
    · cases ok <;> decide
  | registerWithReactor =>
    simp only [hopen] at hs
    cases ok with
    | false =>
      obtain rfl := Option.some.inj hs
      exact Or.inl ⟨trivial, by decide, s.reactor, .stopStream, trivial, by decide, rfl⟩
    | true =>
      simp only [if_true, Option.some.injEq] at hs
      split at hs
      · exact Or.inl ⟨trivial, by decide, true, .register_, trivial, by decide, hs.symm⟩
      · exact Or.inr (Or.inr (Or.inr (Or.inl ⟨rfl, hs.symm⟩)))
  | register_ =>
    simp only [hopen] at hs
    split at hs
    · cases hs
    · obtain rfl := Option.some.inj hs
      exact Or.inr (Or.inr (Or.inl ⟨rfl, rfl⟩))
  | setRegistered result =>
    simp only [hopen, Option.some.injEq] at hs
    exact Or.inr (Or.inr (Or.inr (Or.inr (Or.inl ⟨result, rfl, hs.symm⟩))))
  | setStatus =>
    simp only [hopen, Option.some.injEq] at hs
    exact Or.inr (Or.inr (Or.inr (Or.inr (Or.inr (Or.inl ⟨rfl, hs.symm⟩)))))
  | notifyConnect =>
    simp only [hopen, Option.some.injEq] at hs
    exact Or.inr (Or.inr (Or.inr (Or.inr (Or.inr (Or.inr ⟨rfl, hs.symm⟩)))))
  | deregisterFromReactor =>
    simp only [hopen, Option.some.injEq] at hs
    exact Or.inl ⟨trivial, by decide, false, .stopStream, trivial, by decide, hs.symm⟩
  | stopStream =>
    simp only [hopen, Option.some.injEq] at hs
    exact Or.inl ⟨trivial, by decide, s.reactor, .setFailed, trivial, by decide, hs.symm⟩
  | setFailed =>
    simp only [hopen, Option.some.injEq] at hs
    exact Or.inr (Or.inl ⟨rfl, hs.symm⟩)
  | returned result => simp [hopen] at hs

theorem Notified.move (h : s.Notified) (hmessages : s'.messages = s.messages)
    (hnotify : s'.notify = s.notify) (hclosing : s'.closing = s.closing)
    (ho : s.opening ≠ .returned true) (ho' : s'.opening ≠ .returned true) : s'.Notified where
  connected hopen := absurd hopen ho'
  silent _ := hmessages.trans (h.silent ho)
  clear hclear := hnotify.trans (h.clear (hclosing ▸ hclear))
  cleared hcleared := hnotify.trans (h.cleared (hclosing ▸ hcleared))
  once honce := by
    rw [hmessages]
    rw [hnotify, hclosing] at honce
    exact h.once honce

theorem Notified.openOn (h : s.Notified) {ok : Bool} (hs : s.openOn ok = some s') : s'.Notified := by
  obtain ⟨hu, -, reactor, opening, hu', -, rfl⟩ | ⟨ho, rfl⟩ | ⟨ho, rfl⟩ | ⟨ho, rfl⟩ | ⟨result, ho, rfl⟩ |
    ⟨ho, rfl⟩ | ⟨ho, rfl⟩ := openOn_cases hs
  · exact h.move rfl rfl rfl (Opening.Unregistered.not_returned hu) (Opening.Unregistered.not_returned hu')
  · exact h.move rfl rfl rfl (by simp [ho]) (by simp)
  · exact h.move rfl rfl rfl (by simp [ho]) (by simp)
  · exact h.move rfl rfl rfl (by simp [ho]) (by simp)
  · exact h.move rfl rfl rfl (by simp [ho]) (by cases result <;> simp)
  · exact h.move rfl rfl rfl (by simp [ho]) (by simp)
  · have hnone : s.messages = [] := h.silent (by simp [ho])
    exact ⟨fun _ => Or.inl (by simp [hnone]), fun hn => absurd rfl hn, h.clear, h.cleared, fun _ => by simp [hnone]⟩

theorem Registered.move (h : s.Registered) (hu : s.opening.Unregistered) (hu' : s'.opening.Unregistered)
    (hregistered : s'.registered = s.registered) (hflag : s'.isRegistered = s.isRegistered)
    (hclosing : s'.closing = s.closing) : s'.Registered where
  flag hr := by
    rw [hregistered, (h.unregistered hu).1] at hr
    cases hr
  unregistered _ := by
    rw [hregistered, hflag]
    exact h.unregistered hu
  setRegistered result ho := absurd ho (Opening.Unregistered.not_setRegistered hu' result)
  clearing hc := hflag.trans (h.clearing (hclosing ▸ hc))
  deregistering hc := absurd (h.deregistering (hclosing ▸ hc)) (Opening.Unregistered.not_live hu)
  done hlive := absurd (Or.inr hlive) (Opening.Unregistered.not_live hu')

theorem Registered.openOn (h : s.Registered) (hw : s.Waiting) {ok : Bool} (hs : s.openOn ok = some s') :
    s'.Registered := by
  have hdereg : ¬ (s.opening = .setStatus ∨ s.opening.Live) → s.closing ≠ .deregister :=
    fun hnot hclosing => hnot (h.deregistering hclosing)
  obtain ⟨hu, -, reactor, opening, hu', -, rfl⟩ | ⟨ho, rfl⟩ | ⟨ho, rfl⟩ | ⟨ho, rfl⟩ | ⟨result, ho, rfl⟩ |
    ⟨ho, rfl⟩ | ⟨ho, rfl⟩ := openOn_cases hs
  · exact h.move hu hu' rfl rfl rfl
  · exact h.move (by simp [ho, Opening.Unregistered]) trivial rfl rfl rfl
  · have hnone := h.unregistered (by simp [ho, Opening.Unregistered])
    exact {
      flag := fun hr => Or.inr (Or.inl (by simpa [hnone] using hr))
      unregistered := fun hu' => absurd hu' id
      setRegistered := fun result ho => by
        obtain rfl := Opening.setRegistered.inj ho
        simp [hnone]
      clearing := h.clearing
      deregistering := fun hc => absurd hc (hdereg (by simp [ho, Opening.Live]))
      done := fun hlive => absurd hlive (by simp [Opening.Live]) }
  · have hnone := h.unregistered (by simp [ho, Opening.Unregistered])
    exact {
      flag := fun hr => absurd hr (by simp [hnone])
      unregistered := fun hu' => absurd hu' id
      setRegistered := fun result ho => absurd ho (by simp)
      clearing := h.clearing
      deregistering := fun hc => absurd hc (hdereg (by simp [ho, Opening.Live]))
      done := fun hlive => absurd hlive (by simp [Opening.Live]) }
  · obtain ⟨hclear, hresult⟩ := h.setRegistered result ho
    have hnot : s.closing ≠ .deregister := hdereg (by simp [ho, Opening.Live])
    have hclearing : s.closing ≠ .clearRegistered := by
      intro hc
      exact absurd (h.clearing hc) (by simp [hclear])
    exact {
      flag := fun hr => Or.inl (hresult hr)
      unregistered := fun hu' => by
        cases result with
        | true => exact absurd hu' id
        | false => exact ⟨by simpa using hresult, rfl⟩
      setRegistered := fun r hr => by cases result <;> simp at hr
      clearing := fun hc => absurd hc hclearing
      deregistering := fun hc => absurd hc hnot
      done := fun hlive => by cases result <;> simp [Opening.Live] at hlive }
  · obtain ⟨hclosed, hclosing⟩ := hw.early (by simp [ho, Opening.Settled, Opening.Returned])
    exact {
      flag := fun hr => by simpa [ho] using h.flag hr
      unregistered := fun hu' => absurd hu' id
      setRegistered := fun r hr => absurd hr (by simp)
      clearing := h.clearing
      deregistering := fun _ => Or.inr (Or.inl rfl)
      done := fun _ hdone => by
        rcases hclosing with hc | hc <;> simp [hc, hclosed] at hdone }
  · exact {
      flag := fun hr => by simpa [ho] using h.flag hr
      unregistered := fun hu' => absurd hu' id
      setRegistered := fun r hr => absurd hr (by simp)
      clearing := h.clearing
      deregistering := fun _ => Or.inr (Or.inr rfl)
      done := fun _ hdone => h.done (Or.inl ho) hdone }

theorem Waiting.move (h : s.Waiting) (hearly : ¬ s.opening.Settled) (hearly' : ¬ s'.opening.Settled)
    (hstatus : s'.status = s.status) (hleaving : s'.leaving = s.leaving) (hclosing : s'.closing = s.closing)
    (hclosed : s'.closed = s.closed) : s'.Waiting where
  early _ := by
    rw [hclosed, hclosing]
    exact h.early hearly
  live hlive := by
    rw [hstatus, hleaving] at hlive
    exact absurd ((h.live hlive).imp_right Or.inl) hearly
  failed hf := absurd (Or.inr (Or.inr hf)) hearly'

theorem Waiting.openOn (h : s.Waiting) {ok : Bool} (hs : s.openOn ok = some s') : s'.Waiting := by
  have hnot : ∀ {o : Opening}, s.opening = o → ¬ o.Settled → ¬ s.opening.Settled := fun ho hearly => ho ▸ hearly
  obtain ⟨-, hearly, reactor, opening, -, hearly', rfl⟩ | ⟨ho, rfl⟩ | ⟨ho, rfl⟩ | ⟨ho, rfl⟩ | ⟨result, ho, rfl⟩ |
    ⟨ho, rfl⟩ | ⟨ho, rfl⟩ := openOn_cases hs
  · exact h.move hearly hearly' rfl rfl rfl rfl
  · have hearly : ¬ s.opening.Settled := hnot ho (by decide)
    refine ⟨fun hn => absurd (Or.inr (Or.inr rfl)) hn, fun hlive => ?_, fun _ => ⟨rfl, ?_⟩⟩
    · have hleaving : s.leaving = true := hlive.resolve_left (by simp)
      exact absurd ((h.live (Or.inr hleaving)).imp_right Or.inl) hearly
    · rcases (h.early hearly).2 with hc | hc <;> simp [hc]
  · exact h.move (hnot ho (by decide)) (by simp [Opening.Settled, Opening.Returned]) rfl rfl rfl rfl
  · exact h.move (hnot ho (by decide)) (by simp [Opening.Settled, Opening.Returned]) rfl rfl rfl rfl
  · refine h.move (hnot ho (by cases result <;> decide)) ?_ rfl rfl rfl rfl
    cases result <;> simp [Opening.Settled, Opening.Returned]
  · exact ⟨fun hn => absurd (Or.inl rfl) hn, fun _ => Or.inl rfl, fun hf => absurd hf (by simp)⟩
  · exact ⟨fun hn => absurd (Or.inr (Or.inl rfl)) hn, fun _ => Or.inr rfl, fun hf => absurd hf (by simp)⟩

theorem Ordered.openOn (h : s.Ordered) {ok : Bool} (hs : s.openOn ok = some s') : s'.Ordered := by
  refine ⟨h.waiting.openOn hs, h.notified.openOn hs, ?_, h.registered.openOn h.waiting hs⟩
  obtain ⟨-, -, reactor, opening, -, -, rfl⟩ | ⟨-, rfl⟩ | ⟨-, rfl⟩ | ⟨-, rfl⟩ | ⟨result, -, rfl⟩ | ⟨ho, rfl⟩ |
    ⟨-, rfl⟩ := openOn_cases hs
  · exact h.status
  · simp
  · exact h.status
  · exact h.status
  · exact h.status
  · obtain ⟨hclosed, hclosing⟩ := h.waiting.early (by simp [ho, Opening.Settled, Opening.Returned])
    intro hlate
    rcases hclosing with hc | hc <;> simp [hc, hclosed, Closing.Late] at hlate
  · exact h.status

theorem Waiting.handleCloseOn (h : s.Waiting) (hin : InTime s .handleCloseOn s')
    (hs : s.handleCloseOn = some s') : s'.Waiting := by
  obtain ⟨hsettled, -⟩ := hin
  have hopening : s'.opening = s.opening ∧ s'.leaving = s.leaving := by
    unfold Lifecycle.handleCloseOn at hs
    cases hc : s.closing with
    | idle => simp [hc] at hs
    | _ =>
      simp only [hc, Option.some.injEq] at hs
      subst hs
      exact ⟨rfl, rfl⟩
  refine ⟨fun hn => absurd (hopening.1 ▸ hsettled) hn, fun hlive => ?_, fun hf => ?_⟩
  · rw [hopening.1]
    rw [hopening.2] at hlive
    refine h.live (hlive.imp_left fun hok => ?_)
    unfold Lifecycle.handleCloseOn at hs
    cases hc : s.closing with
    | idle => simp [hc] at hs
    | setStatus =>
      simp only [hc, Option.some.injEq] at hs
      subst hs
      cases hok
    | _ =>
      simp only [hc, Option.some.injEq] at hs
      subst hs
      exact hok
  · -- the status says that `open ()` has failed, and `handle_close ()` goes by it
    rw [hopening.1] at hf
    obtain ⟨hstatus, hset, hclear, hnotify⟩ := h.failed hf
    unfold Lifecycle.handleCloseOn at hs
    cases hc : s.closing with
    | idle => simp [hc] at hs
    | setStatus => exact absurd hc hset
    | clearNotify => exact absurd hc hclear
    | notifyDisconnect => exact absurd hc hnotify
    | closeHandler deregister =>
      simp only [hc, Option.some.injEq] at hs
      subst hs
      cases deregister <;> simp [hstatus]
    | testRegistered =>
      simp only [hc, Option.some.injEq] at hs
      subst hs
      cases hflag : s.isRegistered <;> simp [hstatus]
    | testStatus | testNotify | stopStream | readRegistered | clearRegistered | deregister | finish =>
      simp only [hc, Option.some.injEq] at hs
      subst hs
      simp [hstatus]

theorem Notified.goOn (h : s.Notified) (hmessages : s'.messages = s.messages)
    (hnotify : s'.notify = s.notify) (hopening : s'.opening = s.opening)
    (hc : s'.closing ≠ .clearNotify) (hc' : s'.closing ≠ .notifyDisconnect) : s'.Notified where
  connected hopen := hmessages ▸ h.connected (hopening ▸ hopen)
  silent hopen := hmessages.trans (h.silent (hopening ▸ hopen))
  clear hclear := absurd hclear hc
  cleared hcleared := absurd hcleared hc'
  once honce := hmessages ▸ h.once (Or.inl (hnotify ▸ honce.resolve_right hc'))

theorem Notified.handleCloseOn (h : s.Notified) (hw : s.Waiting) (hin : InTime s .handleCloseOn s')
    (hs : s.handleCloseOn = some s') : s'.Notified := by
  unfold Lifecycle.handleCloseOn at hs
  cases hc : s.closing with
  | idle => simp [hc] at hs
  | testNotify =>
    simp only [hc, Option.some.injEq] at hs
    subst hs
    by_cases hgo : s.notify = true ∧ s.status ≠ .initializationFailed
    · simp only [if_pos hgo]
      exact ⟨h.connected, h.silent, fun _ => hgo.1, fun hn => absurd hn (by simp), fun _ => h.once (Or.inl hgo.1)⟩
    · simp only [if_neg hgo]
      exact h.goOn rfl rfl rfl (by simp) (by simp)
  | clearNotify =>
    simp only [hc, Option.some.injEq] at hs
    subst hs
    have hnone := h.once (Or.inl (h.clear hc))
    exact ⟨h.connected, h.silent, fun hn => absurd hn (by simp), fun _ => rfl, fun _ => hnone⟩
  | notifyDisconnect =>
    simp only [hc, Option.some.injEq] at hs
    subst hs
    have hopen : s.opening = .returned true :=
      (hin.2 hc).resolve_right fun hf => (hw.failed hf).2.2.2 hc
    have hnone := h.once (Or.inr hc)
    have hmessages : s.messages = [.connect] := by
      rcases h.connected hopen with hm | hm
      · exact hm
      · exact absurd hnone (by simp [hm])
    refine ⟨fun _ => Or.inr (by simp [hmessages]), fun hn => absurd hopen hn, fun hn => absurd hn (by simp),
      fun hn => absurd hn (by simp), fun hn => ?_⟩
    simp [h.cleared hc] at hn
  | testStatus | setStatus | stopStream | readRegistered | closeHandler | testRegistered | clearRegistered |
      deregister | finish =>
    simp only [hc, Option.some.injEq] at hs
    subst hs
    refine h.goOn rfl rfl rfl ?_ ?_
    all_goals simp only
    all_goals try split_ifs
    all_goals simp

theorem Registered.goOn (h : s.Registered) (hregistered : s'.registered = s.registered)
    (hflag : s'.isRegistered = s.isRegistered) (hopening : s'.opening = s.opening)
    (hc : s.closing ≠ .deregister) (hclearing : s'.closing = .clearRegistered → s.isRegistered = true)
    (hdereg : s'.closing ≠ .deregister)
    (hdone : s.opening.Live → s'.closing = .closeHandler false ∨ s'.closing = .finish ∨ s'.closed = true →
      s.isRegistered = false) : s'.Registered where
  flag hr := by
    rw [hflag, hopening]
    rcases h.flag (hregistered ▸ hr) with hf | hf | hf
    · exact Or.inl hf
    · exact Or.inr (Or.inl hf)
    · exact absurd hf hc
  unregistered hu := by
    rw [hregistered, hflag]
    exact h.unregistered (hopening ▸ hu)
  setRegistered result ho := by
    rw [hregistered, hflag]
    exact h.setRegistered result (hopening ▸ ho)
  clearing hclear := hflag.trans (hclearing hclear)
  deregistering hd := absurd hd hdereg
  done hlive hd := by
    rw [hflag]
    rcases hd with hd | hd | hd | hd
    · exact hdone (hopening ▸ hlive) (Or.inl hd)
    · exact absurd hd hdereg
    · exact hdone (hopening ▸ hlive) (Or.inr (Or.inl hd))
    · exact hdone (hopening ▸ hlive) (Or.inr (Or.inr hd))

theorem Registered.opening_of_flag (h : s.Registered) (hflag : s.isRegistered = true) :
    s.opening = .setStatus ∨ s.opening.Live := by
  cases ho : s.opening with
  | setStatus => exact Or.inl rfl
  | notifyConnect => exact Or.inr (Or.inl rfl)
  | setRegistered result =>
    have hnone := (h.setRegistered result ho).1
    simp [hflag] at hnone
  | returned ok =>
    cases ok with
    | true => exact Or.inr (Or.inr rfl)
    | false =>
      have hnone := (h.unregistered (by simp [ho, Opening.Unregistered])).2
      simp [hflag] at hnone
  | startStream | registerWithReactor | register_ | deregisterFromReactor | stopStream | setFailed =>
    have hnone := (h.unregistered (by simp [ho, Opening.Unregistered])).2
    simp [hflag] at hnone

theorem Registered.handleCloseOn (h : s.Registered) (hs : s.handleCloseOn = some s') :
    s'.Registered := by
  have hclosed : s.opening.Live → s.closed = true → s.isRegistered = false :=
    fun hlive hd => h.done hlive (Or.inr (Or.inr (Or.inr hd)))
  unfold Lifecycle.handleCloseOn at hs
  cases hc : s.closing with
  | idle => simp [hc] at hs
  | testStatus | setStatus | testNotify | clearNotify | notifyDisconnect | stopStream =>
    simp only [hc, Option.some.injEq] at hs
    subst hs
    refine h.goOn rfl rfl rfl (by simp [hc]) ?_ ?_ ?_
    all_goals simp only
    all_goals try split_ifs
    all_goals simp
    all_goals exact hclosed
  | readRegistered =>
    simp only [hc, Option.some.injEq] at hs
    subst hs
    refine h.goOn rfl rfl rfl (by simp [hc]) (by simp) (by simp) fun hlive hd => ?_
    rcases hd with hd | hd | hd
    · exact Closing.closeHandler.inj hd
    · cases hd
    · exact hclosed hlive hd
  | closeHandler deregister =>
    simp only [hc, Option.some.injEq] at hs
    subst hs
    cases deregister with
    | true => exact h.goOn rfl rfl rfl (by simp [hc]) (by simp) (by simp) (by simpa using hclosed)
    | false =>
      exact h.goOn rfl rfl rfl (by simp [hc]) (by simp) (by simp) fun hlive _ => h.done hlive (Or.inl hc)
  | testRegistered =>
    simp only [hc, Option.some.injEq] at hs
    subst hs
    cases hflag : s.isRegistered with
    | true =>
      exact h.goOn rfl hflag.symm rfl (by simp [hc]) (fun _ => hflag) (by simp) (by simpa using hclosed)
    | false => exact h.goOn rfl hflag.symm rfl (by simp [hc]) (by simp) (by simp) fun _ _ => hflag
  | clearRegistered =>
    simp only [hc, Option.some.injEq] at hs
    subst hs
    have hopening := h.opening_of_flag (h.clearing hc)
    exact {
      flag := fun _ => Or.inr (Or.inr rfl)
      unregistered := fun hu => absurd hopening (Opening.Unregistered.not_live hu)
      setRegistered := fun result ho => by
        rcases hopening with hn | hn | hn <;> exact absurd (hn.symm.trans ho) (by simp)
      clearing := fun hn => absurd hn (by simp)
      deregistering := fun _ => hopening
      done := fun _ _ => rfl }
  | deregister =>
    simp only [hc, Option.some.injEq] at hs
    subst hs
    exact {
      flag := fun hr => absurd hr (by simp)
      unregistered := fun hu => ⟨rfl, (h.unregistered hu).2⟩
      setRegistered := fun result ho => ⟨(h.setRegistered result ho).1, fun hr => absurd hr (by simp)⟩
      clearing := fun hn => absurd hn (by simp)
      deregistering := fun hn => absurd hn (by simp)
      done := fun hlive _ => h.done hlive (Or.inr (Or.inl hc)) }
  | finish =>
    simp only [hc, Option.some.injEq] at hs
    subst hs
    exact h.goOn rfl rfl rfl (by simp [hc]) (by simp) (by simp)
      fun hlive _ => h.done hlive (Or.inr (Or.inr (Or.inl hc)))

theorem Ordered.handleCloseOn (h : s.Ordered) (hin : InTime s .handleCloseOn s')
    (hs : s.handleCloseOn = some s') : s'.Ordered := by
  refine ⟨h.waiting.handleCloseOn hin hs, h.notified.handleCloseOn h.waiting hin hs, ?_,
    h.registered.handleCloseOn hs⟩
  have hstatus := h.status
  unfold Lifecycle.handleCloseOn at hs
  cases hc : s.closing with
  | idle => simp [hc] at hs
  | testStatus =>
    simp only [hc, Option.some.injEq] at hs
    subst hs
    by_cases hset : s.status ≠ .initializationFailed ∧ s.status ≠ .closed
    · simp only [if_pos hset]
      exact fun hlate => hstatus (hlate.imp_right fun hn => absurd hn (by simp [Closing.Late]))
    · intro _ hok
      simp [show s.status = .ok from hok] at hset
  | setStatus =>
    simp only [hc, Option.some.injEq] at hs
    subst hs
    simp
  | finish =>
    simp only [hc, Option.some.injEq] at hs
    subst hs
    exact fun _ => hstatus (Or.inr (by simp [hc, Closing.Late]))
  | testNotify | clearNotify | notifyDisconnect | stopStream | readRegistered | closeHandler |
      testRegistered | clearRegistered | deregister =>
    simp only [hc, Option.some.injEq] at hs
    subst hs
    exact fun _ => hstatus (Or.inr (by simp [hc, Closing.Late]))

theorem Ordered.dispatch (h : s.Ordered) (hs : step s .dispatch = some s') : s'.Ordered := by
  simp only [Lifecycle.step] at hs
  split at hs
  · rename_i hidle
    obtain rfl := Option.some.inj hs
    refine ⟨⟨fun hn => ⟨(h.waiting.early hn).1, Or.inr rfl⟩, h.waiting.live,
      fun hf => ⟨(h.waiting.failed hf).1, by simp⟩⟩, h.notified.goOn rfl rfl rfl (by simp) (by simp), ?_, ?_⟩
    · exact fun hlate => h.status (hlate.imp_right fun hn => absurd hn (by simp [Closing.Late]))
    · refine h.registered.goOn rfl rfl rfl (by simp [hidle.2]) (by simp) (by simp) fun hlive hd => ?_
      simp only [reduceCtorEq, false_or] at hd
      exact h.registered.done hlive (Or.inr (Or.inr (Or.inr hd)))
  · cases hs

theorem Ordered.step {e : Event} (h : s.Ordered) (hin : InTime s e s')
    (hs : Lifecycle.step s e = some s') : s'.Ordered := by
  cases e with
  | openOn ok => exact h.openOn hs
  | dispatch => exact h.dispatch hs
  | handleCloseOn => exact h.handleCloseOn hin hs
  | close =>
    simp only [Lifecycle.step] at hs
    split at hs
    · cases hs
    · obtain rfl := Option.some.inj hs
      refine ⟨⟨h.waiting.early, fun hlive => h.waiting.live (Or.inl ?_), h.waiting.failed⟩,
        ⟨h.notified.connected, h.notified.silent, h.notified.clear, h.notified.cleared, h.notified.once⟩,
        h.status, ⟨h.registered.flag, h.registered.unregistered, h.registered.setRegistered,
        h.registered.clearing, h.registered.deregistering, h.registered.done⟩⟩
      simpa using hlive
  | closeOn =>
    simp only [Lifecycle.step] at hs
    split at hs
    · rename_i hleaving
      obtain rfl := Option.some.inj hs
      have hlive : s.opening.Live := h.waiting.live (Or.inr hleaving)
      refine ⟨⟨h.waiting.early, fun _ => hlive, fun hf => ?_⟩,
        ⟨h.notified.connected, h.notified.silent, h.notified.clear, h.notified.cleared, h.notified.once⟩,
        fun _ => by simp, ⟨h.registered.flag, h.registered.unregistered, h.registered.setRegistered,
        h.registered.clearing, h.registered.deregistering, h.registered.done⟩⟩
      rcases hlive with hl | hl <;> exact absurd (hl.symm.trans hf) (by simp)
    · cases hs

theorem wellOrdered_of_inTime (isManaged : Bool) (es : List Event)
    (hin : Always step InTime { isManaged := isManaged } es) :
    Always step (fun _ _ s' => s'.WellOrdered) { isManaged := isManaged } es := by
  have hstep (s : Lifecycle) (e : Event) (s' : Lifecycle) (h : s.Ordered) (hs : step s e = some s')
      (hin : InTime s e s') : s'.Ordered ∧ s'.WellOrdered := by
    have h' := h.step hin hs
    exact ⟨h', h'.wellOrdered⟩
  exact always_of_step hstep es (ordered_start isManaged) hin

/-- The reactor calls `handle_close ()` while `open ()` is about to register the connection. It goes on
when that has succeeded and `close ()` was called; or when the manager has refused. -/
theorem wellOrdered_close :
    Always step (fun _ _ s' => s'.WellOrdered) { isManaged := true }
        (List.replicate 2 (.openOn true) ++ [.dispatch] ++ List.replicate 4 (.openOn true) ++
          [.close, .closeOn] ++ List.replicate 11 .handleCloseOn) ∧
      Always step (fun _ _ s' => s'.WellOrdered) { isManaged := true }
        (List.replicate 2 (.openOn true) ++ [.dispatch] ++ List.replicate 5 (.openOn false) ++
          List.replicate 6 .handleCloseOn) :=
  ⟨wellOrdered_of_inTime true _ (by decide), wellOrdered_of_inTime true _ (by decide)⟩

/-- The peer closes as soon as the connection is registered with the reactor: `handle_close ()`
runs before `open ()` goes on. -/
theorem not_wellOrdered_peer :
    ∃ s, exec step { isManaged := true } ([.openOn true, .openOn true, .dispatch] ++
        List.replicate 9 .handleCloseOn ++ List.replicate 4 (.openOn true)) = some s ∧
      s.messages = [.disconnect, .connect] ∧ s.closed = true ∧ s.status = .ok ∧
      s.opening = .returned true ∧ s.closing = .idle ∧ s.registered = true ∧ ¬ s.WellOrdered := by
  refine ⟨_, rfl, rfl, rfl, rfl, rfl, rfl, rfl, fun h => ?_⟩
  exact h.status rfl rfl

end Lifecycle

end ACENetwork.Net
