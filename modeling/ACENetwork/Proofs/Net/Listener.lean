import Mathlib
import ACENetwork.Spec.Net.Listener

/-! A listener is open and suspended when it does not listen, so it can always be started again, at
the address of its configuration. -/

namespace ACENetwork.Net.Listener

open Transition

variable {s s' : Listener}

/-- What holds between two calls. A socket is bound to what was configured unless that has
changed since. -/
structure Kept (s : Listener) : Prop where
  configured : s.isInitialized = s.configuration.isSome
  socket : s.isOpen = s.socket.isSome
  listening : s.isListening = true → ∃ k, s.socket = some k ∧ k.suspended = false
  idle : s.isListening = false → ∀ k, s.socket = some k → k.suspended = true ∧ s.isSuspended = true
  bound : s.hasChanged = false → ∀ k, s.socket = some k →
    ∃ c, s.configuration = some c ∧ (k.port, k.address) = Service.bound c

theorem kept_initial : Kept {} where
  configured := rfl
  socket := rfl
  listening := by simp
  idle := by simp
  bound := by simp

theorem bound_setLoopback {c : ListenerConfiguration} (h : c.useLoopBackDevice = true) :
    Service.bound c.setLoopback = Service.bound c := by
  simp [Service.bound, ListenerConfiguration.setLoopback, h]

theorem Kept.running (h : s.Kept) : s.isListening = true ↔ s.service.serving.isSome = true := by
  cases hl : s.isListening with
  | true =>
    obtain ⟨k, hk, hsuspended⟩ := h.listening hl
    simp [service, hk, AcceptorSocket.accepts, hsuspended]
  | false =>
    cases hk : s.socket with
    | none => simp [service, hk]
    | some k => simp [service, hk, AcceptorSocket.accepts, (h.idle hl k hk).1]

theorem Kept.serving_none (h : s.Kept) (hl : s.isListening = false) : s.service.serving = none := by
  have hrunning := h.running
  rw [hl] at hrunning
  cases hs : s.service.serving with
  | none => rfl
  | some a =>
    rw [hs] at hrunning
    exact absurd (hrunning.2 rfl) (by decide)

theorem kept_initialize (h : s.Kept) (c : ListenerConfiguration) : (s.initialize_ c).Kept where
  configured := rfl
  socket := h.socket
  listening := h.listening
  idle := h.idle
  bound := by simp [initialize_]

theorem stop_cases (h : s.Kept) (suspend : Bool) :
    (s.stop suspend = some s ∧ (s.isListening = false ∨ suspend = false)) ∨
    (s.isListening = true ∧ ∃ k, s.socket = some k ∧ s.stop suspend = some { s with
      socket := some { k with suspended := true }, isSuspended := true, isListening := false }) := by
  cases hl : s.isListening with
  | false => exact .inl ⟨by simp [stop, hl], .inl rfl⟩
  | true =>
    obtain ⟨k, hk, -⟩ := h.listening hl
    have hopen : s.isOpen = true := by rw [h.socket, hk]; rfl
    cases suspend with
    | false => exact .inl ⟨by simp [stop, hl, hopen], .inr rfl⟩
    | true => exact .inr ⟨rfl, k, hk, by simp [stop, hl, hopen, hk]⟩

structure Changed (s s' : Listener) : Prop where
  kept : s'.Kept
  idle : s'.isListening = false
  unchanged : s'.hasChanged = false
  configuration : s'.configuration = s.configuration

theorem change_spec (h : s.Kept) (hl : s.isListening = false) (close : Bool) :
    Changed s (s.change close).2 ∧
      ((s.change close).1 = false → close = false) ∧
      ((s.change close).2.unclosed = s.unclosed ∨ close = false) := by
  obtain ⟨hconfigured, hsocket, -, hidle, hbound⟩ := h
  cases hc : s.hasChanged with
  | false =>
    have hchange : s.change close = (true, s) := by simp [change, hc]
    rw [hchange]
    exact ⟨⟨⟨hconfigured, hsocket, by simp [hl], hidle, hbound⟩, hl, hc, rfl⟩, by simp, .inl rfl⟩
  | true =>
    cases hs : s.socket with
    | none =>
      have hopen : s.isOpen = false := by rw [hsocket, hs]; rfl
      have hchange : s.change close = (true, { s with hasChanged := false }) := by
        simp [change, hc, hopen]
      rw [hchange]
      exact ⟨⟨⟨hconfigured, hsocket, by simp [hl], by simp [hs], by simp [hs]⟩, hl, rfl, rfl⟩,
        by simp, .inl rfl⟩
    | some k =>
      have hopen : s.isOpen = true := by rw [hsocket, hs]; rfl
      cases close with
      | true =>
        have hchange : s.change true =
            (true, { s with hasChanged := false, socket := none, isOpen := false }) := by
          simp [change, hc, hopen]
        rw [hchange]
        exact ⟨⟨⟨hconfigured, rfl, by simp [hl], by simp, by simp⟩, hl, rfl, rfl⟩, by simp, .inl rfl⟩
      | false =>
        have hchange : s.change false = (false, { s with
            hasChanged := false
            unclosed := s.unclosed ++ [k]
            socket := none
            isOpen := false
            isListening := false }) := by
          simp [change, hc, hopen, hs]
        rw [hchange]
        exact ⟨⟨⟨hconfigured, rfl, by simp, by simp, by simp⟩, rfl, rfl, rfl⟩, by simp, .inr rfl⟩

/-- What a call of `start ()` comes to when the listener does not listen: it listens at what is
configured, or one of its calls has failed. -/
structure Started (s : Listener) (ok : Bool) (s' : Listener) : Prop where
  kept : s'.Kept
  configured : s'.service.configured = s.service.configured
  serving : s'.service.serving = s.service.configured ∨ ok = false ∧ s'.service.serving = none
  unclosed : s'.unclosed = s.unclosed

theorem resume_spec (h : s.Kept) (hl : s.isListening = false) (hc : s.hasChanged = false)
    (ho : s.isOpen = true) (resumed : Bool) :
    ∃ s', s.resume resumed = some s' ∧ Started s resumed s' := by
  obtain ⟨k, hk⟩ : ∃ k, s.socket = some k := by
    rw [h.socket] at ho
    exact Option.isSome_iff_exists.1 ho
  obtain ⟨-, hsuspended⟩ := h.idle hl k hk
  obtain ⟨c, hconfiguration, hbound⟩ := h.bound hc k hk
  cases resumed with
  | false => exact ⟨s, by simp [resume, hsuspended], h, rfl, .inr ⟨rfl, h.serving_none hl⟩, rfl⟩
  | true =>
    refine ⟨{ s with socket := some { k with suspended := false }, isSuspended := false, isListening := true },
      by simp [resume, hsuspended, hk], ?_, rfl, .inl ?_, rfl⟩
    · refine ⟨h.configured, ?_, ?_, by simp, ?_⟩
      · rw [h.socket, hk]
        rfl
      · exact fun _ => ⟨_, rfl, rfl⟩
      · rintro - k' ⟨⟩
        exact ⟨c, hconfiguration, hbound⟩
    · simp only [service, hconfiguration, Option.map_some, ← hbound]
      rfl

theorem open_spec (h : s.Kept) (hl : s.isListening = false) (hi : s.isInitialized = true)
    (ho : s.isOpen = false) (set opened : Bool) :
    ∃ s', s.openAcceptor set opened = some s' ∧ Started s (set && opened) s' := by
  have hs : s.socket = none := by
    rw [h.socket] at ho
    exact Option.isSome_eq_false_iff.1 ho |> Option.isNone_iff_eq_none.1
  obtain ⟨c, hc⟩ : ∃ c, s.configuration = some c := by
    rw [h.configured] at hi
    exact Option.isSome_iff_exists.1 hi
  obtain ⟨c', hc', hbound⟩ : ∃ c', (if c.useLoopBackDevice then c.setLoopback else c) = c' ∧
      (c'.port, c'.address) = Service.bound c ∧ Service.bound c' = Service.bound c := by
    cases hloop : c.useLoopBackDevice with
    | false => exact ⟨c, by simp, by simp [Service.bound, hloop], rfl⟩
    | true =>
      exact ⟨c.setLoopback, by simp, by simp [Service.bound, hloop, ListenerConfiguration.setLoopback],
        bound_setLoopback hloop⟩
  by_cases hset : (c.useLoopBackDevice && !set) = true
  · refine ⟨s, by simp only [openAcceptor, hc, hset, if_true], h, rfl, .inr ⟨?_, h.serving_none hl⟩, rfl⟩
    rw [Bool.and_eq_true, Bool.not_eq_true'] at hset
    simp [hset.2]
  have hconfigured : ({ s with configuration := some c' } : Listener).service.configured =
      s.service.configured := by
    simp [service, hc, hbound.2]
  cases opened with
  | false =>
    refine ⟨{ s with configuration := some c' }, by simp [openAcceptor, hc, hset, hc'], ?_, hconfigured,
      .inr ⟨by simp, by simp [service, hs]⟩, rfl⟩
    exact ⟨by rw [h.configured, hc]; rfl, h.socket, by simp [hl], by simp [hs], by simp [hs]⟩
  | true =>
    refine ⟨{ s with
        configuration := some c'
        socket := some ⟨c'.port, c'.address, false⟩
        isOpen := true
        isListening := true },
      by simp [openAcceptor, hc, hset, hc'], ?_, hconfigured, .inl ?_, rfl⟩
    · refine ⟨by rw [h.configured, hc]; rfl, rfl, fun _ => ⟨_, rfl, rfl⟩, by simp, ?_⟩
      rintro - k ⟨⟩
      exact ⟨c', rfl, hbound.1.trans hbound.2.symm⟩
    · simp only [service, hc, Option.map_some, ← hbound.1]
      rfl

theorem start_spec (h : s.Kept) (r : StartResults) :
    ∃ s', s.start r = some s' ∧ s'.Kept ∧ s'.service.configured = s.service.configured ∧
      (s'.service.serving = s.service.start.serving ∨ r ≠ {} ∧ s'.service.serving = s.service.serving) ∧
      (s'.unclosed = s.unclosed ∨ r.close = false) := by
  cases hi : s.isInitialized with
  | false =>
    have hnone : s.configuration = none := by
      have hc := h.configured
      rw [hi] at hc
      exact Option.isNone_iff_eq_none.1 (Option.isSome_eq_false_iff.1 hc.symm)
    have hconfigured : s.service.configured = none := by simp [service, hnone]
    refine ⟨s, by simp [start, hi], h, rfl, .inl ?_, .inl rfl⟩
    cases hserving : s.service.serving with
    | some a => simp [Service.start, hserving]
    | none => simp [Service.start, hserving, hconfigured]
  | true =>
    cases hl : s.isListening with
    | true =>
      refine ⟨s, by simp [start, hi, hl], h, rfl, .inl ?_, .inl rfl⟩
      rw [Service.start, if_pos (h.running.1 hl)]
    | false =>
      have hnone := h.serving_none hl
      have hstart : s.service.start.serving = s.service.configured := by
        simp [Service.start, hnone]
      obtain ⟨hchanged, hgoes, hunclosed⟩ := change_spec h hl r.close
      obtain ⟨hkept, hidle, hunchanged, hconfiguration⟩ := hchanged
      have hconfigured : (s.change r.close).2.service.configured = s.service.configured := by
        simp [service, hconfiguration]
      rcases hchange : s.change r.close with ⟨_ | _, s₁⟩
      · rw [hchange] at hkept hidle hconfigured hgoes hunclosed
        refine ⟨s₁, by simp [start, hi, hl, hchange], hkept, hconfigured, .inr ⟨?_, ?_⟩, hunclosed⟩
        · rintro rfl
          exact absurd (hgoes rfl) (by decide)
        · rw [hkept.serving_none hidle, hnone]
      · rw [hchange] at hkept hidle hconfigured hunchanged hconfiguration hunclosed
        have hi₁ : s₁.isInitialized = true := by
          rw [hkept.configured, hconfiguration, ← h.configured, hi]
        obtain ⟨ok, s', hs', hstarted, hok⟩ : ∃ ok s', s.start r = some s' ∧ Started s₁ ok s' ∧
            (ok = false → r ≠ {}) := by
          cases ho : s₁.isOpen with
          | true =>
            obtain ⟨s', hs', hstarted⟩ := resume_spec hkept hidle hunchanged ho r.resume
            refine ⟨_, s', by simp [start, hi, hl, hchange, ho, hs'], hstarted, ?_⟩
            rintro hfalse rfl
            exact absurd hfalse (by decide)
          | false =>
            obtain ⟨s', hs', hstarted⟩ := open_spec hkept hidle hi₁ ho r.set r.open_
            refine ⟨_, s', by simp [start, hi, hl, hchange, ho, hs'], hstarted, ?_⟩
            rintro hfalse rfl
            exact absurd hfalse (by decide)
        refine ⟨s', hs', hstarted.kept, hstarted.configured.trans hconfigured, ?_, ?_⟩
        · rw [hstart, ← hconfigured, hnone]
          exact hstarted.serving.imp_right fun hfailed => ⟨hok hfailed.1, hfailed.2⟩
        · rw [hstarted.unclosed]
          exact hunclosed

theorem service_ext {t t' : Service} (hc : t.configured = t'.configured) (hs : t.serving = t'.serving) :
    t = t' := by
  cases t
  cases t'
  simp_all

theorem step_spec (h : s.Kept) (e : Event) : ∃ s', step s e = some s' ∧ s'.Kept ∧ Agrees s e s' := by
  cases e with
  | initialize_ c =>
    have hkept := kept_initialize h c
    exact ⟨_, rfl, hkept, rfl, hkept.running, .inl rfl⟩
  | start r =>
    obtain ⟨s', hs', hkept, hconfigured, hserving, hunclosed⟩ := start_spec h r
    refine ⟨s', hs', hkept, ?_, hkept.running, hunclosed.imp_right fun hclose => ⟨r, rfl, hclose⟩⟩
    have hsame : s.service.start.configured = s.service.configured := by
      rw [Service.start]
      split_ifs <;> rfl
    exact hserving.imp (fun hs => service_ext (hconfigured.trans hsame.symm) hs)
      fun hs => ⟨hs.1, service_ext hconfigured hs.2⟩
  | stop suspend =>
    rcases stop_cases h suspend with ⟨hstop, hreason⟩ | ⟨hl, k, hk, hstop⟩
    · refine ⟨s, hstop, h, ?_, h.running, .inl rfl⟩
      rcases hreason with hl | hsuspend
      · exact .inl (service_ext rfl (h.serving_none hl))
      · exact .inr ⟨hsuspend, rfl⟩
    · have hkept : ({ s with
          socket := some { k with suspended := true }, isSuspended := true, isListening := false } :
          Listener).Kept := by
        refine ⟨h.configured, by rw [h.socket, hk]; rfl, by simp, ?_, ?_⟩
        · rintro - k' ⟨⟩
          exact ⟨rfl, rfl⟩
        · rintro hc k' ⟨⟩
          exact h.bound hc k hk
      exact ⟨_, hstop, hkept, .inl rfl, hkept.running, .inl rfl⟩

/-- Every sequence of calls, with every outcome of theirs, is one of the service. -/
theorem listener_serves (es : List Event) : Serves es := by
  have hsteps : ∀ s, s.Kept → (∃ s', exec step s es = some s') ∧ Always step Agrees s es := by
    intro s hs
    induction es generalizing s with
    | nil => exact ⟨⟨s, rfl⟩, trivial⟩
    | cons e es ih =>
      obtain ⟨s₁, hs₁, hkept, hagrees⟩ := step_spec hs e
      obtain ⟨⟨s', hs'⟩, hrest⟩ := ih s₁ hkept
      exact ⟨⟨s', exec_cons_eq_some.2 ⟨s₁, hs₁, hs'⟩⟩, (always_cons_some hs₁).2 ⟨hagrees, hrest⟩⟩
  exact hsteps {} kept_initial

/-- A listener that was stopped and has a new configuration is started at the new address. -/
example : (exec step {} [.initialize_ ⟨80, 1, false⟩, .start {}, .stop true,
    .initialize_ ⟨81, 1, true⟩, .start {}]).map service =
      some ⟨some (81, inaddrLoopback), some (81, inaddrLoopback)⟩ := by decide

end ACENetwork.Net.Listener
