import Mathlib
import ACENetwork.Library.Transition
import ACENetwork.Spec.Net.Lifetime

/-! The reference count of an asynchronous connection comes to 0 once and at the right time in every
run in which the read operation does not end before `open ()` has. -/

namespace ACENetwork.Net

open Transition

namespace Lifetime

variable {s s' : Lifetime} {l : Leaving}

/-- The two flags of the registration while `handle_close ()` is under way. -/
def LeavingFlags (s : Lifetime) : Leaving → Prop
  | .setStatus | .testRegistered => s.registered = s.isRegistered
  | .clearRegistered => s.registered = true ∧ s.isRegistered = true
  | .deregister => s.registered = true ∧ s.isRegistered = false
  | .decrease => s.registered = false ∧ s.isRegistered = false

def OpeningFlags (s : Lifetime) : AsynchOpening → Prop
  | .openHandler => s.registered = false ∧ s.isRegistered = false
  | .register_ => s.isManaged = true ∧ s.registered = false ∧ s.isRegistered = false
  | .setRegistered result => s.isManaged = true ∧ s.registered = result ∧ s.isRegistered = false
  | .startStream | .setOk | .notifyConnect | .startRead | .duplicate | .createResult =>
    s.registered = s.isManaged ∧ s.isRegistered = s.isManaged
  | .setFailed => s.registered = s.isRegistered
  | .testRegistered => s.status = .initializationFailed ∧ s.registered = s.isRegistered
  | .clearRegistered => s.status = .initializationFailed ∧ s.registered = true ∧ s.isRegistered = true
  | .deregister => s.status = .initializationFailed ∧ s.registered = true ∧ s.isRegistered = false
  | .testStatus =>
    (s.status = .initializationFailed ∧ s.registered = false ∧ s.isRegistered = false) ∨
      (s.registered = s.isManaged ∧ s.isRegistered = s.isManaged)
  | .faked => False
  | .assertCount => s.registered = true
  | .leave l => s.LeavingFlags l
  | .returned true => True
  | .returned false => s.registered = false

/-- The flags at each place of the read operation. -/
def ReadingFlags (s : Lifetime) : Reading → Prop
  | .none => True
  | .pending | .handling _ | .rearm => s.registered = s.isRegistered
  | .leave l => s.LeavingFlags l
  | .ended => s.registered = false

/-- `open ()` is at its end, and the read operation is under way. -/
def Reads (s : Lifetime) : Prop := s.opening = .assertCount ∨ s.opening = .returned true

/-- The references that are not the manager's. -/
def owed (s : Lifetime) : ℕ := if s.reading = .ended ∨ s.opening = .returned false then 0 else 1

structure Counted (s : Lifetime) : Prop where
  opening : s.OpeningFlags s.opening
  reading : s.ReadingFlags s.reading
  started : s.reading ≠ .none ↔ s.Reads
  ended : s.reading = .ended → s.opening = .returned true
  decrease : s.reading = .leave .decrease → s.opening = .returned true
  count : s.count = s.owed + s.registered.toNat
  freed : s.freed = if s.count = 0 then 1 else 0
  misused : s.misused = false
  failed : s.failed = false

theorem counted_start (isManaged : Bool) (length : ℕ) :
    ({ isManaged := isManaged, length := length } : Lifetime).Counted := by
  constructor <;> simp [OpeningFlags, ReadingFlags, Reads, owed]

/-- `open ()` before it starts to read, or without that. -/
structure Opens (s : Lifetime) : Prop where
  opening : s.OpeningFlags s.opening
  reading : s.reading = .none
  reads : ¬ s.Reads
  count : s.count = s.owed + s.registered.toNat
  freed : s.freed = if s.count = 0 then 1 else 0
  misused : s.misused = false
  failed : s.failed = false

theorem Opens.counted (h : s.Opens) : s.Counted where
  opening := h.opening
  reading := by
    rw [h.reading]
    trivial
  started := iff_of_false (fun hn => hn h.reading) h.reads
  ended hended := absurd (h.reading.symm.trans hended) (by simp)
  decrease hdecrease := absurd (h.reading.symm.trans hdecrease) (by simp)
  count := h.count
  freed := h.freed
  misused := h.misused
  failed := h.failed

theorem Counted.opens (h : s.Counted) (hreads : ¬ s.Reads) : s.Opens where
  opening := h.opening
  reading := by
    by_contra hn
    exact hreads (h.started.1 hn)
  reads := hreads
  count := h.count
  freed := h.freed
  misused := h.misused
  failed := h.failed

theorem Opens.move (h : s.Opens) (ho : s.opening ≠ .returned false) {status : Status} {flag : Bool}
    {o : AsynchOpening}
    (hflags : ({ s with status := status, isRegistered := flag, opening := o } : Lifetime).OpeningFlags o)
    (hreads : o ≠ .assertCount ∧ o ≠ .returned true ∧ o ≠ .returned false) :
    ({ s with status := status, isRegistered := flag, opening := o } : Lifetime).Opens where
  opening := hflags
  reading := h.reading
  reads := by
    rintro (hn | hn)
    · exact hreads.1 hn
    · exact hreads.2.1 hn
  count := by
    rw [h.count, owed, owed]
    simp [h.reading, ho, hreads.2.2]
  freed := h.freed
  misused := h.misused
  failed := h.failed

theorem step_openOn (hmisused : s.misused = false) (hfreed : s.freed = 0) (ok : Bool) :
    step s (.openOn ok) = s.openOn ok := by
  rw [step, hmisused, hfreed]
  cases s
  simp_all

theorem Opens.count_eq (h : s.Opens) (ho : s.opening ≠ .returned false) :
    s.count = 1 + s.registered.toNat := by
  rw [h.count, owed, if_neg]
  simp [h.reading, ho]

theorem Opens.freed_eq (h : s.Opens) (ho : s.opening ≠ .returned false) : s.freed = 0 := by
  rw [h.freed, if_neg]
  have hcount := h.count_eq ho
  omega

theorem Opens.deregister (h : s.Opens) (ho : s.opening ≠ .returned false) (hregistered : s.registered = true)
    {o : AsynchOpening}
    (hflags : ({ s with registered := false, opening := o } : Lifetime).OpeningFlags o)
    (hreads : o ≠ .assertCount ∧ o ≠ .returned true ∧ o ≠ .returned false) :
    ({ { s with registered := false }.decrease with opening := o } : Lifetime).Opens := by
  have hcount := h.count_eq ho
  have hfreed := h.freed_eq ho
  rw [hregistered] at hcount
  refine ⟨hflags, h.reading, ?_, ?_, ?_, h.misused, h.failed⟩
  · rintro (hn | hn)
    · exact hreads.1 hn
    · exact hreads.2.1 hn
  · simp [Lifetime.decrease, hcount, owed, h.reading, hreads.2.2]
  · simp [Lifetime.decrease, hcount, hfreed]

theorem Opens.leave (h : s.Opens) (ho : s.opening = .leave l) {ok : Bool}
    (hs : s.openOn ok = some s') : s'.Opens := by
  have hno : s.opening ≠ .returned false := by simp [ho]
  have hflags : s.LeavingFlags l := by simpa [OpeningFlags, ho] using h.opening
  simp only [Lifetime.openOn, ho] at hs
  cases l with
  | setStatus =>
    obtain rfl := Option.some.inj hs
    split_ifs
    · exact h.move hno hflags (by simp)
    · exact h.move hno hflags (by simp)
  | testRegistered =>
    obtain rfl := Option.some.inj hs
    have hsame : s.registered = s.isRegistered := hflags
    cases hflag : s.isRegistered with
    | true => exact h.move hno (o := .leave .clearRegistered) ⟨hsame.trans hflag, rfl⟩ (by simp)
    | false => exact h.move hno (o := .leave .decrease) ⟨hsame.trans hflag, rfl⟩ (by simp)
  | clearRegistered =>
    obtain rfl := Option.some.inj hs
    exact h.move hno (o := .leave .deregister) ⟨hflags.1, rfl⟩ (by simp)
  | deregister =>
    simp only [leaveOn, hflags.1, if_true, Option.some.injEq] at hs
    subst hs
    exact h.deregister hno hflags.1 ⟨rfl, hflags.2⟩ (by simp)
  | decrease =>
    obtain rfl := Option.some.inj hs
    have hcount := h.count_eq hno
    have hfreed := h.freed_eq hno
    rw [hflags.1] at hcount
    refine ⟨hflags.1, h.reading, by simp [Reads], ?_, ?_, h.misused, h.failed⟩
    · simp [Lifetime.decrease, hcount, owed, hflags.1]
    · simp [Lifetime.decrease, hcount, hfreed]

section

variable {ok : Bool}

theorem Opens.openHandler (h : s.Opens) (ho : s.opening = .openHandler) (hs : s.openOn ok = some s') :
    s'.Opens := by
  have hno : s.opening ≠ .returned false := by simp [ho]
  have hflags := h.opening
  rw [ho] at hflags
  simp only [Lifetime.openOn, ho, Option.some.injEq] at hs
  subst hs
  by_cases hmanaged : s.isManaged = true
  · rw [if_pos hmanaged]
    exact h.move hno (o := .register_) ⟨hmanaged, hflags⟩ (by simp)
  · rw [if_neg hmanaged]
    rw [Bool.not_eq_true] at hmanaged
    exact h.move hno (o := .startStream) (by simpa [OpeningFlags, hmanaged] using hflags) (by simp)

theorem Opens.register_ (h : s.Opens) (ho : s.opening = .register_) (hs : s.openOn ok = some s') :
    s'.Opens := by
  have hno : s.opening ≠ .returned false := by simp [ho]
  have hflags := h.opening
  rw [ho] at hflags
  obtain ⟨hmanaged, hregistered, hflag⟩ := hflags
  have hcount := h.count_eq hno
  have hfreed := h.freed_eq hno
  simp only [Lifetime.openOn, ho, hflag, hregistered, Bool.false_eq_true, if_false, Bool.false_or,
    Option.some.injEq] at hs
  subst hs
  rw [hregistered] at hcount
  refine ⟨⟨hmanaged, rfl, rfl⟩, h.reading, by simp [Reads], ?_, ?_, h.misused, h.failed⟩
  · cases ok <;> simp [hcount, owed, h.reading]
  · simp [hcount, hfreed]

theorem Opens.setRegistered {result : Bool} (h : s.Opens) (ho : s.opening = .setRegistered result)
    (hs : s.openOn ok = some s') : s'.Opens := by
  have hno : s.opening ≠ .returned false := by simp [ho]
  have hflags := h.opening
  rw [ho] at hflags
  obtain ⟨hmanaged, hregistered, -⟩ := hflags
  simp only [Lifetime.openOn, ho, Option.some.injEq] at hs
  subst hs
  cases result with
  | true => exact h.move hno (o := .startStream) ⟨hregistered.trans hmanaged.symm, hmanaged.symm⟩ (by simp)
  | false => exact h.move hno (o := .setFailed) hregistered (by simp)

theorem Opens.startStream (h : s.Opens) (ho : s.opening = .startStream) (hs : s.openOn ok = some s') :
    s'.Opens := by
  have hno : s.opening ≠ .returned false := by simp [ho]
  have hflags := h.opening
  rw [ho] at hflags
  simp only [Lifetime.openOn, ho, Option.some.injEq] at hs
  subst hs
  cases ok with
  | true => exact h.move hno (o := .setOk) hflags (by simp)
  | false => exact h.move hno (o := .setFailed) (hflags.1.trans hflags.2.symm) (by simp)

theorem Opens.setOk (h : s.Opens) (ho : s.opening = .setOk) (hs : s.openOn ok = some s') : s'.Opens := by
  have hflags := h.opening
  rw [ho] at hflags
  simp only [Lifetime.openOn, ho, Option.some.injEq] at hs
  subst hs
  exact h.move (by simp [ho]) (o := .notifyConnect) hflags (by simp)

theorem Opens.notifyConnect (h : s.Opens) (ho : s.opening = .notifyConnect)
    (hs : s.openOn ok = some s') : s'.Opens := by
  have hflags := h.opening
  rw [ho] at hflags
  simp only [Lifetime.openOn, ho, Option.some.injEq] at hs
  subst hs
  exact h.move (by simp [ho]) (o := .testStatus) (Or.inr hflags) (by simp)

theorem Opens.setFailed (h : s.Opens) (ho : s.opening = .setFailed) (hs : s.openOn ok = some s') :
    s'.Opens := by
  have hflags := h.opening
  rw [ho] at hflags
  simp only [Lifetime.openOn, ho, Option.some.injEq] at hs
  subst hs
  exact h.move (by simp [ho]) (o := .testRegistered) ⟨rfl, hflags⟩ (by simp)

theorem Opens.testRegistered (h : s.Opens) (ho : s.opening = .testRegistered)
    (hs : s.openOn ok = some s') : s'.Opens := by
  have hno : s.opening ≠ .returned false := by simp [ho]
  have hflags := h.opening
  rw [ho] at hflags
  obtain ⟨hstatus, hsame⟩ := hflags
  simp only [Lifetime.openOn, ho, Option.some.injEq] at hs
  subst hs
  cases hflag : s.isRegistered with
  | true => exact h.move hno (o := .clearRegistered) ⟨hstatus, hsame.trans hflag, rfl⟩ (by simp)
  | false => exact h.move hno (o := .testStatus) (Or.inl ⟨hstatus, hsame.trans hflag, rfl⟩) (by simp)

theorem Opens.clearRegistered (h : s.Opens) (ho : s.opening = .clearRegistered)
    (hs : s.openOn ok = some s') : s'.Opens := by
  have hflags := h.opening
  rw [ho] at hflags
  simp only [Lifetime.openOn, ho, Option.some.injEq] at hs
  subst hs
  exact h.move (by simp [ho]) (o := .deregister) ⟨hflags.1, hflags.2.1, rfl⟩ (by simp)

theorem Opens.deregisters (h : s.Opens) (ho : s.opening = .deregister) (hs : s.openOn ok = some s') :
    s'.Opens := by
  have hflags := h.opening
  rw [ho] at hflags
  obtain ⟨hstatus, hregistered, hflag⟩ := hflags
  simp only [Lifetime.openOn, ho, hregistered, if_true, Option.some.injEq] at hs
  subst hs
  exact h.deregister (by simp [ho]) hregistered (Or.inl ⟨hstatus, rfl, hflag⟩) (by simp)

/-- Behind the base class: the flags are equal where it failed, and where it did not. -/
theorem Opens.testStatus (h : s.Opens) (ho : s.opening = .testStatus) (hs : s.openOn ok = some s') :
    s'.Opens := by
  have hno : s.opening ≠ .returned false := by simp [ho]
  have hflags := h.opening
  rw [ho] at hflags
  simp only [Lifetime.openOn, ho, Option.some.injEq] at hs
  subst hs
  by_cases hstatus : s.status ≠ .ok
  · rw [if_pos hstatus]
    have hsame : s.registered = s.isRegistered := by
      rcases hflags with hf | hf
      · exact hf.2.1.trans hf.2.2.symm
      · exact hf.1.trans hf.2.symm
    exact h.move hno (o := .leave .setStatus) hsame (by simp)
  · rw [if_neg hstatus]
    have hmanaged : s.registered = s.isManaged ∧ s.isRegistered = s.isManaged := by
      refine hflags.resolve_left fun hf => hstatus ?_
      simp [hf.1]
    split_ifs
    · exact h.move hno (o := .startRead) hmanaged (by simp)
    · exact h.move hno (o := .duplicate) hmanaged (by simp)

theorem Opens.duplicate (h : s.Opens) (ho : s.opening = .duplicate) (hs : s.openOn ok = some s') :
    s'.Opens := by
  have hno : s.opening ≠ .returned false := by simp [ho]
  have hflags := h.opening
  rw [ho] at hflags
  simp only [Lifetime.openOn, ho, Option.some.injEq] at hs
  subst hs
  cases ok with
  | true => exact h.move hno (o := .createResult) hflags (by simp)
  | false => exact h.move hno (o := .leave .setStatus) (hflags.1.trans hflags.2.symm) (by simp)

theorem Opens.unread (h : s.Opens) (ho : s.opening = .startRead ∨ s.opening = .createResult)
    (hs : s.openOn false = some s') : s'.Opens := by
  have hflags := h.opening
  rcases ho with ho | ho
  · rw [ho] at hflags
    simp only [Lifetime.openOn, ho, Bool.false_eq_true, if_false, Option.some.injEq] at hs
    subst hs
    exact h.move (by simp [ho]) (o := .leave .setStatus) (hflags.1.trans hflags.2.symm) (by simp)
  · rw [ho] at hflags
    simp only [Lifetime.openOn, ho, Bool.false_eq_true, if_false, Option.some.injEq] at hs
    subst hs
    exact h.move (by simp [ho]) (o := .leave .setStatus) (hflags.1.trans hflags.2.symm) (by simp)

/-- The steps of `open ()` up to the end of the base class, and those behind it that do not read. -/
theorem Opens.openOn (h : s.Opens) (hread : s.opening = .startRead → ok = false)
    (hresult : s.opening = .createResult → ok = false) (hs : s.openOn ok = some s') : s'.Opens := by
  cases ho : s.opening with
  | openHandler => exact h.openHandler ho hs
  | register_ => exact h.register_ ho hs
  | setRegistered result => exact h.setRegistered ho hs
  | startStream => exact h.startStream ho hs
  | setOk => exact h.setOk ho hs
  | notifyConnect => exact h.notifyConnect ho hs
  | setFailed => exact h.setFailed ho hs
  | testRegistered => exact h.testRegistered ho hs
  | clearRegistered => exact h.clearRegistered ho hs
  | deregister => exact h.deregisters ho hs
  | testStatus => exact h.testStatus ho hs
  | startRead =>
    obtain rfl : ok = false := hread ho
    exact h.unread (Or.inl ho) hs
  | duplicate => exact h.duplicate ho hs
  | createResult =>
    obtain rfl : ok = false := hresult ho
    exact h.unread (Or.inr ho) hs
  | leave l => exact h.leave ho hs
  | faked =>
    have hflags := h.opening
    rw [ho] at hflags
    exact absurd hflags id
  | assertCount => exact absurd (Or.inl ho) h.reads
  | returned result => simp [Lifetime.openOn, ho] at hs

end

theorem Reads.openingFlags (h : s.Reads) (hregistered : s.opening = .assertCount → s.registered = true) :
    s.OpeningFlags s.opening := by
  rcases h with ho | ho
  · rw [ho]
    exact hregistered ho
  · rw [ho]
    trivial

theorem Counted.registered_of_assertCount (h : s.Counted) (ho : s.opening = .assertCount) :
    s.registered = true := by
  have hflags := h.opening
  rwa [ho] at hflags

theorem Counted.count_eq (h : s.Counted) (hreads : s.Reads) (hended : s.reading ≠ .ended) :
    s.count = 1 + s.registered.toNat := by
  rw [h.count, owed, if_neg]
  rintro (hn | hn)
  · exact hended hn
  · rcases hreads with ho | ho <;> simp [ho] at hn

theorem Counted.freed_eq (h : s.Counted) (hreads : s.Reads) (hended : s.reading ≠ .ended) : s.freed = 0 := by
  rw [h.freed, if_neg]
  have hcount := h.count_eq hreads hended
  omega

theorem Counted.goOn (h : s.Counted) (hreads : s.Reads) (hended : s.reading ≠ .ended) {status : Status}
    {flag : Bool} {p : Reading}
    (hflags : ({ s with status := status, isRegistered := flag, reading := p } : Lifetime).ReadingFlags p)
    (hreading : p ≠ .none ∧ p ≠ .ended)
    (hdecrease : p = .leave .decrease → s.opening = .returned true) :
    ({ s with status := status, isRegistered := flag, reading := p } : Lifetime).Counted where
  opening := Reads.openingFlags (s := { s with status := status, isRegistered := flag, reading := p })
    hreads h.registered_of_assertCount
  reading := hflags
  started := iff_of_true hreading.1 hreads
  ended hn := absurd hn hreading.2
  decrease := hdecrease
  count := by
    have hno : s.opening ≠ .returned false := by
      rcases hreads with ho | ho <;> simp [ho]
    rw [h.count, owed, owed]
    simp [hended, hno, hreading.2]
  freed := h.freed
  misused := h.misused
  failed := h.failed

theorem Counted.leave (h : s.Counted) (hr : s.reading = .leave l) {ok : Bool}
    (hin : l = .deregister → s.opening = .returned true) (hs : s.readOn ok = some s') : s'.Counted := by
  have hreads : s.Reads := h.started.1 (by simp [hr])
  have hended : s.reading ≠ .ended := by simp [hr]
  have hflags : s.LeavingFlags l := by simpa [ReadingFlags, hr] using h.reading
  simp only [readOn, hr] at hs
  cases l with
  | setStatus =>
    obtain rfl := Option.some.inj hs
    split_ifs
    · exact h.goOn hreads hended hflags (by simp) (by simp)
    · exact h.goOn hreads hended hflags (by simp) (by simp)
  | testRegistered =>
    obtain rfl := Option.some.inj hs
    have hsame : s.registered = s.isRegistered := hflags
    cases hflag : s.isRegistered with
    | true =>
      exact h.goOn hreads hended (p := .leave .clearRegistered) ⟨hsame.trans hflag, rfl⟩ (by simp) (by simp)
    | false =>
      refine h.goOn hreads hended (p := .leave .decrease) ⟨hsame.trans hflag, rfl⟩ (by simp) fun _ => ?_
      refine hreads.resolve_left fun ho => ?_
      have hregistered := h.registered_of_assertCount ho
      simp [hsame, hflag] at hregistered
  | clearRegistered =>
    obtain rfl := Option.some.inj hs
    exact h.goOn hreads hended (p := .leave .deregister) ⟨hflags.1, rfl⟩ (by simp) (by simp)
  | deregister =>
    simp only [leaveOn, hflags.1, if_true, Option.some.injEq] at hs
    subst hs
    have ho := hin rfl
    have hcount := h.count_eq hreads hended
    have hfreed := h.freed_eq hreads hended
    rw [hflags.1] at hcount
    refine ⟨?_, ⟨rfl, hflags.2⟩, iff_of_true (by simp) (Or.inr ho), by simp, fun _ => ho, ?_, ?_, h.misused, h.failed⟩
    · exact Reads.openingFlags (Or.inr ho) fun hn => absurd (ho.symm.trans hn) (by simp)
    · simp [Lifetime.decrease, hcount, owed, ho]
    · simp [Lifetime.decrease, hcount, hfreed]
  | decrease =>
    obtain rfl := Option.some.inj hs
    have ho := h.decrease hr
    have hcount := h.count_eq hreads hended
    have hfreed := h.freed_eq hreads hended
    rw [hflags.1] at hcount
    refine ⟨?_, hflags.1, iff_of_true (by simp) (Or.inr ho), fun _ => ho, by simp, ?_, ?_, h.misused, h.failed⟩
    · exact Reads.openingFlags (Or.inr ho) fun hn => absurd (ho.symm.trans hn) (by simp)
    · simp [Lifetime.decrease, hcount, owed, hflags.1]
    · simp [Lifetime.decrease, hcount, hfreed]

theorem Counted.readOn (h : s.Counted) {ok : Bool} (hin : InTime s (.readOn ok) s')
    (hs : s.readOn ok = some s') : s'.Counted := by
  have hreading := h.reading
  cases hr : s.reading with
  | none => simp [Lifetime.readOn, hr] at hs
  | pending => simp [Lifetime.readOn, hr] at hs
  | ended => simp [Lifetime.readOn, hr] at hs
  | leave l =>
    refine h.leave hr (fun hl => hin ?_) hs
    rw [hr, hl]
  | handling r =>
    have hreads : s.Reads := h.started.1 (by simp [hr])
    rw [hr] at hreading
    cases r with
    | data n =>
      simp only [Lifetime.readOn, hr, Option.some.injEq] at hs
      subst hs
      split_ifs
      · exact h.goOn hreads (by simp [hr]) (p := .leave .setStatus) hreading (by simp) (by simp)
      · exact h.goOn hreads (by simp [hr]) (p := .rearm) hreading (by simp) (by simp)
    | closed =>
      simp only [Lifetime.readOn, hr, Option.some.injEq] at hs
      subst hs
      exact h.goOn hreads (by simp [hr]) (p := .leave .setStatus) hreading (by simp) (by simp)
    | failed errno =>
      simp only [Lifetime.readOn, hr, Option.some.injEq] at hs
      subst hs
      exact h.goOn hreads (by simp [hr]) (p := .leave .setStatus) hreading (by simp) (by simp)
  | rearm =>
    have hreads : s.Reads := h.started.1 (by simp [hr])
    rw [hr] at hreading
    simp only [Lifetime.readOn, hr, Option.some.injEq] at hs
    subst hs
    cases ok with
    | true => exact h.goOn hreads (by simp [hr]) (p := .pending) hreading (by simp) (by simp)
    | false => exact h.goOn hreads (by simp [hr]) (p := .leave .setStatus) hreading (by simp) (by simp)

theorem Counted.openOn (h : s.Counted) {ok : Bool} (hin : InTime s (.openOn ok) s')
    (hs : step s (.openOn ok) = some s') : s'.Counted := by
  obtain ⟨hmanaged, hresult⟩ := hin
  by_cases hreads : s.Reads
  · rcases hreads with ho | ho
    · have hreads : s.Reads := Or.inl ho
      have hended : s.reading ≠ .ended := by
        intro hended
        simp [h.ended hended] at ho
      have hregistered := h.registered_of_assertCount ho
      have hcount := h.count_eq hreads hended
      rw [step_openOn h.misused (h.freed_eq hreads hended)] at hs
      simp only [Lifetime.openOn, ho, Option.some.injEq] at hs
      subst hs
      rw [hregistered] at hcount
      refine ⟨trivial, h.reading, iff_of_true (h.started.2 hreads) (Or.inr rfl), fun _ => rfl, fun _ => rfl, ?_,
        h.freed, h.misused, ?_⟩
      · simp [owed, hcount, hended, hregistered]
      · simp [h.failed, hcount]
    · simp [step, Lifetime.openOn, ho] at hs
  · have hopens := h.opens hreads
    by_cases hno : s.opening = .returned false
    · simp [step, Lifetime.openOn, hno] at hs
    · rw [step_openOn h.misused (hopens.freed_eq hno)] at hs
      by_cases hstart : s.opening = .startRead ∧ ok = true
      · obtain ⟨ho, rfl⟩ := hstart
        have hflags := h.opening
        rw [ho] at hflags
        have hcount := hopens.count_eq hno
        have hregistered : s.registered = true := hflags.1.trans (hmanaged ho rfl)
        simp only [Lifetime.openOn, ho, if_true, Option.some.injEq] at hs
        subst hs
        refine ⟨hregistered, hflags.1.trans hflags.2.symm, iff_of_true (by simp) (Or.inl rfl), by simp, by simp, ?_,
          h.freed, h.misused, h.failed⟩
        simp [owed, hcount]
      · refine (hopens.openOn (fun ho => ?_) hresult hs).counted
        simpa [ho] using hstart

theorem openingFlags_leave {o : AsynchOpening} (h : s.OpeningFlags o) :
    ({ s with status := s.status.leave .closed } : Lifetime).OpeningFlags o := by
  have hstatus : s.status = .initializationFailed → s.status.leave .closed = .initializationFailed := by
    intro hfailed
    rw [hfailed]
    rfl
  cases o with
  | testRegistered => exact h.imp_left hstatus
  | clearRegistered => exact h.imp_left hstatus
  | deregister => exact h.imp_left hstatus
  | testStatus => exact h.imp_left fun hf => hf.imp_left hstatus
  | returned ok => cases ok <;> exact h
  | leave l => cases l <;> exact h
  | _ => exact h

theorem Counted.step {e : Event} (h : s.Counted) (hin : InTime s e s')
    (hs : Lifetime.step s e = some s') : s'.Counted := by
  cases e with
  | openOn ok => exact h.openOn hin hs
  | readOn ok => exact h.readOn hin hs
  | complete r =>
    have hreading := h.reading
    cases hr : s.reading with
    | pending =>
      rw [hr] at hreading
      simp only [Lifetime.step, hr, Option.some.injEq] at hs
      subst hs
      have hreads : s.Reads := h.started.1 (by simp [hr])
      exact h.goOn hreads (by simp [hr]) (p := .handling r) hreading (by simp) (by simp)
    | _ => simp [Lifetime.step, hr] at hs
  | close =>
    simp only [Lifetime.step] at hs
    split at hs
    · obtain rfl := Option.some.inj hs
      refine ⟨openingFlags_leave h.opening, ?_, h.started, h.ended, h.decrease, h.count, h.freed, h.misused, h.failed⟩
      have hreading := h.reading
      cases hr : s.reading with
      | leave l =>
        rw [hr] at hreading
        cases l <;> exact hreading
      | _ =>
        rw [hr] at hreading
        exact hreading
    · cases hs

theorem Counted.released (h : s.Counted) : s.Released where
  finished hfinished := by
    obtain ⟨⟨ok, ho⟩, hreading, hregistered⟩ := hfinished
    have howed : s.owed = 0 := by
      rw [owed, if_pos]
      cases ok with
      | false => exact Or.inr ho
      | true => exact Or.inl (hreading.resolve_left (h.started.2 (Or.inr ho)))
    rw [h.freed, if_pos]
    rw [h.count, howed, hregistered]
    rfl
  unfinished hnot := by
    rw [h.freed, if_neg]
    intro hcount
    rw [h.count, owed] at hcount
    split_ifs at hcount with hgone
    · have hregistered : s.registered = false := by simpa using hcount
      refine hnot ?_
      rcases hgone with hended | ho
      · exact ⟨⟨true, h.ended hended⟩, Or.inr hended, hregistered⟩
      · refine ⟨⟨false, ho⟩, Or.inl ?_, hregistered⟩
        by_contra hn
        rcases h.started.1 hn with hr | hr <;> simp [ho] at hr
    · omega
  misused := h.misused
  failed := h.failed

theorem released_of_inTime (isManaged : Bool) (length : ℕ) (es : List Event)
    (hin : Always step InTime { isManaged := isManaged, length := length } es) :
    Always step (fun _ _ s' => s'.Released) { isManaged := isManaged, length := length } es := by
  have hstep (s : Lifetime) (e : Event) (s' : Lifetime) (h : s.Counted) (hs : step s e = some s')
      (hin : InTime s e s') : s'.Counted ∧ s'.Released := by
    have h' := h.step hin hs
    exact ⟨h', h'.released⟩
  exact always_of_step hstep es (counted_start isManaged length) hin

/-- `open ()` to the end, some data, and the end of the stream. -/
theorem released_managed :
    Always step (fun _ _ s' => s'.Released) { isManaged := true, length := 0 }
      (List.replicate 9 (.openOn true) ++ [.complete (.data 4), .readOn true, .readOn true, .complete .closed] ++
        List.replicate 6 (.readOn true)) :=
  released_of_inTime true 0 _ (by decide)

/-- The peer closes before `open ()` has come to its assertion; and with initial data the faked
result does the same. -/
theorem not_released_managed :
    (∃ s, exec step { isManaged := true, length := 0 }
        (List.replicate 8 (.openOn true) ++ [.complete .closed] ++ List.replicate 6 (.readOn true) ++
          [.openOn true]) = some s ∧ s.freed = 1 ∧ s.misused = true ∧ s.failed = true ∧ ¬ s.Released) ∧
      ∃ s, exec step { isManaged := true, length := 4 }
        (List.replicate 9 (.openOn true) ++ List.replicate 6 (.readOn true) ++ List.replicate 2 (.openOn true)) =
          some s ∧ s.freed = 1 ∧ s.misused = true ∧ s.failed = true ∧ ¬ s.Released := by
  refine ⟨⟨_, rfl, rfl, rfl, rfl, fun h => ?_⟩, ⟨_, rfl, rfl, rfl, rfl, fun h => ?_⟩⟩
  · exact absurd h.misused (by decide)
  · exact absurd h.misused (by decide)

end Lifetime

end ACENetwork.Net
