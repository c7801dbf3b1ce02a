import Mathlib
import ACENetwork.Library.Transition
import ACENetwork.Spec.BitTorrent.Session
import ACENetwork.Proofs.BitTorrent.Control

/-! What a session knows about its links. Its connection set is the set of open links on
every run. The peer table and the tracker identifier agree with the links as long as no
tracker connection is numbered 0, which stands for having none. The cancellation is
reported whenever the last link goes, so a second time when a link is opened after that. -/

namespace ACENetwork.BitTorrent

open Std Transition

@[simp] theorem Session.cancelIfEmpty_state (s : Session) : s.cancelIfEmpty.state = s.state := by
  unfold Session.cancelIfEmpty
  split_ifs <;> rfl

@[simp] theorem Session.cancelIfEmpty_metaInfoFileName (s : Session) :
    s.cancelIfEmpty.metaInfoFileName = s.metaInfoFileName := by
  unfold Session.cancelIfEmpty
  split_ifs <;> rfl

@[simp] theorem Session.cancelIfEmpty_notified (s : Session) :
    s.cancelIfEmpty.notified = s.notified ++
      if s.state.connections = ∅ ∧ s.state.controller = true
      then [(s.metaInfoFileName, .cancelled)] else [] := by
  unfold Session.cancelIfEmpty
  split_ifs <;> simp

theorem Session.connect_eq_some {s s' : Session} {id : ConnectionId} :
    s.connect id = some s' ↔ id ∉ s.state.connections ∧
      s' = { s with state := { s.state with
        connections := insert id s.state.connections
        peerStatus := s.state.peerStatus.insertIfNew id {} } } := by
  by_cases h : id ∈ s.state.connections <;> simp [Session.connect, SessionState.connect, h, eq_comm]

theorem Session.trackerConnect_eq_some {s s' : Session} {id : ConnectionId} :
    s.trackerConnect id = some s' ↔
      s.state.trackerConnectionId = 0 ∧ id ∉ s.state.connections ∧
      s' = { s with state := { s.state with
        connections := insert id s.state.connections
        trackerConnectionId := id } } := by
  by_cases h : s.state.trackerConnectionId = 0 <;> by_cases h' : id ∈ s.state.connections <;>
    simp [Session.trackerConnect, SessionState.connect, h, h', eq_comm]

theorem Session.trackerDisconnect_eq_some {s s' : Session} {id : ConnectionId} :
    s.trackerDisconnect id = some s' ↔ s.state.trackerConnectionId = id ∧
      s' = cancelIfEmpty { s with state := { s.state with
        connections := s.state.connections.erase id
        trackerConnectionId := 0 } } := by
  by_cases h : s.state.trackerConnectionId = id <;>
    simp [Session.trackerDisconnect, SessionState.disconnect, h, eq_comm]

theorem Links.mem_open {l : Links} {id : ConnectionId} :
    id ∈ l.open ↔ id ∈ l.peers ∨ id ∈ l.trackers := Finset.mem_union

theorem Links.step_disjoint {l l' : Links} {e : LinkEvent} (h : Disjoint l.peers l.trackers)
    (hstep : l.step e = some l') : Disjoint l'.peers l'.trackers := by
  cases e with
  | connect id =>
    simp only [Links.step, Links.mem_open] at hstep
    split_ifs at hstep with hid
    obtain rfl := Option.some.inj hstep
    exact Finset.disjoint_insert_left.2 ⟨fun ht => hid (Or.inr ht), h⟩
  | disconnect id =>
    simp only [Links.step] at hstep
    split_ifs at hstep
    obtain rfl := Option.some.inj hstep
    exact h.mono_left (Finset.erase_subset _ _)
  | trackerConnect id =>
    simp only [Links.step, Links.mem_open] at hstep
    split_ifs at hstep with hid
    obtain rfl := Option.some.inj hstep
    exact Finset.disjoint_insert_right.2 ⟨fun hp => hid (Or.inl hp), h⟩
  | trackerDisconnect id =>
    simp only [Links.step] at hstep
    split_ifs at hstep
    obtain rfl := Option.some.inj hstep
    exact h.mono_right (Finset.erase_subset _ _)

def LinkEvent.opens : LinkEvent → Option ConnectionId
  | .connect id | .trackerConnect id => some id
  | .disconnect _ | .trackerDisconnect _ => none

def LinkEvent.closes : LinkEvent → Option ConnectionId
  | .connect _ | .trackerConnect _ => none
  | .disconnect id | .trackerDisconnect id => some id

theorem Links.step_open {l l' : Links} {e : LinkEvent} (hd : Disjoint l.peers l.trackers)
    (hstep : l.step e = some l') :
    (∃ id, e.opens = some id ∧ e.closes = none ∧ id ∉ l.open ∧ l'.open = insert id l.open) ∨
    (∃ id, e.opens = none ∧ e.closes = some id ∧ id ∈ l.open ∧ l'.open = l.open.erase id) := by
  rw [Finset.disjoint_left] at hd
  cases e with
  | connect id =>
    simp only [Links.step] at hstep
    split_ifs at hstep with hid
    obtain rfl := Option.some.inj hstep
    exact Or.inl ⟨id, rfl, rfl, hid, Finset.insert_union _ _ _⟩
  | disconnect id =>
    simp only [Links.step] at hstep
    split_ifs at hstep with hid
    obtain rfl := Option.some.inj hstep
    refine Or.inr ⟨id, rfl, rfl, Links.mem_open.2 (Or.inl hid), ?_⟩
    simp only [Links.open]
    rw [Finset.erase_union_distrib, Finset.erase_eq_of_notMem (hd hid)]
  | trackerConnect id =>
    simp only [Links.step] at hstep
    split_ifs at hstep with hid
    obtain rfl := Option.some.inj hstep
    exact Or.inl ⟨id, rfl, rfl, hid, Finset.union_insert _ _ _⟩
  | trackerDisconnect id =>
    simp only [Links.step] at hstep
    split_ifs at hstep with hid
    obtain rfl := Option.some.inj hstep
    refine Or.inr ⟨id, rfl, rfl, Links.mem_open.2 (Or.inr hid), ?_⟩
    simp only [Links.open]
    rw [Finset.erase_union_distrib, Finset.erase_eq_of_notMem fun hp => hd hp hid]

/-- A step adds the identifier that its event opens and takes away the one that it closes,
and it reports the cancellation when a link was closed and none is left. -/
theorem Session.step_cases {s s' : Session} {e : LinkEvent} (hstep : s.step e = some s') :
    s'.metaInfoFileName = s.metaInfoFileName ∧ s'.state.controller = s.state.controller ∧
    ((∃ id, e.opens = some id ∧ s'.state.connections = insert id s.state.connections ∧
        s'.notified = s.notified) ∨
      (∃ id, e.closes = some id ∧ s'.state.connections = s.state.connections.erase id ∧
        s'.notified = s.notified ++
          if s'.state.connections = ∅ ∧ s.state.controller = true
          then [(s.metaInfoFileName, .cancelled)] else [])) := by
  cases e with
  | connect id =>
    obtain ⟨-, rfl⟩ := Session.connect_eq_some.1 hstep
    exact ⟨rfl, rfl, Or.inl ⟨id, rfl, rfl, rfl⟩⟩
  | disconnect id =>
    obtain rfl := Option.some.inj hstep
    exact ⟨by simp [Session.disconnect], by simp [Session.disconnect, SessionState.disconnect],
      Or.inr ⟨id, rfl, by simp [Session.disconnect, SessionState.disconnect]⟩⟩
  | trackerConnect id =>
    obtain ⟨-, -, rfl⟩ := Session.trackerConnect_eq_some.1 hstep
    exact ⟨rfl, rfl, Or.inl ⟨id, rfl, rfl, rfl⟩⟩
  | trackerDisconnect id =>
    obtain ⟨-, rfl⟩ := Session.trackerDisconnect_eq_some.1 hstep
    exact ⟨by simp, by simp, Or.inr ⟨id, rfl, by simp⟩⟩

structure Connected (s : Session) (l : Links) : Prop where
  disjoint : Disjoint l.peers l.trackers
  connections : s.state.connections = l.open

theorem Connected.init (file : String) : Connected { metaInfoFileName := file } {} :=
  ⟨Finset.disjoint_empty_left _, rfl⟩

theorem Connected.step {s s' : Session} {l l' : Links} {e : LinkEvent} (h : Connected s l)
    (hs : s.step e = some s') (hl : l.step e = some l') : Connected s' l' := by
  refine ⟨Links.step_disjoint h.disjoint hl, ?_⟩
  obtain ⟨-, -, ⟨id, ho, hc, -⟩ | ⟨id, ho, hc, -⟩⟩ := Session.step_cases hs
  · obtain ⟨id', ho', -, -, hc'⟩ | ⟨id', ho', -⟩ := Links.step_open h.disjoint hl
    · obtain rfl : id = id' := by simpa [ho] using ho'
      rw [hc, hc', h.connections]
    · simp [ho] at ho'
  · obtain ⟨id', -, ho', -⟩ | ⟨id', -, ho', -, hc'⟩ := Links.step_open h.disjoint hl
    · simp [ho] at ho'
    · obtain rfl : id = id' := by simpa [ho] using ho'
      rw [hc, hc', h.connections]

def OpensWhileOpen (l : Links) (e : LinkEvent) (_ : Links) : Prop :=
  e.opens.isSome = true → l.open.Nonempty

def NeverReopened : List LinkEvent → Prop
  | [] => True
  | e :: es => ∀ l, ({} : Links).step e = some l → Always Links.step OpensWhileOpen l es

/-- The reports of a session whose links were never opened anew. -/
structure Reported (file : String) (s : Session) (l : Links) : Prop where
  connected : Connected s l
  metaInfoFileName : s.metaInfoFileName = file
  notified : s.notified = [] ∨ l.open = ∅ ∧ s.notified = [(file, .cancelled)]

theorem Reported.step {file : String} {s s' : Session} {l l' : Links} {e : LinkEvent}
    (h : Reported file s l) (ho : OpensWhileOpen l e l') (hs : s.step e = some s')
    (hl : l.step e = some l') : Reported file s' l' := by
  have hconn := h.connected.step hs hl
  obtain ⟨hfile, -, hcases⟩ := Session.step_cases hs
  refine ⟨hconn, hfile.trans h.metaInfoFileName, ?_⟩
  -- whatever the event, some link is open before it, so nothing was reported yet
  have hopen : l.open.Nonempty := by
    obtain ⟨id, hid, -⟩ | ⟨id, -, -, hid, -⟩ := Links.step_open h.connected.disjoint hl
    · exact ho (by simp [hid])
    · exact ⟨id, hid⟩
  have hnone : s.notified = [] := by
    rcases h.notified with hn | ⟨he, -⟩
    · exact hn
    · exact absurd he hopen.ne_empty
  obtain ⟨id, -, -, hn⟩ | ⟨id, -, -, hn⟩ := hcases
  · exact Or.inl (hn.trans hnone)
  · rw [hnone, List.nil_append, h.metaInfoFileName] at hn
    split_ifs at hn with hempty
    · exact Or.inr ⟨by rw [← hconn.connections]; exact hempty.1, hn⟩
    · exact Or.inl hn

theorem Reported.first {file : String} {s : Session} {l : Links} {e : LinkEvent}
    (hs : ({ metaInfoFileName := file } : Session).step e = some s)
    (hl : ({} : Links).step e = some l) : Reported file s l := by
  have hconn := (Connected.init file).step hs hl
  obtain ⟨hfile, -, ⟨id, -, -, hn⟩ | ⟨id, hid, -⟩⟩ := Session.step_cases hs
  · exact ⟨hconn, hfile, Or.inl hn⟩
  · obtain ⟨id', -, hid', -⟩ | ⟨id', -, -, hid', -⟩ :=
      Links.step_open (Finset.disjoint_empty_left _) hl
    · simp [hid] at hid'
    · simp [Links.open] at hid'

theorem notify_once {file : String} {reports : List (String × Event)}
    (h : reports = [] ∨ reports = [(file, .cancelled)]) {c : Control} (hc : file ∈ c.sessions) :
    ∃ c', exec (fun c n => Control.notify c n.1 n.2) c reports = some c' := by
  rcases h with rfl | rfl
  · exact ⟨c, rfl⟩
  · exact ⟨{ c with sessions := c.sessions.erase file }, by simp [Control.notify, hc]⟩

/-- On every run that never opens a link after the last one was closed, the cancellation is
reported at most once, and the controller finds the session it is reported for. -/
theorem cancelled_at_most_once (file : String) (es : List LinkEvent) (h : NeverReopened es)
    {l : Links} {s : Session} (hl : exec Links.step {} es = some l)
    (hs : exec Session.step { metaInfoFileName := file } es = some s) :
    s.notified.length ≤ 1 ∧
      ∀ c : Control, file ∈ c.sessions →
        ∃ c', exec (fun c n => Control.notify c n.1 n.2) c s.notified = some c' := by
  have hreports : s.notified = [] ∨ s.notified = [(file, .cancelled)] := by
    cases es with
    | nil =>
      obtain rfl : _ = s := by simpa using hs
      exact Or.inl rfl
    | cons e es =>
      obtain ⟨s₁, hs₁, hs⟩ := exec_cons_eq_some.1 hs
      obtain ⟨l₁, hl₁, hl⟩ := exec_cons_eq_some.1 hl
      have hrun := exec_related (R := Reported file) (P := OpensWhileOpen)
        (fun s l e s' l' hr ho hs hl => hr.step ho hs hl) es (Reported.first hs₁ hl₁) (h l₁ hl₁) hs hl
      exact hrun.notified.imp_right And.right
  refine ⟨?_, fun c hc => notify_once hreports hc⟩
  rcases hreports with h | h <;> simp [h]

theorem cancelled_at_most_once_tracker_first :
    ∃ s, exec Session.step { metaInfoFileName := "a.torrent" }
        [.trackerConnect 3, .connect 4, .trackerDisconnect 3, .disconnect 4] = some s ∧
      s.notified.length ≤ 1 := by
  refine ⟨_, rfl, (cancelled_at_most_once "a.torrent"
    [.trackerConnect 3, .connect 4, .trackerDisconnect 3, .disconnect 4] ?_ rfl rfl).1⟩
  rintro l ⟨⟩
  rintro l ⟨⟩
  refine ⟨fun _ => ⟨3, by decide⟩, ?_⟩
  rintro l ⟨⟩
  refine ⟨fun h => by simp [LinkEvent.opens] at h, ?_⟩
  rintro l ⟨⟩
  exact ⟨fun h => by simp [LinkEvent.opens] at h, trivial⟩

/-- The tracker answers and goes, and then a peer comes and goes: the cancellation is
reported twice, and the controller fails on the second report. -/
theorem cancelled_twice :
    ¬ ∀ (es : List LinkEvent) (l : Links) (s : Session),
      Always Links.step (fun l e _ => ∀ id, e = .trackerConnect id → l.trackers = ∅) {} es →
      exec Links.step {} es = some l →
      exec Session.step { metaInfoFileName := "a.torrent" } es = some s →
      s.notified.length ≤ 1 ∧
        ∀ c : Control, "a.torrent" ∈ c.sessions →
          ∃ c', exec (fun c n => Control.notify c n.1 n.2) c s.notified = some c' := by
  intro h
  have hrun := h [.trackerConnect 3, .trackerDisconnect 3, .connect 4, .disconnect 4] _ _ ?_ rfl rfl
  · exact absurd hrun.1 (by decide)
  · rintro l ⟨⟩
    refine ⟨fun id _ => rfl, ?_⟩
    rintro l ⟨⟩
    refine ⟨fun id hid => by simp at hid, ?_⟩
    rintro l ⟨⟩
    refine ⟨fun id hid => by simp at hid, ?_⟩
    rintro l ⟨⟩
    exact ⟨fun id hid => by simp at hid, trivial⟩

structure Bookkept (s : Session) (l : Links) : Prop where
  peerStatus : ∀ id, id ∈ s.state.peerStatus ↔ id ∈ s.state.connections ∧
    ¬ (s.state.trackerConnectionId ≠ 0 ∧ id = s.state.trackerConnectionId)
  trackerConnectionId : s.state.trackerConnectionId ≠ 0 ↔ l.trackers.Nonempty
  tracker : s.state.trackerConnectionId ≠ 0 →
    s.state.trackerConnectionId ∈ s.state.connections ∧ s.state.trackerConnectionId ∈ l.trackers
  fresh : ∀ id, id ∉ l.open →
    ∃ s', s.step (.connect id) = some s' ∧ s'.state.peerStatus[id]? = some {}

/-- The session's view of its links, when no tracker connection is numbered 0. -/
structure Tracked (s : Session) (l : Links) : Prop where
  connected : Connected s l
  peerStatus : ∀ id, id ∈ s.state.peerStatus ↔ id ∈ l.peers
  nonzero : (0 : ConnectionId) ∉ l.trackers
  trackers : l.trackers =
    if s.state.trackerConnectionId = 0 then ∅ else {s.state.trackerConnectionId}

theorem Tracked.init (file : String) : Tracked { metaInfoFileName := file } {} :=
  ⟨Connected.init file, fun id => by simp, Finset.notMem_empty _, rfl⟩

theorem Tracked.step {s s' : Session} {l l' : Links} {e : LinkEvent} (h : Tracked s l)
    (he : e ≠ .trackerConnect 0) (hs : s.step e = some s') (hl : l.step e = some l') :
    Tracked s' l' := by
  have hconn := h.connected.step hs hl
  cases e with
  | connect id =>
    obtain ⟨-, rfl⟩ := Session.connect_eq_some.1 hs
    simp only [Links.step] at hl
    split_ifs at hl with hid
    obtain rfl := Option.some.inj hl
    refine ⟨hconn, fun k => ?_, h.nonzero, h.trackers⟩
    simp [h.peerStatus k, @eq_comm _ id k]
  | disconnect id =>
    obtain rfl := Option.some.inj hs
    simp only [Links.step] at hl
    split_ifs at hl with hid
    obtain rfl := Option.some.inj hl
    refine ⟨hconn, fun k => ?_, h.nonzero, ?_⟩
    · simp [Session.disconnect, SessionState.disconnect, h.peerStatus k, @eq_comm _ id k]
    · simpa [Session.disconnect, SessionState.disconnect] using h.trackers
  | trackerConnect id =>
    obtain ⟨hnone, -, rfl⟩ := Session.trackerConnect_eq_some.1 hs
    have hid : id ≠ 0 := fun h0 => he (by rw [h0])
    have htr : l.trackers = ∅ := by simpa [hnone] using h.trackers
    simp only [Links.step] at hl
    split_ifs at hl
    obtain rfl := Option.some.inj hl
    refine ⟨hconn, h.peerStatus, ?_, ?_⟩
    · simpa [htr] using hid.symm
    · simp [htr, hid]
  | trackerDisconnect id =>
    obtain ⟨hid, rfl⟩ := Session.trackerDisconnect_eq_some.1 hs
    simp only [Links.step] at hl
    split_ifs at hl with hmem
    obtain rfl := Option.some.inj hl
    have hid0 : id ≠ 0 := fun h0 => h.nonzero (h0 ▸ hmem)
    have htr : l.trackers = {id} := by simpa [hid, hid0] using h.trackers
    refine ⟨hconn, fun k => by simpa using h.peerStatus k, ?_, ?_⟩
    · simp [htr]
    · simp [htr]

theorem Tracked.connect_fresh {s : Session} {l : Links} (h : Tracked s l) {id : ConnectionId}
    (hid : id ∉ l.open) :
    ∃ s', s.step (.connect id) = some s' ∧ s'.state.peerStatus[id]? = some {} := by
  have hc : id ∉ s.state.connections := by
    rw [h.connected.connections]
    exact hid
  have hp : id ∉ s.state.peerStatus := fun hm =>
    hid (Links.mem_open.2 (Or.inl ((h.peerStatus id).1 hm)))
  refine ⟨_, Session.connect_eq_some.2 ⟨hc, rfl⟩, ?_⟩
  rw [ExtTreeMap.getElem?_insertIfNew, if_pos ⟨compare_eq_iff_eq.2 rfl, hp⟩]

theorem Tracked.bookkept {s : Session} {l : Links} (h : Tracked s l) : Bookkept s l := by
  have hopen : ∀ id, id ∈ s.state.connections ↔ id ∈ l.peers ∨ id ∈ l.trackers := by
    intro id
    rw [h.connected.connections, Links.mem_open]
  by_cases h0 : s.state.trackerConnectionId = 0
  · have htr : l.trackers = ∅ := by simpa [h0] using h.trackers
    refine ⟨fun id => ?_, ?_, fun hne => absurd h0 hne, fun id => h.connect_fresh⟩
    · simp [h.peerStatus, hopen, htr, h0]
    · simp [h0, htr]
  · have htr : l.trackers = {s.state.trackerConnectionId} := by simpa [h0] using h.trackers
    have hmem : s.state.trackerConnectionId ∈ l.trackers := by simp [htr]
    refine ⟨fun id => ?_, ?_, fun _ => ⟨(hopen _).2 (Or.inr hmem), hmem⟩, fun id => h.connect_fresh⟩
    · have hne : id ∈ l.peers → id ≠ s.state.trackerConnectionId := by
        rintro hp rfl
        exact Finset.disjoint_left.1 h.connected.disjoint hp hmem
      simp only [h.peerStatus, hopen, htr, Finset.mem_singleton, h0, ne_eq, not_false_eq_true,
        true_and]
      tauto
    · exact iff_of_true h0 ⟨_, hmem⟩

/-- On every run whose tracker connections have non-zero numbers, the peer table, the tracker
identifier and the connection set agree with the links that are open. -/
theorem runs_bookkept (file : String) (es : List LinkEvent) (h : ∀ e ∈ es, e ≠ .trackerConnect 0)
    {l : Links} {s : Session} (hl : exec Links.step {} es = some l)
    (hs : exec Session.step { metaInfoFileName := file } es = some s) : Bookkept s l := by
  refine Tracked.bookkept (exec_related (R := Tracked)
    (P := fun _ e _ => e ≠ .trackerConnect 0) ?_ es (Tracked.init file) ?_ hs hl)
  · exact fun s l e s' l' ht he hs hl => ht.step he hs hl
  · exact always_of_forall (fun _ _ _ he _ => he) es h

theorem runs_bookkept_reused :
    ∃ l s, exec Session.step { metaInfoFileName := "a.torrent" }
        [.trackerConnect 3, .connect 4, .disconnect 4, .trackerDisconnect 3, .connect 3] = some s ∧
      Bookkept s l :=
  ⟨_, _, rfl, runs_bookkept "a.torrent"
    [.trackerConnect 3, .connect 4, .disconnect 4, .trackerDisconnect 3, .connect 3]
    (by decide) rfl rfl⟩

/-- A tracker connection that is numbered 0 looks like none. -/
theorem tracker_zero_not_bookkept :
    ¬ ∀ (es : List LinkEvent) (l : Links) (s : Session),
      exec Links.step {} es = some l →
      exec Session.step { metaInfoFileName := "a.torrent" } es = some s → Bookkept s l := by
  intro h
  have hb := h [.trackerConnect 0] _ _ rfl rfl
  exact hb.trackerConnectionId.2 ⟨0, by decide⟩ rfl

end ACENetwork.BitTorrent
