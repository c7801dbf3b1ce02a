import Mathlib
import ACENetwork.Spec.Irc.Session
import ACENetwork.Proofs.Irc.Grammar

/-! The messages that a session survives: for each command, how many parameters it must have. -/

namespace ACENetwork.Irc

open Http (ascii)

variable {α β : Type} {e : Except Misuse α} {f : α → Except Misuse β} {ps : Parameters}
  {s : Session} {r : Record} {b : Build}

def Survives (e : Except Misuse α) : Prop := ∃ a, e = .ok a

@[simp] theorem survives_ok (a : α) : Survives (.ok a) := ⟨a, rfl⟩

@[simp] theorem not_survives_error (m : Misuse) : ¬ Survives (.error m : Except Misuse α) := by
  rintro ⟨a, h⟩
  cases h

theorem survives_bind : Survives (e >>= f) ↔ ∃ a, e = .ok a ∧ Survives (f a) := by
  cases e with
  | error m =>
    refine iff_of_false (not_survives_error m) ?_
    rintro ⟨a, h, -⟩
    cases h
  | ok a => exact ⟨fun h => ⟨a, rfl, h⟩, fun ⟨a', h, h'⟩ => by cases h; exact h'⟩

theorem survives_ok_bind {a : α} : Survives (.ok a >>= f) ↔ Survives (f a) := Iff.rfl

theorem survives_bind_left (h : ∀ a, e = .ok a → Survives (f a)) :
    Survives (e >>= f) ↔ Survives e := by
  rw [survives_bind]
  exact ⟨fun ⟨a, ha, _⟩ => ⟨a, ha⟩, fun ⟨a, ha⟩ => ⟨a, ha, h a ha⟩⟩

theorem back_eq_ok {p : List UInt8} : back ps = .ok p ↔ ps.getLast? = some p := by
  unfold back
  cases h : ps.getLast? <;> simp

theorem survives_front : Survives (front ps) ↔ 1 ≤ ps.length := by
  cases ps <;> simp [front]

theorem survives_back : Survives (back ps) ↔ 1 ≤ ps.length := by
  cases hp : ps.getLast? with
  | none =>
    obtain rfl := List.getLast?_eq_none_iff.1 hp
    simp [back]
  | some p =>
    have : ps ≠ [] := by rintro rfl; simp at hp
    simp [back, hp, Nat.one_le_iff_ne_zero, this]

theorem survives_next {i : ℕ} : Survives (next ps i) ↔ i < ps.length := by
  unfold next
  split_ifs with h <;> simp [h]

theorem advanceBy_eq {i n : ℕ} (h : i + n ≤ ps.length) : advanceBy ps i n = .ok (i + n) := by
  induction n generalizing i with
  | zero => rfl
  | succ n ih =>
    have hnext : next ps i = .ok (i + 1) := if_pos (by omega)
    have hrest := ih (i := i + 1) (by omega)
    rw [advanceBy, hnext]
    exact hrest.trans (by rw [Nat.add_right_comm, Nat.add_assoc])

theorem survives_deref {i : ℕ} : Survives (deref ps i) ↔ i < ps.length := by
  unfold deref
  by_cases h : i < ps.length
  · simp [h]
  · simp [h]

theorem survives_substr {w : List UInt8} {position : ℕ} (h : position ≤ w.length) (n : Option ℕ) :
    Survives (substr w position n) := by
  unfold substr
  rw [if_neg (by omega)]
  exact survives_ok _

theorem survives_assert {p : Prop} [Decidable p] : Survives (assert p) ↔ p := by
  unfold assert
  split_ifs with h <;> simp [h]

namespace Tools

theorem survives_merge {M : Type} [DecidableEq M] {toMode : UInt8 → Option M} {modes : List UInt8}
    {old : Finset M} : Survives (merge toMode modes old) ↔ modes ≠ [] := by
  cases modes <;> simp [merge]

theorem survives_stringify (ps : Parameters) (index : Option ℕ) : Survives (stringify ps index) := by
  unfold stringify
  by_cases hps : ps = []
  · simp [hps]
  rw [if_neg hps]
  cases index with
  | none => exact survives_back.2 (by simpa [Nat.one_le_iff_ne_zero] using hps)
  | some index =>
    by_cases h : ps.length - 1 < index
    · simp [h]
    · have hadvance : advanceBy ps 0 index = .ok (0 + index) := advanceBy_eq (by omega)
      simp only [if_neg h, hadvance]
      exact survives_ok _

/-- The parameters that the text of a command is made of. -/
def textParameters : CommandType → ℕ
  | .nick | .quit | .join | .part => 1
  | _ => 0

theorem survives_stringToString {p : Prefix} {c : CommandType} :
    Survives (stringToString p ps c) ↔ textParameters c ≤ ps.length := by
  cases c with
  | nick => exact (survives_bind_left fun _ _ => survives_ok _).trans survives_back
  | quit => exact (survives_bind_left fun _ _ => survives_ok _).trans survives_back
  | join => exact (survives_bind_left fun _ _ => survives_ok _).trans survives_back
  | part =>
    refine (survives_bind_left fun channel _ => ?_).trans survives_deref
    dsimp only
    split_ifs with h
    · have hnext : next ps 0 = .ok 1 := if_pos (by omega)
      rw [hnext]
      exact (survives_bind_left fun _ _ => survives_ok _).2 (survives_deref.2 h)
    · exact survives_ok _
  | _ => simp [stringToString, textParameters, survives_stringify]

theorem survives_numericToString (ps : Parameters) (n : ℕ) : Survives (numericToString ps n) := by
  unfold numericToString
  split_ifs <;> first | exact survives_stringify _ _ | exact survives_ok _

end Tools

namespace Session

/-- The parameters that the text of a message is made of. -/
def loggedParameters : Command → ℕ
  | .string c => Tools.textParameters (Tools.commandToType c)
  | _ => 0

theorem survives_log : Survives (log r) ↔ loggedParameters r.command ≤ r.parameters.length := by
  refine (survives_bind_left fun _ _ => survives_ok _).trans ?_
  unfold Tools.recordToString loggedParameters
  cases r.command with
  | numeric n => simpa using Tools.survives_numericToString _ n.toNat
  | string c => exact Tools.survives_stringToString
  | invalid => simp

/-- The positions from which the loop searches stay in the string. -/
theorem survives_words {w : List UInt8} {last : ℕ} (h : last ≤ w.length) : Survives (words w last) := by
  induction hk : w.length - last using Nat.strong_induction_on generalizing last with
  | _ k ih =>
    rw [words]
    split
    · exact (survives_bind_left fun _ _ => survives_ok _).2 (survives_substr h _)
    · rename_i current hfind
      have hbounds := find_bounds hfind
      have hlast : current + 1 ≤ w.length := by omega
      obtain ⟨rest, hrest⟩ := ih (w.length - (current + 1)) (by omega) hlast rfl
      refine (survives_bind_left fun _ _ => ?_).2 (survives_substr h _)
      rw [hrest]
      exact survives_ok _

theorem survives_userhostText (record : List UInt8) : Survives (userhostText record) := by
  unfold userhostText
  split
  · exact survives_ok _
  · rename_i equals hequals
    have hbounds := find_bounds hequals
    refine (survives_bind_left fun _ _ => ?_).2 (survives_substr (by omega) _)
    split
    · exact survives_ok _
    · rename_i at_ hat
      have hbounds' := find_bounds hat
      refine (survives_bind_left fun _ _ => ?_).2 (survives_substr (by omega) _)
      exact (survives_bind_left fun _ _ => survives_ok _).2 (survives_substr (by omega) _)

theorem survives_mapM {g : α → Except Misuse β} (h : ∀ a, Survives (g a)) (l : List α) :
    Survives (l.mapM g) := by
  induction l with
  | nil => exact ⟨[], rfl⟩
  | cons a l ih =>
    rw [List.mapM_cons]
    refine (survives_bind_left fun _ _ => ?_).2 (h a)
    exact (survives_bind_left fun _ _ => ⟨_, rfl⟩).2 ih

theorem survives_userhost : Survives (userhost ps) ↔ 1 ≤ ps.length := by
  refine (survives_bind_left fun last _ => ?_).trans survives_back
  refine (survives_bind_left fun list _ => ?_).2 (survives_words (Nat.zero_le _))
  exact survives_mapM survives_userhostText _

theorem survives_listReply : Survives (listReply ps) ↔ 3 ≤ ps.length := by
  refine Iff.trans ?_ (survives_assert (p := 3 ≤ ps.length))
  refine survives_bind_left fun _ h => ?_
  have hlength := survives_assert.1 ⟨_, h⟩
  rw [advanceBy_eq (by omega)]
  exact survives_deref.2 (by omega)

theorem survives_namReply : Survives (namReply ps) ↔ 3 ≤ ps.length := by
  unfold namReply
  refine ⟨fun h => ?_, fun h => ?_⟩
  · obtain ⟨last, -, h⟩ := survives_bind.1 h
    obtain ⟨list, -, h⟩ := survives_bind.1 h
    obtain ⟨_, h, -⟩ := survives_bind.1 h
    exact survives_assert.1 ⟨_, h⟩
  · refine (survives_bind_left fun last _ => ?_).2 (survives_back.2 (by omega))
    refine (survives_bind_left fun list _ => ?_).2 (survives_words (Nat.zero_le _))
    refine (survives_bind_left fun _ _ => ?_).2 (survives_assert.2 h)
    rw [advanceBy_eq (by omega)]
    exact survives_ok _

theorem survives_whoReply : Survives (whoReply ps) ↔ 8 ≤ ps.length := by
  refine Iff.trans ?_ (survives_assert (p := 8 ≤ ps.length))
  refine survives_bind_left fun _ h => ?_
  have hlength := survives_assert.1 ⟨_, h⟩
  have hnext : next ps (0 + 5) = .ok 6 := if_pos (by omega)
  rw [advanceBy_eq (by omega), survives_ok_bind]
  refine (survives_bind_left fun nick _ => ?_).2 (survives_deref.2 (by omega))
  rw [hnext, survives_ok_bind]
  refine (survives_bind_left fun flags _ => ?_).2 (survives_deref.2 (by omega))
  refine (survives_bind_left fun last _ => ?_).2 (survives_back.2 (by omega))
  refine (survives_bind_left fun hops _ => ?_).2 (survives_substr (Nat.zero_le _) _)
  refine (survives_bind_left fun _ _ => survives_ok _).2 (survives_substr ?_ _)
  -- behind a SPACE of the parameter, or at its start
  split
  · rename_i position hfind
    exact (find_bounds hfind).2
  · exact Nat.zero_le _

open Codes in
/-- The parameters that a session reads of a number. -/
def replyParameters (n : ℕ) : ℕ :=
  if n = rplUserhost ∨ n = rplEndofnames then 1
  else if n = rplList ∨ n = rplNamreply then 3
  else if n = rplWhoreply then 8
  else 0

theorem replyParameters_logged {n : ℕ} (h : n ∈ loggedReplies ++ loggedErrors) :
    replyParameters n = 0 := by
  have hall : ∀ n ∈ loggedReplies ++ loggedErrors, replyParameters n = 0 := by decide
  exact hall n h

open Codes in
theorem survives_reply {n : ℕ} (hlog : Survives (log r)) :
    Survives (reply s r n) ↔ replyParameters n ≤ r.parameters.length := by
  have hthen : ∀ s', Survives (log r >>= fun _ => .ok s' : Except Misuse Session) := fun s' =>
    (survives_bind_left fun _ _ => survives_ok s').2 hlog
  unfold reply
  by_cases h1 : n ∈ loggedReplies
  · rw [if_pos h1, replyParameters_logged (List.mem_append_left _ h1)]
    exact iff_of_true (hthen s) (Nat.zero_le _)
  rw [if_neg h1]
  by_cases h2 : n = rplUserhost
  · rw [if_pos h2, h2]
    exact (survives_bind_left fun _ _ => survives_ok s).trans survives_userhost
  rw [if_neg h2]
  by_cases h3 : n = rplUnaway ∨ n = rplNowaway
  · rw [if_pos h3]
    refine iff_of_true (hthen s) ?_
    rcases h3 with rfl | rfl <;> exact Nat.zero_le _
  rw [if_neg h3]
  by_cases h4 : n = rplEndofwho
  · rw [if_pos h4, h4]
    exact iff_of_true (hthen _) (Nat.zero_le _)
  rw [if_neg h4]
  by_cases h5 : n = rplListstart ∨ n = rplListend
  · rw [if_pos h5]
    refine iff_of_true (hthen s) ?_
    rcases h5 with rfl | rfl <;> exact Nat.zero_le _
  rw [if_neg h5]
  by_cases h6 : n = rplList
  · rw [if_pos h6, h6]
    exact (survives_bind_left fun _ _ => survives_ok s).trans survives_listReply
  rw [if_neg h6]
  by_cases h7 : n = rplNotopic ∨ n = rplTopic ∨ n = rplTopicwhotime
  · rw [if_pos h7]
    refine iff_of_true (survives_ok s) ?_
    rcases h7 with rfl | rfl | rfl <;> exact Nat.zero_le _
  rw [if_neg h7]
  by_cases h8 : n = rplWhoreply
  · rw [if_pos h8, h8]
    exact (survives_bind_left fun _ _ => survives_ok _).trans survives_whoReply
  rw [if_neg h8]
  by_cases h9 : n = rplNamreply
  · rw [if_pos h9, h9]
    exact (survives_bind_left fun _ _ => survives_ok s).trans survives_namReply
  rw [if_neg h9]
  by_cases h10 : n = rplEndofnames
  · rw [if_pos h10, h10]
    exact (survives_bind_left fun _ _ => survives_ok s).trans survives_next
  rw [if_neg h10]
  have hnone : replyParameters n = 0 := by simp [replyParameters, h2, h6, h8, h9, h10]
  rw [hnone]
  refine iff_of_true ?_ (Nat.zero_le _)
  split_ifs with h11 h12
  · exact (survives_bind_left fun _ _ => hthen s).2 hlog
  · exact hthen s
  · exact survives_ok s

theorem survives_said {c : CommandType} :
    Survives (said s r c) ↔ loggedParameters r.command ≤ r.parameters.length := by
  refine Iff.trans (survives_bind_left fun u hu => ?_) survives_log
  split_ifs
  · exact (survives_bind_left fun _ _ => survives_ok s).2 ⟨u, hu⟩
  · exact survives_ok s

theorem survives_nick (h : loggedParameters r.command = 1) :
    Survives (nick s r) ↔ 1 ≤ r.parameters.length := by
  refine (survives_bind_left fun nickname hfront => survives_said.2 ?_).trans survives_front
  rw [h]
  exact survives_front.1 ⟨nickname, hfront⟩

theorem survives_join (h : loggedParameters r.command = 1) :
    Survives (join b s r) ↔ 1 ≤ r.parameters.length := by
  unfold join
  split_ifs
  · exact (survives_bind_left fun _ _ => survives_ok _).trans survives_front
  · exact ((survives_bind_left fun _ _ => survives_ok s).trans survives_log).trans (by rw [h])

theorem survives_part (h : loggedParameters r.command = 1) :
    Survives (part b s r) ↔ 1 ≤ r.parameters.length := by
  unfold part
  split_ifs
  · exact (survives_bind_left fun _ _ => survives_ok _).trans survives_front
  · exact ((survives_bind_left fun _ _ => survives_ok s).trans survives_log).trans (by rw [h])

theorem survives_privmsg : Survives (privmsg s r) ↔ 1 ≤ r.parameters.length := by
  refine (survives_bind_left fun last hlast => ?_).trans survives_back
  refine (survives_bind_left fun _ _ => survives_ok _).2 (survives_front.2 ?_)
  exact survives_back.1 ⟨last, hlast⟩

/-- The parameter that a message merges into the modes, or nothing if it has too few. -/
def modeString (nickName : List UInt8) : Parameters → List UInt8
  | [] => []
  | target :: ps => if target = nickName then (target :: ps).getLastD [] else ps.headD []

theorem survives_mode (h : loggedParameters r.command = 0) :
    Survives (mode s r) ↔ modeString s.nickName r.parameters ≠ [] := by
  have hlog : Survives (log r) := survives_log.2 (by rw [h]; exact Nat.zero_le _)
  obtain ⟨u, hu⟩ := hlog
  unfold mode
  rw [hu, survives_ok_bind]
  cases hps : r.parameters with
  | nil => simp [next, survives_bind, modeString]
  | cons target ps =>
    have hnext : next (target :: ps) 0 = .ok 1 := if_pos (by simp)
    have hfront : front (target :: ps) = .ok target := rfl
    rw [hnext, survives_ok_bind, hfront, survives_ok_bind, modeString]
    split_ifs
    · have hback : back (target :: ps) = .ok ((target :: ps).getLastD []) := by
        simp [back, List.getLastD_eq_getLast?, List.getLast?_cons]
      rw [hback, survives_ok_bind]
      exact (survives_bind_left fun _ _ => survives_ok _).trans Tools.survives_merge
    · cases ps with
      | nil => simp [deref, survives_bind]
      | cons modes ps =>
        have hderef : deref (target :: modes :: ps) 1 = .ok modes := rfl
        rw [hderef, survives_ok_bind]
        exact (survives_bind_left fun _ _ => survives_ok _).trans Tools.survives_merge

/-- The parameters that a session reads of a command, the modes aside. -/
def commandParameters : CommandType → ℕ
  | .nick | .quit | .join | .part | .privmsg => 1
  | _ => 0

def requiredParameters : Command → ℕ
  | .numeric n => replyParameters n.toNat
  | .string text => commandParameters (Tools.commandToType text)
  | .invalid => 0

/-- The message has the parameters that the session reads of it. -/
def Safe (nickName : List UInt8) (r : Record) : Prop :=
  requiredParameters r.command ≤ r.parameters.length ∧
    (r.command.type = .mode → modeString nickName r.parameters ≠ [])

instance (nickName : List UInt8) (r : Record) : Decidable (Safe nickName r) :=
  inferInstanceAs (Decidable (_ ∧ _))

theorem survives_command {text : List UInt8} {c : CommandType} (h : r.command = .string text)
    (hc : Tools.commandToType text = c) :
    Survives (command b s r c) ↔ commandParameters c ≤ r.parameters.length ∧
      (c = .mode → modeString s.nickName r.parameters ≠ []) := by
  have htext : loggedParameters r.command = Tools.textParameters c := by
    rw [h, ← hc, loggedParameters]
  have hlog : Tools.textParameters c = 0 → Survives (log r) := fun h0 =>
    survives_log.2 (by rw [htext, h0]; exact Nat.zero_le _)
  have hthen : Tools.textParameters c = 0 →
      Survives (log r >>= fun _ => .ok s : Except Misuse Session) := fun h0 =>
    (survives_bind_left fun _ _ => survives_ok s).2 (hlog h0)
  cases c with
  | nick => simpa [command, commandParameters] using survives_nick htext
  | user => simpa [command, commandParameters] using survives_said.2 (htext.trans_le (Nat.zero_le _))
  | quit =>
    rw [command, survives_said, htext]
    simp [commandParameters, Tools.textParameters]
  | join => simpa [command, commandParameters] using survives_join htext
  | part => simpa [command, commandParameters] using survives_part htext
  | mode => simpa [command, commandParameters] using survives_mode htext
  | topic => simpa [command, commandParameters] using hthen rfl
  | kick => simpa [command, commandParameters] using hthen rfl
  | privmsg =>
    have hprivmsg : Survives (command b s r .privmsg) ↔ 1 ≤ r.parameters.length :=
      (survives_bind_left fun _ _ => survives_ok s).trans survives_privmsg
    simpa [commandParameters] using hprivmsg
  | notice => simpa [command, commandParameters] using hthen rfl
  | error =>
    have herror : Survives (log r >>= fun _ => error r >>= fun _ => .ok s : Except Misuse Session) :=
      (survives_bind_left fun _ _ => hthen rfl).2 (hlog rfl)
    simpa [command, commandParameters] using herror
  | away => simpa [command, commandParameters] using hthen rfl
  | _ => simp [command, commandParameters]

theorem Safe.survives (h : Safe s.nickName r) : Survives (notify b s r) := by
  obtain ⟨hlength, hmode⟩ := h
  unfold notify
  cases hr : r.command with
  | numeric n =>
    have hlog : Survives (log r) := survives_log.2 (by simp [loggedParameters, hr])
    rw [hr] at hlength
    exact (survives_reply hlog).2 hlength
  | string text =>
    rw [hr] at hlength hmode
    exact (survives_command hr rfl).2 ⟨hlength, hmode⟩
  | invalid => exact survives_ok s

/-- A session survives a message exactly when the message has the parameters that it reads. -/
theorem survives_notify_iff (b : Build) (s : Session) (r : Record) :
    Survives (notify b s r) ↔ Safe s.nickName r := by
  unfold notify Safe
  cases h : r.command with
  | numeric n =>
    have hlog : Survives (log r) := survives_log.2 (by simp [loggedParameters, h])
    simpa [requiredParameters, Command.type] using survives_reply hlog
  | string text => exact survives_command h rfl
  | invalid => simp [requiredParameters, Command.type]

/-- `JOIN`, as it is parsed from the wire, has no parameters. -/
theorem not_survives_join :
    ¬ ∀ (b : Build) (s : Session) (fragment : List UInt8) (r : Record),
      Parses fragment (.returned true r) → Survives (notify b s r) := by
  intro h
  have hcommand : (Command.string [74, 79, 73, 78]).Valid := ⟨by decide, List.all_eq_true.1 (by decide)⟩
  have hframe : FrameText [74, 79, 73, 78, 13, 10] ⟨{}, .string [74, 79, 73, 78], [], []⟩ :=
    .mk 0 (Or.inl rfl) hcommand .none
  obtain ⟨s, hs⟩ := h ⟨true, true⟩ {} _ _ ((ends_frameText hframe).2 rfl)
  cases hs

end Session

end ACENetwork.Irc
