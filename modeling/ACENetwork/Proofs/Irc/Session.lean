import Mathlib
import ACENetwork.Proofs.Irc.SessionSafety

/-! When a session knows what the messages of the server mean for it. -/

namespace ACENetwork.Irc

open Http (ascii)

variable {α : Type} {b : Build} {s : Session} {o : Own} {r : Record} {e : Except Misuse α}

def OneSign : List UInt8 → Prop
  | [] => False
  | c :: cs => (c = Tools.plus ∨ c = Tools.minus) ∧ ∀ a ∈ cs, a = Tools.plus ∨ a = Tools.minus → a = c

instance : DecidablePred OneSign
  | [] => inferInstanceAs (Decidable False)
  | _ :: _ => inferInstanceAs (Decidable (_ ∧ _))

namespace Tools

variable {M : Type} [DecidableEq M] {toMode : UInt8 → Option M}

theorem foldl_mergeChar {c : UInt8} (hplus : toMode plus = none) (hminus : toMode minus = none)
    (hc : c = plus ∨ c = minus) {cs : List UInt8}
    (hcs : ∀ a ∈ cs, a = plus ∨ a = minus → a = c) (n : ℕ) (modes : Finset M) :
    (cs.foldl (mergeChar toMode (decide (c = plus))) (n, modes)).2 =
      applyModes toMode (decide (c = plus)) cs modes := by
  induction cs generalizing n modes with
  | nil => rfl
  | cons a cs ih =>
    have hrest := ih fun a' ha' => hcs a' (List.mem_cons_of_mem _ ha')
    rw [List.foldl_cons, applyModes]
    by_cases h1 : a = plus
    · obtain rfl : a = c := hcs a List.mem_cons_self (Or.inl h1)
      rw [if_pos h1, mergeChar, h1, hplus]
      simpa [h1] using hrest n modes
    rw [if_neg h1]
    by_cases h2 : a = minus
    · obtain rfl : a = c := hcs a List.mem_cons_self (Or.inr h2)
      have hsign : decide (a = plus) = false := decide_eq_false h1
      rw [hsign] at hrest ⊢
      rw [if_pos h2, mergeChar, h2, hminus]
      exact hrest n modes
    rw [if_neg h2, mergeChar]
    cases toMode a with
    | none => exact hrest n modes
    | some mode => exact hrest _ _

theorem merge_eq_ok (hplus : toMode plus = none) (hminus : toMode minus = none) {text : List UInt8}
    (h : OneSign text) {old : Finset M} {merged : ℕ × Finset M}
    (hm : merge toMode text old = .ok merged) : merged.2 = applyModes toMode true text old := by
  cases text with
  | nil => exact h.elim
  | cons c cs =>
    obtain rfl := Except.ok.inj hm
    refine (foldl_mergeChar hplus hminus h.1 h.2 0 old).trans ?_
    rcases h.1 with rfl | rfl
    · rfl
    · rfl

end Tools

namespace Own

/-- The message moves the session to a channel or out of it. -/
def Moves (o : Own) (r : Record) : Prop :=
  (r.command.type = .join ∨ r.command.type = .part) ∧ r.prefix_.origin = o.nickName

theorem receive_channel (h : ¬ o.Moves r) : (o.receive r).channel = o.channel := by
  unfold receive
  split
  · split_ifs <;> rfl
  · rename_i hjoin _
    rw [if_neg fun ho => h ⟨Or.inl hjoin, ho⟩]
  · rename_i hpart
    rw [if_neg fun ho => h ⟨Or.inr hpart, ho⟩]
  · split_ifs <;> rfl
  · rfl

def Stays (o : Own) (rs : List Record) : Prop :=
  Transition.Always (fun o r => some (receive o r)) (fun o r _ => ¬ o.Moves r) o rs

theorem Stays.channel {rs : List Record} (h : o.Stays rs) :
    (rs.foldl receive o).channel = o.channel := by
  induction rs generalizing o with
  | nil => rfl
  | cons r rs ih =>
    obtain ⟨hr, hrs⟩ := Transition.always_total_cons.1 h
    rw [List.foldl_cons, ih hrs, receive_channel hr]

theorem after_join {nickname channel : List UInt8} {ps : Parameters} {before rs : List Record}
    (hr : r.command.type = .join) (ho : r.prefix_.origin = (after nickname before).nickName)
    (hps : r.parameters = channel :: ps) (h : (after nickname (before ++ [r])).Stays rs) :
    (after nickname (before ++ r :: rs)).channel = channel := by
  have hsplit : before ++ r :: rs = (before ++ [r]) ++ rs := by simp
  rw [hsplit, after, List.foldl_append]
  refine h.channel.trans ?_
  rw [after, List.foldl_append, List.foldl_cons, List.foldl_nil, receive, hr, hps]
  exact congrArg Own.channel (if_pos ho)

theorem after_part {nickname : List UInt8} {before rs : List Record}
    (hr : r.command.type = .part) (ho : r.prefix_.origin = (after nickname before).nickName)
    (h : (after nickname (before ++ [r])).Stays rs) :
    (after nickname (before ++ r :: rs)).channel = [] := by
  have hsplit : before ++ r :: rs = (before ++ [r]) ++ rs := by simp
  rw [hsplit, after, List.foldl_append]
  refine h.channel.trans ?_
  rw [after, List.foldl_append, List.foldl_cons, List.foldl_nil, receive, hr]
  exact congrArg Own.channel (if_pos ho)

end Own

namespace Session

/-- The session may do with the message what it means: a `NICK` comes from the session itself; a
build without `GUI_SUPPORT` is not to enter or to leave a channel; a `MODE` is about the nickname
or the channel, and its mode string has one sign and is the last parameter if it is about the
nickname. -/
def Understood (b : Build) (o : Own) (r : Record) : Prop :=
  Safe o.nickName r ∧
    match r.command.type, r.parameters with
    | .nick, nickname :: _ => r.prefix_.origin = o.nickName ∨ nickname = o.nickName
    | .join, channel :: _ =>
      r.prefix_.origin = o.nickName → b.guiSupport = true ∨ channel = o.channel
    | .part, _ => r.prefix_.origin = o.nickName → b.guiSupport = true ∨ o.channel = []
    | .mode, target :: modes :: ps =>
      OneSign modes ∧ (target = o.nickName → (modes :: ps).getLastD [] = modes) ∧
        (target ≠ o.nickName → target = o.channel ∧ o.channel ≠ [])
    | .mode, _ => False
    | _, _ => True

def Leads (o : Own) (e : Except Misuse Session) : Prop :=
  ∀ s, e = .ok s → s.own = o ∧ s.uiState = false

theorem leads_ok (h : s.own = o) (hu : s.uiState = false) : Leads o (.ok s) := by
  rintro s' hs'
  obtain rfl := Except.ok.inj hs'
  exact ⟨h, hu⟩

theorem leads_bind {f : α → Except Misuse Session} (h : ∀ a, e = .ok a → Leads o (f a)) :
    Leads o (e >>= f) := by
  cases e with
  | error m =>
    rintro s hs
    cases hs
  | ok a => exact h a rfl

theorem leads_ite {p : Prop} [Decidable p] {e e' : Except Misuse Session} (h : Leads o e)
    (h' : Leads o e') : Leads o (if p then e else e') := by
  split_ifs
  · exact h
  · exact h'

theorem leads_reply (hu : s.uiState = false) (n : ℕ) : Leads s.own (reply s r n) := by
  have hok : Leads s.own (.ok s) := leads_ok rfl hu
  have hthen : ∀ {γ : Type} {e : Except Misuse γ}, Leads s.own (e >>= fun _ => .ok s) :=
    leads_bind fun _ _ => hok
  have hfirst : ∀ {γ : Type} {e : Except Misuse γ} {first : Bool},
      Leads s.own (e >>= fun _ => .ok { s with isFirstMessage := first }) :=
    leads_bind fun _ _ => leads_ok rfl hu
  unfold reply
  refine leads_ite hthen (leads_ite hthen (leads_ite hthen (leads_ite hfirst (leads_ite hthen ?_))))
  refine leads_ite hthen (leads_ite hok (leads_ite hfirst (leads_ite hthen (leads_ite hthen ?_))))
  exact leads_ite (leads_bind fun _ _ => leads_ite hthen hok) hok

theorem leads_said {c : CommandType} (hu : s.uiState = false) : Leads s.own (said s r c) := by
  have hok : Leads s.own (.ok s) := leads_ok rfl hu
  exact leads_bind fun _ _ => leads_ite (leads_bind fun _ _ => hok) hok

theorem behindCondition_eq (hu : s.uiState = false) (condition : Bool) (s' : Session) :
    behindCondition b (condition && s.uiState) s s' = if b.guiSupport then s' else s := by
  obtain ⟨gui, curses⟩ := b
  rw [hu, Bool.and_false]
  cases gui <;> cases curses <;> rfl

theorem leads_nick {nickname : List UInt8} {ps : Parameters} (hu : s.uiState = false)
    (hps : r.parameters = nickname :: ps)
    (h : r.prefix_.origin = s.nickName ∨ nickname = s.nickName) :
    Leads (if r.prefix_.origin = s.nickName then { s.own with nickName := nickname } else s.own)
      (nick s r) := by
  refine leads_bind fun p hp => ?_
  rw [hps] at hp
  obtain rfl := Except.ok.inj hp
  have hsaid := leads_said (r := r) (c := .nick) (s := { s with nickName := nickname }) hu
  split_ifs with ho
  · exact hsaid
  · obtain rfl := h.resolve_left ho
    exact hsaid

theorem leads_join {channel : List UInt8} {ps : Parameters} (hu : s.uiState = false)
    (hps : r.parameters = channel :: ps)
    (h : r.prefix_.origin = s.nickName → b.guiSupport = true ∨ channel = s.channel) :
    Leads (if r.prefix_.origin = s.nickName then { s.own with channel := channel } else s.own)
      (join b s r) := by
  unfold join
  by_cases ho : r.prefix_.origin = s.nickName
  · rw [if_pos ho, if_pos ho]
    refine leads_bind fun p hp => ?_
    rw [hps] at hp
    obtain rfl := Except.ok.inj hp
    rw [behindCondition_eq hu]
    rcases h ho with hgui | hchannel
    · rw [if_pos hgui]
      exact leads_ok rfl hu
    · split_ifs
      · exact leads_ok rfl hu
      · exact leads_ok (by rw [hchannel]; rfl) hu
  · rw [if_neg ho, if_neg ho]
    exact leads_bind fun _ _ => leads_ok rfl hu

theorem leads_part (hu : s.uiState = false)
    (h : r.prefix_.origin = s.nickName → b.guiSupport = true ∨ s.channel = []) :
    Leads (if r.prefix_.origin = s.nickName then { s.own with channel := [] } else s.own)
      (part b s r) := by
  unfold part
  by_cases ho : r.prefix_.origin = s.nickName
  · rw [if_pos ho, if_pos ho]
    refine leads_bind fun p hp => ?_
    rw [behindCondition_eq hu]
    rcases h ho with hgui | hchannel
    · rw [if_pos hgui]
      exact leads_ok rfl hu
    · split_ifs
      · exact leads_ok rfl hu
      · exact leads_ok (by rw [← hchannel]; rfl) hu
  · rw [if_neg ho, if_neg ho]
    exact leads_bind fun _ _ => leads_ok rfl hu

theorem leads_mode {target modes : List UInt8} {ps : Parameters} (hu : s.uiState = false)
    (hps : r.parameters = target :: modes :: ps) (hsign : OneSign modes)
    (hlast : target = s.nickName → (modes :: ps).getLastD [] = modes)
    (htarget : target ≠ s.nickName → target = s.channel ∧ s.channel ≠ []) :
    Leads (if target = s.nickName then
        { s.own with userModes := applyModes Tools.charToUserMode true modes s.userModes }
      else if target = s.channel ∧ s.channel ≠ [] then
        { s.own with channelModes := applyModes Tools.charToChannelMode true modes s.channelModes }
      else s.own)
      (mode s r) := by
  unfold mode
  rw [hps]
  refine leads_bind fun _ _ => leads_bind fun iterator hiterator => leads_bind fun p hp => ?_
  obtain rfl := Except.ok.inj hp
  obtain rfl : 1 = iterator := by simpa [next] using hiterator
  by_cases ht : target = s.nickName
  · rw [if_pos ht, if_pos ht]
    refine leads_bind fun last hback => leads_bind fun merged hmerged => ?_
    obtain rfl : modes = last := by
      have hlast' : (modes :: ps).getLast? = some last := by
        simpa [List.getLast?_cons_cons] using back_eq_ok.1 hback
      rw [← hlast ht, List.getLastD_eq_getLast?, hlast']
      rfl
    refine leads_ok ?_ hu
    rw [← Tools.merge_eq_ok (by decide) (by decide) hsign hmerged]
    rfl
  · rw [if_neg ht, if_neg ht, if_pos (htarget ht)]
    refine leads_bind fun last hderef => leads_bind fun merged hmerged => ?_
    obtain rfl : modes = last := Except.ok.inj hderef
    refine leads_ok ?_ hu
    rw [← Tools.merge_eq_ok (by decide) (by decide) hsign hmerged]
    rfl

theorem Understood.parameters (h : Understood b o r)
    (hr : requiredParameters r.command = 1) : ∃ p ps, r.parameters = p :: ps := by
  have hsafe := h.1.1
  rw [hr] at hsafe
  exact List.exists_cons_of_length_pos hsafe

theorem leads_command {text : List UInt8} {c : CommandType} (hu : s.uiState = false)
    (hr : r.command = .string text) (hc : Tools.commandToType text = c)
    (h : Understood b s.own r) : Leads (s.own.receive r) (command b s r c) := by
  have hok : Leads s.own (.ok s) := leads_ok rfl hu
  have htype : r.command.type = c := by rw [hr, ← hc]; rfl
  have hrequired : requiredParameters r.command = commandParameters c := by rw [hr, ← hc]; rfl
  have hmeant := h.2
  rw [htype] at hmeant
  unfold Own.receive
  rw [htype]
  cases c with
  | nick =>
    obtain ⟨nickname, ps, hps⟩ := h.parameters hrequired
    rw [hps] at hmeant ⊢
    exact leads_nick hu hps hmeant
  | join =>
    obtain ⟨channel, ps, hps⟩ := h.parameters hrequired
    rw [hps] at hmeant ⊢
    exact leads_join hu hps hmeant
  | part => exact leads_part hu hmeant
  | mode =>
    cases hps : r.parameters with
    | nil =>
      rw [hps] at hmeant
      exact hmeant.elim
    | cons target ps =>
      cases ps with
      | nil =>
        rw [hps] at hmeant
        exact hmeant.elim
      | cons modes ps =>
        rw [hps] at hmeant
        obtain ⟨hsign, hlast, htarget⟩ := hmeant
        exact leads_mode hu hps hsign hlast htarget
  | user => exact leads_said hu
  | quit => exact leads_said hu
  | topic => exact leads_bind fun _ _ => hok
  | kick => exact leads_bind fun _ _ => hok
  | privmsg => exact leads_bind fun _ _ => hok
  | notice => exact leads_bind fun _ _ => hok
  | error => exact leads_bind fun _ _ => leads_bind fun _ _ => hok
  | away => exact leads_bind fun _ _ => hok
  | _ => exact hok

theorem leads_notify (hu : s.uiState = false) (h : Understood b s.own r) :
    Leads (s.own.receive r) (notify b s r) := by
  unfold notify
  cases hr : r.command with
  | numeric n =>
    have hsame : s.own.receive r = s.own := by simp [Own.receive, Command.type, hr]
    rw [hsame]
    exact leads_reply hu _
  | string text => exact leads_command hu hr rfl h
  | invalid =>
    have hsame : s.own.receive r = s.own := by simp [Own.receive, Command.type, hr]
    rw [hsame]
    exact leads_ok rfl hu

theorem step_understood (hu : s.uiState = false) (h : Understood b s.own r) :
    ∃ s', step b s r = some s' ∧ s'.own = s.own.receive r ∧ s'.uiState = false := by
  obtain ⟨s', hs'⟩ : Survives (notify b s r) := h.1.survives
  obtain ⟨hown, hu'⟩ := leads_notify hu h s' hs'
  refine ⟨s', ?_, hown, hu'⟩
  rw [step, hs']
  rfl

/-- Every message of a run is understood in the state that the messages before it mean. -/
def AllUnderstood (b : Build) (nickname : List UInt8) (rs : List Record) : Prop :=
  Transition.Always (fun o r => some (Own.receive o r)) (fun o r _ => Understood b o r)
    { nickName := nickname } rs

/-- In every build, a session knows its nickname, its channel and the modes of both after every
run of messages that it may understand. -/
theorem tracks_of_understood (b : Build) (nickname : List UInt8) (rs : List Record)
    (h : AllUnderstood b nickname rs) : Tracks b nickname rs := by
  have hstep : ∀ (s : Session) o r o', (s.own = o ∧ s.uiState = false) → Understood b o r →
      some (Own.receive o r) = some o' → ∃ s', step b s r = some s' ∧ s'.own = o' ∧ s'.uiState = false := by
    rintro s o r o' ⟨rfl, hu⟩ hunderstood hstep
    obtain ⟨s', hs', hown, hu'⟩ := step_understood hu hunderstood
    exact ⟨s', hs', hown.trans (Option.some.inj hstep), hu'⟩
  obtain ⟨s, hs, hown, -⟩ := Transition.exec_simulated (s := start nickname) hstep rs ⟨rfl, rfl⟩ h
    (Transition.exec_total _ rs)
  exact ⟨s, hs, hown⟩

/-- `:a JOIN #c`, `:b JOIN #d`, `MODE #c +nt`, `:a NICK e`, `:e PART #c` -/
def visit : List Record :=
  [⟨⟨[97], [], []⟩, .string [74, 79, 73, 78], [[35, 99]], []⟩,
    ⟨⟨[98], [], []⟩, .string [74, 79, 73, 78], [[35, 100]], []⟩,
    ⟨{}, .string [77, 79, 68, 69], [[35, 99], [43, 110, 116]], []⟩,
    ⟨⟨[97], [], []⟩, .string [78, 73, 67, 75], [[101]], []⟩,
    ⟨⟨[101], [], []⟩, .string [80, 65, 82, 84], [[35, 99]], []⟩]

theorem tracks_visit : Tracks ⟨true, false⟩ [97] visit := by
  refine tracks_of_understood _ _ _ ?_
  unfold visit AllUnderstood
  refine Transition.always_total_cons.2 ⟨⟨by decide +kernel, fun _ => Or.inl rfl⟩, ?_⟩
  refine Transition.always_total_cons.2 ⟨⟨by decide +kernel, fun h => absurd h (by decide +kernel)⟩, ?_⟩
  refine Transition.always_total_cons.2 ⟨⟨by decide +kernel, by decide +kernel, by decide +kernel, by decide +kernel⟩, ?_⟩
  refine Transition.always_total_cons.2 ⟨⟨by decide +kernel, Or.inl rfl⟩, ?_⟩
  exact Transition.always_total_cons.2 ⟨⟨by decide +kernel, fun _ => Or.inl rfl⟩, trivial⟩

/-- `:b NICK e`, from a stranger. -/
theorem not_tracks_stranger :
    ¬ ∀ (b : Build) (nickname : List UInt8) (rs : List Record),
      (∀ r ∈ rs, ∃ frame, FrameText frame r) → Tracks b nickname rs := by
  intro h
  have hcommand : (Command.string [78, 73, 67, 75]).Valid := ⟨by decide, List.all_eq_true.1 (by decide)⟩
  have hparam : [101] ∈ param.lang := mem_param.2 ⟨by decide, List.all_eq_true.1 (by decide), by decide⟩
  have horigin : [98] ∈ (Flex.Pattern.alt Irc.nick host).lang :=
    Or.inr (mem_host.2 ⟨by decide, List.all_eq_true.1 (by decide)⟩)
  have hframe := FrameText.mk 0 (p := ⟨[98], [], []⟩) (Or.inr ⟨horigin, Or.inl rfl, Or.inl rfl⟩)
    hcommand (.middle 0 hparam .none)
  obtain ⟨s, hs, hown⟩ := h ⟨true, true⟩ [97] [⟨⟨[98], [], []⟩, .string [78, 73, 67, 75], [[101]], []⟩]
    fun r hr => ⟨_, List.mem_singleton.1 hr ▸ hframe⟩
  obtain rfl := Option.some.inj hs
  exact absurd hown (by decide)

end Session

end ACENetwork.Irc
