import Mathlib
import ACENetwork.Library.Transition
import ACENetwork.Spec.Irc.Tools

/-! What `IRC_Session_T` does with the messages of the server. The second part, `Own`, says what
the messages mean for the session, whatever it makes of them. -/

namespace ACENetwork.Irc

open Http (ascii)

/-- The preprocessor symbols that the session depends on. -/
structure Build where
  guiSupport : Bool
  cursesUse : Bool
  deriving DecidableEq, Repr

/-- The fields of `IRC_SessionState` that messages touch, and whether `UIState_` is there: the
constructor sets the pointer to NULL. -/
structure Session where
  nickName : List UInt8 := []
  channel : List UInt8 := []
  userModes : Finset UserMode := ∅
  channelModes : Finset ChannelMode := ∅
  isFirstMessage : Bool := false
  uiState : Bool := false
  deriving DecidableEq

namespace Session

def start (nickname : List UInt8) : Session := { ({} : Session) with nickName := nickname }

/-- `log` shows the text to `UIState_` only, and `error` to nobody. -/
def log (r : Record) : Except Misuse Unit := do
  let _ ← Tools.recordToString r
  .ok ()

def error (r : Record) : Except Misuse Unit := do
  let _ ← Tools.recordToString r
  .ok ()

theorem find_bounds {s : List UInt8} {c : UInt8} {position current : ℕ}
    (h : find s c position = some current) : position ≤ current ∧ current < s.length := by
  obtain ⟨i, hi, rfl⟩ := Option.map_eq_some_iff.1 h
  have := (List.findIdx?_eq_some_iff_getElem.1 hi).1
  rw [List.length_drop] at this
  omega

/-- The loop that cuts a parameter at its SPACEs, from a position on. -/
def words (s : List UInt8) (last : ℕ) : Except Misuse (List (List UInt8)) :=
  match h : find s space last with
  | none => do
    let word ← substr s last (some (s.length - last))
    .ok [word]
  | some current => do
    let word ← substr s last (some (current - last))
    let rest ← words s (current + 1)
    .ok (word :: rest)
termination_by s.length - last
decreasing_by
  have := find_bounds h
  omega

def equalsSign : UInt8 := 61

/-- What is logged of a record of the reply `RPL_USERHOST`. -/
def userhostText (record : List UInt8) : Except Misuse (Option (List UInt8)) :=
  match find record equalsSign 0 with
  | none => .ok none
  | some equals => do
    let nick ← substr record 0 (some equals)
    match find record commercialAt equals with
    | none => .ok none
    | some at_ => do
      let user ← substr record (equals + 1) (some (at_ - equals - 1))
      let host ← substr record (at_ + 1) none
      .ok (some (nick ++ ascii " is \"" ++ user ++ ascii "\" on \"" ++ host ++ ascii "\"\n"))

def userhost (ps : Parameters) : Except Misuse (List (Option (List UInt8))) := do
  let last ← back ps
  let list ← words last 0
  (list.filter fun record => decide (record ≠ [])).mapM userhostText

/-- The third parameter is read, and the iterator goes back by one. -/
def listReply (ps : Parameters) : Except Misuse (List UInt8) := do
  assert (3 ≤ ps.length)
  let iterator ← advanceBy ps 0 2
  deref ps iterator

/-- The nickname, the flags, the number of hops and the real name. The flags are only searched
with `find`, which takes any position. -/
def whoReply (ps : Parameters) : Except Misuse (List (List UInt8)) := do
  assert (8 ≤ ps.length)
  let iterator ← advanceBy ps 0 5
  let nick ← deref ps iterator
  let iterator ← next ps iterator
  let flags ← deref ps iterator
  let last ← back ps
  let hops ← substr last 0 (find last space 0)
  let realName ← substr last (match find last space 0 with
    | some position => position + 1
    | none => 0) none
  .ok [nick, flags, hops, realName]

def namReply (ps : Parameters) : Except Misuse (List (List UInt8)) := do
  let last ← back ps
  let list ← words last 0
  assert (3 ≤ ps.length)
  let _ ← advanceBy ps 0 2
  .ok list

open Codes in
def loggedReplies : List ℕ :=
  [rplWelcome, rplYourhost, rplCreated, rplMyinfo, rplProtoctl, rplSnomask, rplYourid,
    rplStatsdline, rplLuserclient, rplLuserop, rplLuserunknown, rplLuserchannels, rplLuserme,
    rplTryagain, rplLocalusers, rplGlobalusers, rplInviting]

open Codes in
def loggedErrors : List ℕ :=
  [rplEndofbanlist, rplMotd, rplMotdstart, rplEndofmotd, rplHosthidden, errNosuchnick,
    errUnknowncommand, errNomotd, errErroneusnickname, errNicknameinuse, errNotregistered,
    errNeedmoreparams, errAlreadyregistred, errYourebannedcreep, errBadchanname,
    errChanoprivsneeded, errUmodeunknownflag]

open Codes in
/-- Those of them that are shown as errors too. -/
def shownErrors : List ℕ :=
  [errNosuchnick, errUnknowncommand, errErroneusnickname, errNicknameinuse, errNotregistered,
    errAlreadyregistred, errYourebannedcreep, errBadchanname, errChanoprivsneeded,
    errUmodeunknownflag]

open Codes in
def reply (s : Session) (r : Record) (n : ℕ) : Except Misuse Session :=
  if n ∈ loggedReplies then do
    log r
    .ok s
  else if n = rplUserhost then do
    let _ ← userhost r.parameters
    .ok s
  else if n = rplUnaway ∨ n = rplNowaway then do
    log r
    .ok s
  else if n = rplEndofwho then do
    log r
    .ok { s with isFirstMessage := true }
  else if n = rplListstart ∨ n = rplListend then do
    log r
    .ok s
  else if n = rplList then do
    let _ ← listReply r.parameters
    .ok s
  else if n = rplNotopic ∨ n = rplTopic ∨ n = rplTopicwhotime then .ok s
  else if n = rplWhoreply then do
    let _ ← whoReply r.parameters
    .ok { s with isFirstMessage := false }
  else if n = rplNamreply then do
    let _ ← namReply r.parameters
    .ok s
  else if n = rplEndofnames then do
    let _ ← next r.parameters 0
    .ok s
  else if n ∈ loggedErrors then do
    log r
    if n ∈ shownErrors then error r
    .ok s
  else .ok s

def said (s : Session) (r : Record) (command : CommandType) : Except Misuse Session := do
  log r
  if r.prefix_.origin = s.nickName ∧ command = .quit then error r
  .ok s

def nick (s : Session) (r : Record) : Except Misuse Session := do
  let nickname ← front r.parameters
  said { s with nickName := nickname } r .nick

/-- What stands behind the condition in `JOIN` and `PART` that no braces follow. With
`GUI_SUPPORT` the condition guards a call of curses or an empty statement, else this. -/
def behindCondition (b : Build) (condition : Bool) (s s' : Session) : Session :=
  match b.guiSupport, b.cursesUse with
  | true, true => s'
  | true, false => s'
  | false, _ => if condition then s' else s

def join (b : Build) (s : Session) (r : Record) : Except Misuse Session :=
  if r.prefix_.origin = s.nickName then do
    let channel ← front r.parameters
    .ok (behindCondition b (decide (s.channel = []) && s.uiState) s { s with channel := channel })
  else do
    log r
    .ok s

def part (b : Build) (s : Session) (r : Record) : Except Misuse Session :=
  if r.prefix_.origin = s.nickName then do
    let _ ← front r.parameters
    .ok (behindCondition b (decide (s.channel ≠ []) && s.uiState) s { s with channel := [] })
  else do
    log r
    .ok s

def mode (s : Session) (r : Record) : Except Misuse Session := do
  log r
  let iterator ← next r.parameters 0
  let target ← front r.parameters
  if target = s.nickName then do
    let modes ← back r.parameters
    let merged ← Tools.mergeUser modes s.userModes
    .ok { s with userModes := merged.2 }
  else do
    let modes ← deref r.parameters iterator
    let merged ← Tools.mergeChannel modes s.channelModes
    .ok { s with channelModes := merged.2 }

/-- The text of the message, and whether it is a private one. -/
def privmsg (s : Session) (r : Record) : Except Misuse (List UInt8 × Bool) := do
  let last ← back r.parameters
  let sender :=
    if r.prefix_.origin = [] then [] else ascii "<" ++ r.prefix_.origin ++ ascii "> "
  let target ← front r.parameters
  .ok (sender ++ last, decide (s.nickName = target))

def command (b : Build) (s : Session) (r : Record) (c : CommandType) : Except Misuse Session :=
  match c with
  | .nick => nick s r
  | .user | .quit => said s r c
  | .join => join b s r
  | .part => part b s r
  | .mode => mode s r
  | .topic | .kick => do
    log r
    .ok s
  | .privmsg => do
    let _ ← privmsg s r
    .ok s
  | .notice | .error | .away => do
    log r
    if c = .error then error r
    .ok s
  | .ping => .ok s
  | _ => .ok s

def notify (b : Build) (s : Session) (r : Record) : Except Misuse Session :=
  match r.command with
  | .numeric n => reply s r n.toNat
  | .string c => command b s r (Tools.commandToType c)
  | .invalid => .ok s

def step (b : Build) (s : Session) (r : Record) : Option Session := (notify b s r).toOption

end Session

/-- A mode string: letters, each with the sign in front of it. -/
def applyModes {M : Type} [DecidableEq M] (toMode : UInt8 → Option M) :
    Bool → List UInt8 → Finset M → Finset M
  | _, [], modes => modes
  | sign, c :: cs, modes =>
    if c = Tools.plus then applyModes toMode true cs modes
    else if c = Tools.minus then applyModes toMode false cs modes
    else match toMode c with
      | some mode => applyModes toMode sign cs (Tools.set modes mode sign)
      | none => applyModes toMode sign cs modes

def Command.type : Command → CommandType
  | .string text => Tools.commandToType text
  | .numeric _ | .invalid => .invalid

/-- Who the session is, and where. -/
structure Own where
  nickName : List UInt8
  channel : List UInt8 := []
  userModes : Finset UserMode := ∅
  channelModes : Finset ChannelMode := ∅
  deriving DecidableEq

namespace Own

/-- A message from the own nickname renames it, or moves it to a channel or out of it. The modes
change with a message about the own nickname or about the channel. -/
def receive (o : Own) (r : Record) : Own :=
  match r.command.type, r.parameters with
  | .nick, nickname :: _ =>
    if r.prefix_.origin = o.nickName then { o with nickName := nickname } else o
  | .join, channel :: _ =>
    if r.prefix_.origin = o.nickName then { o with channel := channel } else o
  | .part, _ => if r.prefix_.origin = o.nickName then { o with channel := [] } else o
  | .mode, target :: modes :: _ =>
    if target = o.nickName then
      { o with userModes := applyModes Tools.charToUserMode true modes o.userModes }
    else if target = o.channel ∧ o.channel ≠ [] then
      { o with channelModes := applyModes Tools.charToChannelMode true modes o.channelModes }
    else o
  | _, _ => o

def after (nickname : List UInt8) (rs : List Record) : Own := rs.foldl receive { nickName := nickname }

end Own

def Session.own (s : Session) : Own := ⟨s.nickName, s.channel, s.userModes, s.channelModes⟩

/-- The session reads the messages one after the other, and then knows what they mean for it. -/
def Session.Tracks (b : Build) (nickname : List UInt8) (rs : List Record) : Prop :=
  ∃ s, Transition.exec (step b) (start nickname) rs = some s ∧ s.own = Own.after nickname rs

end ACENetwork.Irc
