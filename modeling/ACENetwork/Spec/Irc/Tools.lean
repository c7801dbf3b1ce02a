import Mathlib
import ACENetwork.Spec.Http.Record
import ACENetwork.Spec.Irc.Record

/-! What a session does with the parts of an `IRC_Record`: the standard library's lists, iterators
and strings with the uses that are not allowed, the commands and numbers by name, and `IRC_Tools`. -/

namespace ACENetwork.Irc

open Http (ascii)

/-- `IRC_Parameters_t`. -/
abbrev Parameters := List (List UInt8)

/-- What a session must not do with a message. -/
inductive Misuse where
  | assertion
  | emptyList
  -- an iterator is moved past the end, or what is there is read
  | pastEnd
  -- `substr` throws `std::out_of_range`
  | outOfRange
  deriving DecidableEq, Repr

def front (ps : Parameters) : Except Misuse (List UInt8) :=
  match ps.head? with
  | some p => .ok p
  | none => .error .emptyList

def back (ps : Parameters) : Except Misuse (List UInt8) :=
  match ps.getLast? with
  | some p => .ok p
  | none => .error .emptyList

def next (ps : Parameters) (iterator : ℕ) : Except Misuse ℕ :=
  if iterator < ps.length then .ok (iterator + 1) else .error .pastEnd

/-- `std::advance`. -/
def advanceBy (ps : Parameters) : ℕ → ℕ → Except Misuse ℕ
  | iterator, 0 => .ok iterator
  | iterator, n + 1 => do
    let iterator ← next ps iterator
    advanceBy ps iterator n

def deref (ps : Parameters) (iterator : ℕ) : Except Misuse (List UInt8) :=
  match ps[iterator]? with
  | some p => .ok p
  | none => .error .pastEnd

/-- `ACE_ASSERT`. -/
def assert (p : Prop) [Decidable p] : Except Misuse Unit := if p then .ok () else .error .assertion

def find (s : List UInt8) (c : UInt8) (position : ℕ) : Option ℕ :=
  ((s.drop position).findIdx? fun a => decide (a = c)).map (position + ·)

def substr (s : List UInt8) (position : ℕ) (n : Option ℕ) : Except Misuse (List UInt8) :=
  if s.length < position then .error .outOfRange else
  .ok (match n with
    | some n => (s.drop position).take n
    | none => s.drop position)

namespace Codes

def rplWelcome : ℕ := 1
def rplYourhost : ℕ := 2
def rplCreated : ℕ := 3
def rplMyinfo : ℕ := 4
def rplProtoctl : ℕ := 5
def rplSnomask : ℕ := 8
def rplYourid : ℕ := 20
def rplStatsdline : ℕ := 250
def rplLuserclient : ℕ := 251
def rplLuserop : ℕ := 252
def rplLuserunknown : ℕ := 253
def rplLuserchannels : ℕ := 254
def rplLuserme : ℕ := 255
def rplTryagain : ℕ := 263
def rplLocalusers : ℕ := 265
def rplGlobalusers : ℕ := 266
def rplUserhost : ℕ := 302
def rplUnaway : ℕ := 305
def rplNowaway : ℕ := 306
def rplEndofwho : ℕ := 315
def rplListstart : ℕ := 321
def rplList : ℕ := 322
def rplListend : ℕ := 323
def rplNotopic : ℕ := 331
def rplTopic : ℕ := 332
def rplTopicwhotime : ℕ := 333
def rplInviting : ℕ := 341
def rplWhoreply : ℕ := 352
def rplNamreply : ℕ := 353
def rplEndofnames : ℕ := 366
def rplBanlist : ℕ := 367
def rplEndofbanlist : ℕ := 368
def rplMotd : ℕ := 372
def rplMotdstart : ℕ := 375
def rplEndofmotd : ℕ := 376
def rplHosthidden : ℕ := 396
def errNosuchnick : ℕ := 401
def errUnknowncommand : ℕ := 421
def errNomotd : ℕ := 422
def errErroneusnickname : ℕ := 432
def errNicknameinuse : ℕ := 433
def errNotregistered : ℕ := 451
def errNeedmoreparams : ℕ := 461
def errAlreadyregistred : ℕ := 462
def errYourebannedcreep : ℕ := 465
def errBadchanname : ℕ := 479
def errChanoprivsneeded : ℕ := 482
def errUmodeunknownflag : ℕ := 501

end Codes

/-- `IRC_Record::CommandType`. -/
inductive CommandType where
  | pass | nick | user | server | oper | quit | squit | join | part | mode | topic | names | list
  | invite | kick | sversion | stats | links | time | connect | trace | admin | info | privmsg
  | notice | who | whois | whowas | kill | ping | pong | error | away | rehash | restart | summon
  | users | wallops | userhost | ison | invalid
  deriving DecidableEq, Repr

/-- `IRC_UserMode`. -/
inductive UserMode where
  | away | invisible | operator | localOperator | restrictedConn | recvNotices | recvWallops
  deriving DecidableEq, Repr

/-- `IRC_ChannelMode`. -/
inductive ChannelMode where
  | anonymous | ban | inviteOnly | password | userLimit | moderated | blockForeignMsgs | operator
  | private_ | quiet | reop | secret | restrictedTopic | voice
  deriving DecidableEq, Repr

namespace Tools

/-- The names in the order in which `CommandToType` compares them. -/
def commandNames : List (String × CommandType) :=
  [("PASS", .pass), ("NICK", .nick), ("USER", .user), ("SERVER", .server), ("OPER", .oper),
    ("QUIT", .quit), ("SQUIT", .squit), ("JOIN", .join), ("PART", .part), ("MODE", .mode),
    ("TOPIC", .topic), ("NAMES", .names), ("LIST", .list), ("INVITE", .invite), ("KICK", .kick),
    ("VERSION", .sversion), ("STATS", .stats), ("LINKS", .links), ("TIME", .time),
    ("CONNECT", .connect), ("TRACE", .trace), ("ADMIN", .admin), ("INFO", .info),
    ("PRIVMSG", .privmsg), ("NOTICE", .notice), ("WHO", .who), ("WHOIS", .whois),
    ("WHOWAS", .whowas), ("KILL", .kill), ("PING", .ping), ("PONG", .pong), ("ERROR", .error),
    ("AWAY", .away), ("REHASH", .rehash), ("RESTART", .restart), ("SUMMON", .summon),
    ("USERS", .users), ("WALLOPS", .wallops), ("USERHOST", .userhost), ("ISON", .ison)]

def commandToType (command : List UInt8) : CommandType :=
  match commandNames.find? fun entry => decide (command = ascii entry.1) with
  | some entry => entry.2
  | none => .invalid

def charToUserMode (mode : UInt8) : Option UserMode :=
  if mode = 97 then some .away
  else if mode = 105 then some .invisible
  else if mode = 111 then some .operator
  else if mode = 79 then some .localOperator
  else if mode = 114 then some .restrictedConn
  else if mode = 115 then some .recvNotices
  else if mode = 119 then some .recvWallops
  else none

def charToChannelMode (mode : UInt8) : Option ChannelMode :=
  if mode = 97 then some .anonymous
  else if mode = 98 then some .ban
  else if mode = 105 then some .inviteOnly
  else if mode = 107 then some .password
  else if mode = 108 then some .userLimit
  else if mode = 109 then some .moderated
  else if mode = 110 then some .blockForeignMsgs
  else if mode = 111 then some .operator
  else if mode = 112 then some .private_
  else if mode = 113 then some .quiet
  else if mode = 114 then some .reop
  else if mode = 115 then some .secret
  else if mode = 116 then some .restrictedTopic
  else if mode = 118 then some .voice
  else none

/-- `+`, `-` -/
def plus : UInt8 := 43
def minus : UInt8 := 45

/-- `std::bitset::set`. -/
def set {M : Type} [DecidableEq M] (modes : Finset M) (mode : M) (assign : Bool) : Finset M :=
  if assign then insert mode modes else modes.erase mode

/-- The body of the loop in `merge`, with the number of modes that were toggled. -/
def mergeChar {M : Type} [DecidableEq M] (toMode : UInt8 → Option M) (assign : Bool)
    (acc : ℕ × Finset M) (c : UInt8) : ℕ × Finset M :=
  match toMode c with
  | some mode =>
    (if decide (mode ∈ acc.2) = assign then acc.1 else acc.1 + 1, set acc.2 mode assign)
  | none => acc

/-- Both functions `merge`. The iterator of an empty string moves past its end at once. -/
def merge {M : Type} [DecidableEq M] (toMode : UInt8 → Option M) (modes : List UInt8)
    (modes_inout : Finset M) : Except Misuse (ℕ × Finset M) :=
  match modes with
  | [] => .error .pastEnd
  | c :: cs => .ok (cs.foldl (mergeChar toMode (decide (c = plus))) (0, modes_inout))

def mergeUser (modes : List UInt8) (modes_inout : Finset UserMode) :
    Except Misuse (ℕ × Finset UserMode) := merge charToUserMode modes modes_inout

def mergeChannel (modes : List UInt8) (modes_inout : Finset ChannelMode) :
    Except Misuse (ℕ × Finset ChannelMode) := merge charToChannelMode modes modes_inout

/-- The loop in `stringify`. -/
def stringifyFrom (ps : Parameters) : List UInt8 := ps.flatMap fun p => p ++ [space]

/-- An index of `none` is -1, for the last parameter. -/
def stringify (ps : Parameters) (index : Option ℕ) : Except Misuse (List UInt8) :=
  if ps = [] then .ok [] else
  match index with
  | none => back ps
  | some index =>
    if ps.length - 1 < index then .ok [] else do
      let iterator ← advanceBy ps 0 index
      let result := stringifyFrom (ps.drop iterator)
      .ok (if index < ps.length - 1 then result.dropLast else result)

/-- Who joined or left a channel, up to the channel. -/
def joinText (p : Prefix) (verb : String) : List UInt8 :=
  ascii "\"" ++ p.origin ++ ascii "\" (" ++ p.user ++ ascii "@" ++ p.host ++ ascii verb

def stringToString (p : Prefix) (ps : Parameters) (command : CommandType) :
    Except Misuse (List UInt8) :=
  match command with
  | .nick => do
    let last ← back ps
    .ok (p.origin ++ ascii " --> " ++ last)
  | .quit => do
    let last ← back ps
    .ok (p.origin ++ ascii " has QUIT IRC (reason: \"" ++ last ++ ascii "\")")
  | .join => do
    let last ← back ps
    .ok (joinText p ") has joined channel \"" ++ last ++ ascii "\"")
  | .part => do
    let channel ← deref ps 0
    let result := joinText p ") has left channel \"" ++ channel
    if 2 ≤ ps.length then do
      let iterator ← next ps 0
      let reason ← deref ps iterator
      .ok (result ++ ascii "\" (reason: \"" ++ reason ++ ascii "\")")
    else .ok (result ++ ascii "\"")
  | .notice => stringify ps (some 1)
  | .mode | .topic | .invite | .kick | .error | .away | .users | .userhost => stringify ps (some 0)
  | _ => .ok []

open Codes in
/-- The numbers whose text is the last parameter. -/
def lastReplies : List ℕ :=
  [rplWelcome, rplYourhost, rplCreated, rplLuserclient, rplLuserme, rplTryagain, rplLocalusers,
    rplGlobalusers, rplUnaway, rplNowaway, rplEndofbanlist, rplMotd, rplMotdstart, rplEndofmotd,
    errNomotd, errAlreadyregistred, errYourebannedcreep, errChanoprivsneeded]

open Codes in
/-- The numbers whose text starts at the second parameter. -/
def secondReplies : List ℕ :=
  [rplMyinfo, rplProtoctl, rplSnomask, rplYourid, rplStatsdline, rplLuserop, rplLuserunknown,
    rplLuserchannels, rplUserhost, rplListstart, rplList, rplListend, rplInviting, errNosuchnick,
    errErroneusnickname, errNicknameinuse, errNotregistered, errNeedmoreparams, errBadchanname,
    errUmodeunknownflag]

def numericToString (ps : Parameters) (n : ℕ) : Except Misuse (List UInt8) :=
  if n ∈ lastReplies then stringify ps none
  else if n = Codes.rplBanlist then stringify ps (some 0)
  else if n ∈ secondReplies then stringify ps (some 1)
  else if n = Codes.rplEndofwho then stringify ps (some 2)
  else if n = Codes.rplWhoreply then stringify ps (some 5)
  else .ok []

/-- `dump_state ()` of the record, for the commands without a text, cannot fail. -/
def recordToString (r : Record) : Except Misuse (List UInt8) :=
  match r.command with
  | .string s => stringToString r.prefix_ r.parameters (commandToType s)
  | .numeric n => numericToString r.parameters n.toNat
  | .invalid => .ok []

end Tools

end ACENetwork.Irc
