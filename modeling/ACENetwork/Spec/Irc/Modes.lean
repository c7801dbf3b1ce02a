import Mathlib
import ACENetwork.Library.Switches
import ACENetwork.Spec.Irc.Tools

/-! `IRC_Tools::dump` of modes and the letters of the modes, and what a mode string of several
groups is to do. -/

namespace ACENetwork.Irc

def UserMode.all : List UserMode :=
  [.away, .invisible, .operator, .localOperator, .restrictedConn, .recvNotices, .recvWallops]

def ChannelMode.all : List ChannelMode :=
  [.anonymous, .ban, .inviteOnly, .password, .userLimit, .moderated, .blockForeignMsgs, .operator,
    .private_, .quiet, .reop, .secret, .restrictedTopic, .voice]

namespace Tools

/-- A mode without a case is a space. -/
def channelModeToChar : ChannelMode → UInt8
  | .password => 107
  | .voice => 118
  | .ban => 98
  | .userLimit => 108
  | .moderated => 109
  | .blockForeignMsgs => 110
  | .restrictedTopic => 116
  | .inviteOnly => 105
  | .secret => 115
  | .private_ => 112
  | .operator => 111
  | _ => space

def userModeToChar : UserMode → UInt8
  | .localOperator => 79
  | .operator => 111
  | .restrictedConn => 114
  | .recvWallops => 119
  | .recvNotices => 115
  | .invisible => 105
  | .away => 97

def dump {M : Type} [DecidableEq M] (all : List M) (toChar : M → UInt8) (modes : Finset M) :
    List UInt8 :=
  plus :: (all.filter fun mode => decide (mode ∈ modes)).map toChar

def dumpUser (modes : Finset UserMode) : List UInt8 := dump UserMode.all userModeToChar modes

def dumpChannel (modes : Finset ChannelMode) : List UInt8 :=
  dump ChannelMode.all channelModeToChar modes

end Tools

/-- A part of a mode string: the sign, `+` if `assign`, and the letters behind it. -/
structure ModeGroup where
  assign : Bool
  letters : List UInt8
  isLetter : ∀ c ∈ letters, c ≠ Tools.plus ∧ c ≠ Tools.minus

namespace ModeGroup

def text (g : ModeGroup) : List UInt8 :=
  (if g.assign then Tools.plus else Tools.minus) :: g.letters

def join (gs : List ModeGroup) : List UInt8 := gs.flatMap text

/-- The modes of the letters that are known, each with the sign of its group. -/
def assignments {M : Type} (toMode : UInt8 → Option M) (gs : List ModeGroup) : List (M × Bool) :=
  gs.flatMap fun g => g.letters.filterMap fun c => (toMode c).map fun mode => (mode, g.assign)

/-- What the groups are to do: the number of letters that change a mode, and the modes. -/
def meant {M : Type} [DecidableEq M] (toMode : UInt8 → Option M) (gs : List ModeGroup)
    (modes : Finset M) : ℕ × Finset M :=
  Switches.run (assignments toMode gs) modes

/-- No mode is asked for under the other sign than the first one, except for a mode that is at that
value already, before its first letter under the first sign and not behind it. -/
def KeepsSign {M : Type} [DecidableEq M] (toMode : UInt8 → Option M) (g : ModeGroup)
    (gs : List ModeGroup) (modes : Finset M) : Prop :=
  ∀ mode, Switches.Settles g.assign (decide (mode ∈ modes))
    (Switches.valuesOf mode (assignments toMode (g :: gs)))

end ModeGroup

end ACENetwork.Irc
