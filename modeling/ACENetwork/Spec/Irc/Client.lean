import Mathlib
import ACENetwork.Spec.Irc.Transport
import ACENetwork.Spec.Irc.Session

/-! A client from the connection to the session: what the parser at the end of the stream passes on
is what `IRC_Session_T::notify` is called with. -/

namespace ACENetwork.Irc.Client

open Bisector Transport

/-- The session is in this state when its stream was given these fragments. -/
def Knows (b : Build) (nickname : List UInt8) (capacity : ℕ) (fs : List Fragment) (s : Session) : Prop :=
  ∃ records, Receives capacity fs records ∧
    Transition.exec (Session.step b) (Session.start nickname) records = some s

/-- After every fragment, the session knows what the messages that came completely mean for it. -/
def Follows (b : Build) (nickname : List UInt8) (capacity : ℕ) (rs : List Record)
    (texts : List (List UInt8)) (fs : List Fragment) : Prop :=
  ∀ gs, gs <+: fs → ∃ k rest, bytes gs = (texts.take k).flatten ++ rest ∧
    (∀ t ∈ texts[k]?, rest.length < t.length) ∧ (∃ s, Knows b nickname capacity gs s) ∧
    ∀ s, Knows b nickname capacity gs s → s.own = Own.after nickname (rs.take k)

end ACENetwork.Irc.Client
