import Mathlib
import ACENetwork.Spec.Irc.Bisector
import ACENetwork.Spec.Irc.ModuleParser
import ACENetwork.Spec.Irc.Driver
import ACENetwork.Spec.Irc.Wire

/-! The way of messages from one `IRC_Stream_T` to another: what the streamer writes comes in any
fragments, the bisector makes frames of them, and the parser, which has one driver, a record of
each frame. -/

namespace ACENetwork.Irc

open Bison Bisector ModuleParser

def written (capacity : ℕ) (rs : List Record) : Except Streamer.Failure (List (List UInt8)) :=
  rs.mapM fun r => do
    let m ← Streamer.handleDataMessage r (MessageBlock.allocate capacity)
    pure m.content

namespace Transport

/-- The parser is given the chains that the bisector pushes, one after the other. The records are
those of the messages that it passes on. -/
inductive Delivers (capacity : ℕ) : Driver → List Chain → List Record → Prop where
  | nil (d : Driver) : Delivers capacity d [] []
  | cons {d : Driver} {block fragment : List UInt8} {cont : List (List UInt8)} {chains : List Chain}
    {code : Code} {s : State} {records passed : List Record}
    (hs : scanned capacity true block cont = .ok fragment)
    (hp : d.Halts fragment (.returned code s))
    (hh : handled (parsed (.returned code s)) = .passed passed)
    (h : Delivers capacity ⟨s.start, s.messageCount⟩ chains records) :
    Delivers capacity d ((block :: cont) :: chains) (passed ++ records)

/-- The records behind the parser when a new stream was given these fragments. -/
def Receives (capacity : ℕ) (fs : List Fragment) (records : List Record) : Prop :=
  ∃ m, Transition.exec Module.step {} fs = some m ∧ Delivers capacity {} m.pushed records

/-- None of the texts begins with a fragment of one byte. -/
def NoneAlone (texts : List (List UInt8)) (fs : List Fragment) : Prop :=
  ∀ i < texts.length, ∀ gs f hs, fs = gs ++ f :: hs → bytes gs = (texts.take i).flatten →
    1 < f.bytes.length

/-- After every fragment, the messages that came completely have been delivered, and nothing
else. -/
def Transports (capacity : ℕ) (rs : List Record) (texts : List (List UInt8)) (fs : List Fragment) : Prop :=
  ∀ gs, gs <+: fs → ∃ k rest, bytes gs = (texts.take k).flatten ++ rest ∧
    (∀ t ∈ texts[k]?, rest.length < t.length) ∧
    ∀ records, Receives capacity gs records ↔ records = rs.take k

/-- The start condition behind a message. Behind a prefix, only parameters lead back to the
initial one. -/
def startBehind (c : Start) (r : Record) : Start :=
  if r.parameters = [] ∧ (c = .command ∨ r.prefix_ ≠ {}) then .command else .initial

/-- Each message with a prefix is read from the initial start condition. -/
def Readable : Start → List Record → Prop
  | _, [] => True
  | c, r :: rs => (c = .initial ∨ r.prefix_ = {}) ∧ Readable (startBehind c r) rs

instance decidableReadable : ∀ (c : Start) (rs : List Record), Decidable (Readable c rs)
  | _, [] => isTrue trivial
  | c, r :: rs =>
    have := decidableReadable (startBehind c r) rs
    inferInstanceAs (Decidable ((c = .initial ∨ r.prefix_ = {}) ∧ Readable (startBehind c r) rs))

end Transport

end ACENetwork.Irc
