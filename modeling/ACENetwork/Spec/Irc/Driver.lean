import Mathlib
import ACENetwork.Spec.Irc.Parser

/-! An `IRC_ParserDriver` from one frame to the next: `initialize` with a new record and `parse`.
Each frame has a new scan buffer and a new parser stack. The scanner is that of the driver, and
its start condition stays what the last frame left. -/

namespace ACENetwork.Irc

open Bison

structure Driver where
  start : Start := .initial
  messageCount : ℕ := 0
  deriving DecidableEq, Repr

namespace Driver

def Halts (d : Driver) (frame : List UInt8) (r : Result Fault State) : Prop :=
  parser.Halts (Parser.start ⟨d.start, frame, d.messageCount, {}⟩) r

/-- The result and the record of `initialize` and `parse`. -/
def Parses (d : Driver) (frame : List UInt8) (p : Parsed) : Prop := ∃ r, d.Halts frame r ∧ p = parsed r

/-- The drivers that a new one becomes when it is given some frames. -/
inductive After : List (List UInt8) → Driver → Prop where
  | new : After [] {}
  | parse {frames : List (List UInt8)} {frame : List UInt8} {d : Driver} {code : Code} {s : State}
    (h : After frames d) (hp : d.Halts frame (.returned code s)) :
    After (frames ++ [frame]) ⟨s.start, s.messageCount⟩

/-- Whatever was parsed before it, a frame has the result and the record that a new driver has
for it. -/
def Isolated (before : List (List UInt8)) (frame : List UInt8) : Prop :=
  ∀ d, After before d → ∀ p, d.Parses frame p ↔ ({} : Driver).Parses frame p

end Driver

end ACENetwork.Irc
