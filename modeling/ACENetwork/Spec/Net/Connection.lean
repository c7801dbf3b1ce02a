import Mathlib

/-! What the connection classes share: the status of a connection, its message blocks, and the
results of the calls that they make. -/

namespace ACENetwork.Net

inductive Status where
  | invalid
  | ok
  | initializationFailed
  | closed
  | peerClosed
  deriving DecidableEq, Repr

def Status.leave (s status : Status) : Status := if s = .ok then status else s

/-- A single message block, by its number in the order of the queue: the bytes between its `rd_ptr`
and its `wr_ptr`. -/
structure NumberedBlock where
  id : ℕ
  data : List UInt8
  deriving DecidableEq, Repr

def NumberedBlock.advance (b : NumberedBlock) (n : ℕ) : NumberedBlock := { b with data := b.data.drop n }

/-- How `stream_.get ()` is to end. It blocks where there is no block to get. -/
inductive Get where
  | block
  | failed
  deriving DecidableEq, Repr

/-- What the socket returns for the data it is given: the number of bytes sent, 0 or -1. The last
two do not tell what was sent before. -/
inductive Sent where
  | bytes (n : ℕ)
  | closed (before : ℕ)
  | failed (before : ℕ)
  deriving DecidableEq, Repr

end ACENetwork.Net
