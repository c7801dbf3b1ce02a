import Mathlib
import ACENetwork.Spec.Net.Connection

/-! The four receive handlers, and where the buffers go that they read into. The stream takes over
a buffer unless `stream_.put ()` returns -1. -/

namespace ACENetwork.Net

def errorWouldBlock : ℕ := 11

/-- How a receive ends: with this many bytes, with 0, or with -1 and `errno`. For a completion these
are its `bytes_transferred ()`. -/
inductive Received where
  | data (n : ℕ)
  | closed
  | failed (errno : ℕ)
  deriving DecidableEq, Repr

/-- The buffers of a connection, numbered as they were allocated. -/
structure Input where
  status : Status := .ok
  allocated : ℕ := 0
  -- buffers that the proactor is to read into
  reading : List ℕ := []
  taken : List ℕ := []
  released : List ℕ := []
  deriving DecidableEq, Repr

namespace Input

/-- `allocateMessage`. `memory` tells whether there is some. -/
def allocateMessage (s : Input) (memory : Bool) : Option ℕ × Input :=
  if memory then (some s.allocated, { s with allocated := s.allocated + 1 }) else (none, s)

def release (s : Input) (b : ℕ) : Input := { s with released := s.released ++ [b] }

def put (s : Input) (b : ℕ) : Input := { s with taken := s.taken ++ [b] }

def peerClosed (s : Input) : Input := { s with status := s.status.leave .peerClosed }

def handleInputTCP (s : Input) (memory : Bool) (r : Received) (put_ : Bool) : ℤ × Input :=
  match s.allocateMessage memory with
  | (none, s) => (-1, s)
  | (some b, s) =>
    match r with
    | .failed errno =>
      -- goto continue_
      if errno = errorWouldBlock then (0, s) else (-1, s.peerClosed.release b)
    | .closed => (-1, s.peerClosed.release b)
    | .data _ => if put_ then (0, s.put b) else (-1, s.release b)

def handleInputUDP (s : Input) (memory : Bool) (r : Received) (put_ : Bool) : ℤ × Input :=
  match s.allocateMessage memory with
  | (none, s) => (-1, s)
  | (some b, s) =>
    match r with
    | .failed _ => (-1, s.release b)
    | .closed => (-1, s.release b)
    | .data _ => if put_ then (0, s.put b) else (-1, s.release b)

/-- `initiate_read` of the two handlers. `read` tells whether the proactor accepts the read, when
it no longer returns EAGAIN. -/
def initiateRead (s : Input) (memory read : Bool) : Bool × Input :=
  match s.allocateMessage memory with
  | (none, s) => (false, s)
  | (some b, s) => if read then (true, { s with reading := s.reading ++ [b] }) else (false, s.release b)

def handleClose (s : Input) : Input :=
  if s.status ≠ .initializationFailed ∧ s.status ≠ .closed then { s with status := .peerClosed } else s

/-- `Net_AsynchStreamConnectionBase_T::handle_read_stream`, with the buffer of the completion. -/
def handleReadStream (s : Input) (b : ℕ) (r : Received) (put_ memory read : Bool) : Input :=
  let close := s.status = .closed
  match r with
  | .failed _ => (s.release b).handleClose
  | .closed => (s.release b).handleClose
  | .data _ =>
    if put_ then
      let s := s.put b
      if close then s.handleClose
      else
        match s.initiateRead memory read with
        | (true, s) => s
        | (false, s) => s.handleClose
    else (s.release b).handleClose

def handleReadDgram (s : Input) (b : ℕ) (r : Received) (put_ memory read : Bool) : Input :=
  match r with
  | .failed _ => (s.release b).handleClose
  | .closed => (s.release b).handleClose
  | .data _ =>
    if put_ then
      match (s.put b).initiateRead memory read with
      | (true, s) => s
      -- goto error
      | (false, s) => (s.release b).handleClose
    else (s.release b).handleClose

inductive Event where
  | inputTCP (memory : Bool) (r : Received) (put_ : Bool)
  | inputUDP (memory : Bool) (r : Received) (put_ : Bool)
  -- `open ()` starts the first read
  | start (memory read : Bool)
  | readStream (k : ℕ) (r : Received) (put_ memory read : Bool)
  | readDgram (k : ℕ) (r : Received) (put_ memory read : Bool)
  | close
  deriving DecidableEq, Repr

def step (s : Input) : Event → Option Input
  | .inputTCP memory r put_ => some (s.handleInputTCP memory r put_).2
  | .inputUDP memory r put_ => some (s.handleInputUDP memory r put_).2
  | .start memory read => some (s.initiateRead memory read).2
  | .readStream k r put_ memory read =>
    match s.reading[k]? with
    | none => none
    | some b => some ({ s with reading := s.reading.eraseIdx k }.handleReadStream b r put_ memory read)
  | .readDgram k r put_ memory read =>
    match s.reading[k]? with
    | none => none
    | some b => some ({ s with reading := s.reading.eraseIdx k }.handleReadDgram b r put_ memory read)
  | .close => some { s with status := s.status.leave .closed }

/-- The buffers that are being read into, and those that have changed hands. -/
def buffers (s : Input) : List ℕ := s.reading ++ s.taken ++ s.released

/-- Every buffer that was allocated is being read into, or was taken over by the stream, or was
released: one of the three, and once. -/
def Owned (s : Input) : Prop := s.buffers.Perm (List.range s.allocated)

/-- The exits that lose a buffer or release one that the stream has: no data for a TCP connection,
and no next read behind a datagram. -/
def ChangesHands (_ : Input) (e : Event) (_ : Input) : Prop :=
  match e with
  | .inputTCP memory r _ => memory = true → r ≠ .failed errorWouldBlock
  | .readDgram _ (.data _) put_ memory read => put_ = true → memory = true ∧ read = true
  | _ => True

end Input

end ACENetwork.Net
