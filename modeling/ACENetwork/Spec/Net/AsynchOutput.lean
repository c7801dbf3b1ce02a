import Mathlib
import ACENetwork.Library.Outlet
import ACENetwork.Spec.Net.Connection

/-! The output of `Net_AsynchTCPConnectionBase_T`. `handle_output ()` starts a write for a message
of the stream. The proactor makes the writes in the order in which it accepted them, and calls
`handle_write_stream ()` for each of them, by any of its threads. -/

namespace ACENetwork.Net

/-- `ACE_Asynch_Write_Stream::write` accepts the write, or returns -1 with `errno` EAGAIN or
another one. -/
inductive WriteResult where
  | accepted
  | again
  | failed
  deriving DecidableEq, Repr

def defaultSendRetries : ℕ := 10

/-- The members of the connection that its output uses, and what is around it. -/
structure AsynchOutput where
  queue : List NumberedBlock := []
  counter : ℤ := 0
  references : ℤ
  -- the writes that the proactor has accepted and not made
  accepted : List NumberedBlock := []
  -- the writes that are made, with the bytes that they sent, before `handle_write_stream ()`
  made : List (NumberedBlock × ℕ) := []
  messages : List (List UInt8) := []
  sent : List UInt8 := []
  released : List ℕ := []
  broken : Bool := false
  deriving DecidableEq, Repr

namespace AsynchOutput

def inFlight (s : AsynchOutput) : List NumberedBlock := s.made.map Prod.fst ++ s.accepted

def increase (s : AsynchOutput) : AsynchOutput := { s with references := s.references + 1 }

def decrease (s : AsynchOutput) : AsynchOutput := { s with references := s.references - 1 }

def release (s : AsynchOutput) (b : NumberedBlock) : AsynchOutput :=
  { s with released := s.released ++ [b.id] }

/-- From the label `send`, with `left` retries left: whether the write is accepted. `results` are
those of the attempts. -/
def send (results : ℕ → WriteResult) (retries : ℕ) : ℕ → Bool
  | 0 => results retries = .accepted
  | left + 1 =>
    match results retries with
    | .accepted => true
    | .again => send results (retries + 1) left
    | .failed => false

/-- `Net_AsynchTCPConnectionBase_T::handle_output`. There is no result where the dequeue blocks. -/
def handleOutput (s : AsynchOutput) (g : Get) (results : ℕ → WriteResult) : Option (ℤ × AsynchOutput) :=
  match g with
  | .failed => some (-1, s)
  | .block =>
    match s.queue with
    | [] => none
    | b :: queue =>
      let s := { s with queue := queue }
      -- start (asynchronous) write
      let s := { s.increase with counter := s.counter + 1 }
      if send results 0 defaultSendRetries then some (0, { s with accepted := s.accepted ++ [b] })
      else
        let s := { s with broken := true }
        some (-1, { (s.release b).decrease with counter := s.counter - 1 })

/-- `Net_AsynchTCPSocketHandler_T::handle_write_stream`, for a block whose read pointer is where
`n` bytes have gone. `cancel ()` only asks the proactor to let the other writes fail. -/
def handleWriteStreamBase (s : AsynchOutput) (b : NumberedBlock) (n : ℕ) (rewrite : WriteResult) :
    AsynchOutput :=
  let s :=
    if n = 0 then { s with broken := true }.release b
    -- the rest is written, and nobody looks at the result
    else if b.data ≠ [] then
      if rewrite = .accepted then { s with accepted := s.accepted ++ [b] } else { s with broken := true }
    else s.release b
  { s with counter := s.counter - 1 }

def handleWriteStream (s : AsynchOutput) (b : NumberedBlock) (n : ℕ) (rewrite : WriteResult) :
    AsynchOutput :=
  (s.handleWriteStreamBase b n rewrite).decrease

inductive Event where
  | put (message : List UInt8)
  | handleOutput (g : Get) (results : ℕ → WriteResult)
  -- the proactor makes the next write, or that fails, with 0 bytes
  | write (n : ℕ)
  | complete (k : ℕ) (rewrite : WriteResult)

def step (s : AsynchOutput) : Event → Option AsynchOutput
  | .put message =>
    some { s with
      queue := s.queue ++ [⟨s.messages.length, message⟩]
      messages := s.messages ++ [message] }
  | .handleOutput g results => (s.handleOutput g results).map Prod.snd
  | .write n =>
    match s.accepted with
    | [] => none
    | b :: accepted =>
      if n ≤ b.data.length then
        some { s with
          accepted := accepted
          made := s.made ++ [(b.advance n, n)]
          sent := s.sent ++ b.data.take n
          broken := s.broken || n == 0 }
      else none
  | .complete k rewrite =>
    match s.made[k]? with
    | none => none
    | some (b, n) => some ({ s with made := s.made.eraseIdx k }.handleWriteStream b n rewrite)

/-- The messages go out in their order, every block is released once and not before its last write,
and the counter and the references tell how many writes are under way, such that a counter of 0
means that the kernel has everything but what is still in the queue. -/
structure Accounted (references : ℤ) (s : AsynchOutput) : Prop where
  sent : s.sent <+: s.messages.flatten
  once : (s.released ++ (s.inFlight ++ s.queue).map NumberedBlock.id).Perm (List.range s.messages.length)
  counter : s.counter = s.inFlight.length
  references : s.references = references + s.inFlight.length
  idle : s.counter = 0 → s.inFlight = [] ∧
    (s.broken = false → s.sent ++ (s.queue.map NumberedBlock.data).flatten = s.messages.flatten)

/-- A write sends the whole block or nothing, and it sends nothing behind one that failed or was
not accepted. -/
def WritesWhole (s : AsynchOutput) (e : Event) (_ : AsynchOutput) : Prop :=
  match e with
  | .write n => n ≠ 0 → s.broken = false ∧ ∃ b ∈ s.accepted.head?, n = b.data.length
  | _ => True

instance (s : AsynchOutput) : ∀ (e : Event) (s' : AsynchOutput), Decidable (WritesWhole s e s')
  | .write _, _ => inferInstanceAs (Decidable (_ → _ ∧ ∃ b ∈ s.accepted.head?, _))
  | .put _, _ => inferInstanceAs (Decidable True)
  | .handleOutput _ _, _ => inferInstanceAs (Decidable True)
  | .complete _ _, _ => inferInstanceAs (Decidable True)

end AsynchOutput

end ACENetwork.Net
