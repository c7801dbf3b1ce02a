import Mathlib
import ACENetwork.Library.Outlet
import ACENetwork.Spec.Net.Connection

/-! The output of the reactor connections. A message goes to the queue of the stream, whose
notification strategy is the connection: `notify ()` takes a reference and has the reactor call
`handle_output ()`, by any of its threads. The handlers hold `sendLock_` all along. -/

namespace ACENetwork.Net

/-- The members of a connection that its output uses, and what is around it. -/
structure Output where
  queue : List NumberedBlock := []
  writeBuffer : Option NumberedBlock := none
  references : ℤ
  status : Status := .ok
  -- messages in the queue that `notify ()` has not been called for
  unnotified : ℕ := 0
  -- calls of `handle_output ()` that the reactor has still to make
  pending : ℕ := 0
  messages : List (List UInt8) := []
  sent : List UInt8 := []
  released : List ℕ := []
  broken : Bool := false
  -- calls of `handle_output ()` that did not come, or not to a block
  missed : ℕ := 0
  deriving DecidableEq, Repr

namespace Output

/-- `Net_StreamConnectionBase_T::notify`. The call of the reactor may fail. -/
def notify (s : Output) (ok : Bool) : Output :=
  let s := { s with references := s.references + 1 }
  if ok then { s with pending := s.pending + 1 } else { s with missed := s.missed + 1 }

def decrease (s : Output) : Output := { s with references := s.references - 1 }

def release (s : Output) (b : NumberedBlock) : Output :=
  { s with released := s.released ++ [b.id], writeBuffer := none }

inductive Dequeued where
  | blocked
  | failed
  | block (b : NumberedBlock) (s : Output)

def get (s : Output) : Get → Dequeued
  | .failed => .failed
  | .block =>
    match s.queue with
    | [] => .blocked
    | b :: queue => .block b { s with queue := queue }

def breakOff (s : Output) (b : NumberedBlock) (before : ℕ) : Output :=
  { s with
    status := s.status.leave .peerClosed
    sent := s.sent ++ b.data.take before
    broken := true }

/-- `Net_TCPConnectionBase_T::handle_output` from `continue_`, with `writeBuffer_` set to `b`. No
socket takes more bytes than there are. -/
def place (s : Output) (b : NumberedBlock) : Sent → Option (ℤ × Output)
  | .failed before => some (-1, (s.breakOff b before).release b)
  | .closed before => some (-1, (s.breakOff b before).release b)
  | .bytes n =>
    if 0 < n ∧ n ≤ b.data.length then
      let s := { s with sent := s.sent ++ b.data.take n }
      let b := b.advance n
      -- there is more data: 'this' is rescheduled
      if b.data ≠ [] then some (1, { s with writeBuffer := some b }.decrease)
      else some (0, (s.release b).decrease)
    else none

/-- `Net_TCPConnectionBase_T::handle_output`. There is no result where the dequeue blocks. -/
def handleOutputTCP (s : Output) (g : Get) (r : Sent) : Option (ℤ × Output) :=
  match s.writeBuffer with
  | some b => s.place b r
  | none =>
    match s.get g with
    | .blocked => none
    | .failed => some (-1, { s with missed := s.missed + 1 })
    | .block b s => s.place b r

/-- `Net_UDPConnectionBase_T::handle_output`, with the assertion that a datagram is sent whole. -/
def handleOutputUDP (s : Output) (g : Get) (r : Sent) : Option (ℤ × Output) :=
  match s.get g with
  | .blocked => none
  | .failed => some (-1, { s with missed := s.missed + 1 })
  | .block b s =>
    match r with
    | .failed _ => some (-1, { s with broken := true }.release b)
    | .closed _ => some (-1, { s with broken := true }.release b)
    | .bytes n =>
      if 0 < n ∧ n ≤ b.data.length then
        let s := { s with sent := s.sent ++ b.data.take n }
        let b := b.advance n
        -- ACE_ASSERT (!message_block_p->length ())
        if b.data = [] then some (0, s.release b) else none
      else none

inductive Transport where
  | tcp
  | udp
  deriving DecidableEq, Repr

def handleOutput : Transport → Output → Get → Sent → Option (ℤ × Output)
  | .tcp => handleOutputTCP
  | .udp => handleOutputUDP

inductive Event where
  | put (message : List UInt8)
  | notify (ok : Bool)
  -- a thread of the reactor makes one of the calls that are due
  | dispatch (g : Get) (r : Sent)
  deriving DecidableEq, Repr

def step (t : Transport) (s : Output) : Event → Option Output
  | .put message =>
    some { s with
      queue := s.queue ++ [⟨s.messages.length, message⟩]
      messages := s.messages ++ [message]
      unnotified := s.unnotified + 1 }
  | .notify ok =>
    if s.unnotified = 0 then none else
    some { s.notify ok with unnotified := s.unnotified - 1 }
  | .dispatch g r =>
    if s.pending = 0 then none else
    match handleOutput t s g r with
    | none => none
    | some (result, s') => some { s' with pending := s.pending - 1 + if result = 1 then 1 else 0 }

/-- The blocks that are not released: the one half sent, and those in the queue. -/
def unsent (s : Output) : List NumberedBlock := s.writeBuffer.toList ++ s.queue

def outlet (s : Output) : Outlet.State UInt8 where
  messages := s.messages
  sent := s.sent
  waiting := s.unsent.map NumberedBlock.data
  gap := s.broken

/-- The messages go out in their order, up to a send that failed, every block is released once, and
there is a block to send for every call that the reactor has still to make. -/
structure SendsInOrder (s : Output) : Prop where
  sent : s.sent <+: s.messages.flatten
  ends : s.broken = false → s.sent ++ (s.unsent.map NumberedBlock.data).flatten = s.messages.flatten
  once : (s.released ++ s.unsent.map NumberedBlock.id).Perm (List.range s.messages.length)
  ready : 0 < s.pending → s.writeBuffer = none → s.queue ≠ []
  done : s.pending = 0 → s.unnotified = 0 → s.missed = 0 → s.unsent = []

/-- Nothing is sent behind a send that failed. -/
def NothingBehind (s : Output) (e : Event) (_ : Output) : Prop :=
  match e with
  | .dispatch _ (.bytes _) => s.broken = false
  | .dispatch _ (.closed before) => s.broken = true → before = 0
  | .dispatch _ (.failed before) => s.broken = true → before = 0
  | _ => True

instance (s : Output) : ∀ (e : Event) (s' : Output), Decidable (NothingBehind s e s')
  | .dispatch _ (.bytes _), _ => inferInstanceAs (Decidable (_ = _))
  | .dispatch _ (.closed _), _ => inferInstanceAs (Decidable (_ → _))
  | .dispatch _ (.failed _), _ => inferInstanceAs (Decidable (_ → _))
  | .put _, _ => inferInstanceAs (Decidable True)
  | .notify _, _ => inferInstanceAs (Decidable True)

/-- The references are those that there were before, and more only while calls are due. -/
def Keeps (references : ℤ) (s : Output) : Prop :=
  references ≤ s.references ∧ (s.pending = 0 → s.references = references)

/-- The reactor is notified, and the socket of a TCP connection takes every block whole. -/
def SendsWhole (t : Transport) (s : Output) (e : Event) (_ : Output) : Prop :=
  match e with
  | .put _ => True
  | .notify ok => ok = true
  | .dispatch g r =>
    t = .tcp ∧ g = .block ∧ ∃ b ∈ s.unsent.head?, r = .bytes b.data.length

instance (references : ℤ) (s : Output) : Decidable (s.Keeps references) :=
  inferInstanceAs (Decidable (_ ∧ (_ → _)))

instance (t : Transport) (s : Output) : ∀ (e : Event) (s' : Output), Decidable (SendsWhole t s e s')
  | .put _, _ => inferInstanceAs (Decidable True)
  | .notify _, _ => inferInstanceAs (Decidable (_ = _))
  | .dispatch _ _, _ => inferInstanceAs (Decidable (_ ∧ _ ∧ ∃ b ∈ s.unsent.head?, _))

end Output

end ACENetwork.Net
