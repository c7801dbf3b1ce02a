import Mathlib

/-! `Net_Client_AsynchConnector_T`: any number of threads in `connect ()` and `wait ()`, and the
completions of the connects that were accepted. A step is one critical section, or what a thread
does between two of them. -/

namespace ACENetwork.Net

/-- How far `handle_connect ()` is with an accepted connect. -/
inductive Completing where
  | pending
  -- `validate_connection ()` has stored the result
  | recorded
  | signalled
  | returned
  -- the socket was closed, by `handle_connect ()` or by the connection that it was handed to
  | closed
  deriving DecidableEq, Repr

structure Attempt (H : Type) where
  handle : H
  completing : Completing := .pending
  -- 0, or the error code of the completion
  disposition : ℤ := 0

/-- What a thread is to do next. Attempts are numbered as they are accepted, and the entries of
`handles_` as they are made. -/
inductive Connecting (H : Type) where
  | idle
  | setsockopt (socket_h : H)
  | insert (socket_h : H)
  | connect (socket_h : H)
  | closesocket (socket_h : H)
  | erase (socket_h : H)
  | connected (attempt : ℕ)
  -- in `condition_.wait ()`, with the entry that its iterator refers to
  | blocked (attempt : ℕ) (iterator : ℕ)
  -- on the way out of it, without the lock
  | woken (attempt : ℕ) (iterator : ℕ)
  -- `wait ()` has returned. There is no result when the entry was gone
  | answered (attempt : ℕ) (result : Option ℤ)
  deriving DecidableEq, Repr

/-- The socket that a thread has in its local variable and is answerable for. -/
def Connecting.socket {H : Type} : Connecting H → Option H
  | .setsockopt h | .insert h | .connect h | .closesocket h => some h
  | _ => none

def Connecting.signal {H : Type} : Connecting H → Connecting H
  | .blocked c n => .woken c n
  | k => k

structure AsynchConnector (ι H : Type) where
  handles : H → Option (ℕ × ℤ) := fun _ => none
  entries : ℕ := 0
  sockets : H → Bool := fun _ => false
  attempts : ℕ → Option (Attempt H) := fun _ => none
  accepted : ℕ := 0
  threads : ι → Connecting H := fun _ => .idle

namespace AsynchConnector

inductive Event (ι H : Type) where
  -- a thread calls `connect ()`, and `ACE_OS::socket ()` hands out a handle that is not open
  | socket (t : ι) (socket_h : H)
  | setsockopt (t : ι) (ok : Bool)
  | insert (t : ι)
  | connect (t : ι) (ok : Bool)
  | closesocket (t : ι)
  | erase (t : ι)
  -- `wait ()`, up to `condition_.wait ()`
  | wait (t : ι)
  -- `condition_.wait ()` returns without a signal
  | wake (t : ι)
  -- the rest of `wait ()`, with the lock
  | resume (t : ι)
  | validate (attempt : ℕ) (success : Bool) (error : ℤ)
  | broadcast (attempt : ℕ)
  -- `onConnect ()`, and the end of `validate_connection ()`
  | onConnect (attempt : ℕ)
  | close (attempt : ℕ)

variable {ι H : Type} [DecidableEq ι] [DecidableEq H]

def goto (s : AsynchConnector ι H) (t : ι) (k : Connecting H) : AsynchConnector ι H :=
  { s with threads := Function.update s.threads t k }

def complete (s : AsynchConnector ι H) (c : ℕ) (a : Attempt H) : AsynchConnector ι H :=
  { s with attempts := Function.update s.attempts c (some a) }

/-- One step. There is none where the thread, or the attempt, is not there to take it. -/
def step (s : AsynchConnector ι H) : Event ι H → Option (AsynchConnector ι H)
  | .socket t h =>
    match s.threads t, s.sockets h with
    | .idle, false | .answered _ _, false =>
      some { s.goto t (.setsockopt h) with sockets := Function.update s.sockets h true }
    | _, _ => none
  | .setsockopt t ok =>
    match s.threads t with
    | .setsockopt h => some (s.goto t (if ok then .insert h else .closesocket h))
    | _ => none
  | .insert t =>
    match s.threads t with
    | .insert h =>
      -- an entry that is there stays as it is
      match s.handles h with
      | some _ => some (s.goto t (.connect h))
      | none =>
        some { s.goto t (.connect h) with
          handles := Function.update s.handles h (some (s.entries, -1))
          entries := s.entries + 1 }
    | _ => none
  | .connect t ok =>
    match s.threads t with
    | .connect h =>
      if ok then
        some { (s.goto t (.connected s.accepted)).complete s.accepted { handle := h } with
          accepted := s.accepted + 1 }
      else some (s.goto t (.closesocket h))
    | _ => none
  | .closesocket t =>
    match s.threads t with
    | .closesocket h => some { s.goto t (.erase h) with sockets := Function.update s.sockets h false }
    | _ => none
  | .erase t =>
    match s.threads t with
    | .erase h => some { s.goto t .idle with handles := Function.update s.handles h none }
    | _ => none
  | .wait t =>
    match s.threads t with
    | .connected c =>
      match s.attempts c with
      | some a =>
        match s.handles a.handle with
        | none => some (s.goto t (.answered c (some 0)))
        | some (n, _) => some (s.goto t (.blocked c n))
      | none => none
    | _ => none
  | .wake t =>
    match s.threads t with
    | .blocked c n => some (s.goto t (.woken c n))
    | _ => none
  | .resume t =>
    match s.threads t with
    | .woken c n =>
      match s.attempts c with
      | some a =>
        match s.handles a.handle with
        | none => some (s.goto t (.answered c none))
        | some (n', v) => some (s.goto t (.answered c (if n' = n then some v else none)))
      | none => none
    | _ => none
  | .validate c success error =>
    match s.attempts c with
    | some a =>
      if a.completing = .pending then
        let v := if success then 0 else error
        some { s.complete c { a with completing := .recorded, disposition := v } with
          handles := Function.update s.handles a.handle ((s.handles a.handle).map fun entry => (entry.1, v)) }
      else none
    | none => none
  | .broadcast c =>
    match s.attempts c with
    | some a =>
      if a.completing = .recorded then
        some { s.complete c { a with completing := .signalled } with
          threads := fun t => (s.threads t).signal }
      else none
    | none => none
  | .onConnect c =>
    match s.attempts c with
    | some a =>
      if a.completing = .signalled then some (s.complete c { a with completing := .returned }) else none
    | none => none
  | .close c =>
    match s.attempts c with
    | some a =>
      if a.completing = .returned then
        some { s.complete c { a with completing := .closed } with
          sockets := Function.update s.sockets a.handle false }
      else none
    | none => none

/-- A call of `wait ()` has returned the result of its own connect, behind its completion, and
none is asleep behind the return of `validate_connection ()`. -/
def Right (s : AsynchConnector ι H) : Connecting H → Prop
  | .answered c result =>
    match s.attempts c with
    | some a => a.completing ≠ .pending ∧ result = some a.disposition
    | none => False
  | .blocked c _ =>
    match s.attempts c with
    | some a => a.completing ≠ .returned ∧ a.completing ≠ .closed
    | none => False
  | _ => True

def Waits (s : AsynchConnector ι H) : Prop := ∀ t, s.Right (s.threads t)

def completed (s : AsynchConnector ι H) (c : ℕ) : Bool :=
  match s.attempts c with
  | some a => a.completing ≠ .pending
  | none => false

def unsignalled (s : AsynchConnector ι H) (c : ℕ) : Bool :=
  match s.attempts c with
  | some a => a.completing = .pending ∨ a.completing = .recorded
  | none => false

def isFor (s : AsynchConnector ι H) (c : ℕ) (h : H) : Bool :=
  match s.attempts c with
  | some a => a.handle = h
  | none => false

/-- The thread is not about to wait for a completion that was signalled already. -/
def early (s : AsynchConnector ι H) : Connecting H → Bool
  | .connected c => s.unsignalled c
  | _ => true

/-- The thread does not sleep before its own completion is recorded. -/
def ready (s : AsynchConnector ι H) : Connecting H → Bool
  | .blocked c _ => s.completed c
  | _ => true

/-- The thread was woken and is to read the entry of this handle. -/
def reads (s : AsynchConnector ι H) (h : H) : Connecting H → Bool
  | .woken c _ => s.isFor c h
  | _ => false

/-- The thread has made or found the entry of this handle and is not done with it. -/
def needs (s : AsynchConnector ι H) (h : H) : Connecting H → Bool
  | .connect h' => h' = h
  | .connected c => s.isFor c h && s.unsignalled c
  | .blocked c _ => s.isFor c h
  | .woken c _ => s.isFor c h
  | _ => false

/-- A wait starts before the broadcast of its own completion; who is woken, by a broadcast or
not, has its own completion recorded; and the entry that a thread is to read is neither set by
another completion for the same handle nor erased by a `connect ()` that fails. -/
def InTime (s : AsynchConnector ι H) (e : Event ι H) (_ : AsynchConnector ι H) : Prop :=
  match e with
  | .wait t => s.early (s.threads t) = true
  | .wake t => s.ready (s.threads t) = true
  | .broadcast _ => ∀ t, s.ready (s.threads t) = true
  | .validate c _ _ =>
    match s.attempts c with
    | some a => ∀ t, s.reads a.handle (s.threads t) = false
    | none => True
  | .erase t =>
    match s.threads t with
    | .erase h => ∀ t', s.needs h (s.threads t') = false
    | _ => True
  | _ => True

section

variable [Fintype ι]

instance (s : AsynchConnector ι H) : DecidablePred s.Right := fun k =>
  match k with
  | .answered c result =>
    match h : s.attempts c with
    | some a => decidable_of_iff (a.completing ≠ .pending ∧ result = some a.disposition) (by simp [Right, h])
    | none => .isFalse (by simp [Right, h])
  | .blocked c _ =>
    match h : s.attempts c with
    | some a => decidable_of_iff (a.completing ≠ .returned ∧ a.completing ≠ .closed) (by simp [Right, h])
    | none => .isFalse (by simp [Right, h])
  | .idle | .setsockopt _ | .insert _ | .connect _ | .closesocket _ | .erase _ | .connected _ | .woken _ _ =>
    .isTrue trivial

instance (s : AsynchConnector ι H) : Decidable s.Waits := inferInstanceAs (Decidable (∀ _, _))

instance (s : AsynchConnector ι H) : ∀ (e : Event ι H) (s' : AsynchConnector ι H), Decidable (InTime s e s')
  | .wait _, _ => inferInstanceAs (Decidable (_ = _))
  | .wake _, _ => inferInstanceAs (Decidable (_ = _))
  | .broadcast _, _ => inferInstanceAs (Decidable (∀ _, _))
  | .validate c _ _, _ =>
    match h : s.attempts c with
    | some a => decidable_of_iff (∀ t, s.reads a.handle (s.threads t) = false) (by simp [InTime, h])
    | none => .isTrue (by simp [InTime, h])
  | .erase t, _ =>
    match h : s.threads t with
    | .erase socket_h => decidable_of_iff (∀ t', s.needs socket_h (s.threads t') = false) (by simp [InTime, h])
    | .idle | .setsockopt _ | .insert _ | .connect _ | .closesocket _ | .connected _ | .blocked _ _
    | .woken _ _ | .answered _ _ => .isTrue (by simp [InTime, h])
  | .socket _ _, _ | .setsockopt _ _, _ | .insert _, _ | .connect _ _, _ | .closesocket _, _ | .resume _, _
  | .onConnect _, _ | .close _, _ => .isTrue trivial

end

end AsynchConnector

end ACENetwork.Net
