import Mathlib
import ACENetwork.Library.Transition

/-! The end of `BitTorrent_Session_T::notify` for a response of the tracker: it allocates the arrays
and the names for one thread per address, spawns the threads, cleans up and waits for them. Each
thread (`net_bittorrent_session_setup_function`) takes the last address of the vector that all of
them share and has the session connect to it. What the threads share is in variables of `notify`. -/

namespace ACENetwork.BitTorrent.PeerSetup

open Transition

inductive Block where
  | ids
  | handles
  | names
  | name (i : ℕ)
  deriving DecidableEq, Repr

inductive Slot where
  | garbage
  | null
  | name (i : ℕ)
  deriving DecidableEq, Repr

/-- What is used and must not be: an element of the array NULL, a block that is not allocated any
more or a variable of a function that has returned, a pointer that was never set, and the last
element of an empty vector. -/
inductive Fault where
  | null
  | dangling
  | garbage
  | empty
  deriving DecidableEq, Repr

/-- The code that cleans up stands there twice: in front of `wait_grp`, and behind `error`. -/
inductive Exit where
  | regular
  | error
  deriving DecidableEq, Repr

/-- The statements of that code; the loop over the names has a condition and a body. -/
inductive Stage where
  | ids
  | handles
  | check (i : ℕ)
  | name (i : ℕ)
  | names
  deriving DecidableEq, Repr

inductive Pc where
  | allocateIds
  | allocateHandles
  | allocateNames
  | allocateName (i : ℕ)
  | spawn
  | clean (exit : Exit) (stage : Stage)
  | wait
  | returned
  deriving DecidableEq, Repr

/-- `notify` with its local variables and the threads: those that have begun, and what they have
taken and are connecting to, with the latest one first. -/
structure System (α : Type) where
  pc : Pc := .allocateIds
  addresses : List α
  ids : Option Block := none
  handles : Option Block := none
  names : Option Block := none
  slots : List Slot := []
  allocated : List Block := []
  freed : List Block := []
  started : ℕ := 0
  entered : List ℕ := []
  taken : List (ℕ × α) := []
  connected : List (ℕ × α) := []
  fault : Option Fault := none

/-- What a call outside this code does. When `spawn_n` fails it may have started some threads. -/
inductive Outcome where
  | succeeds
  | fails (started : ℕ)
  deriving DecidableEq, Repr

inductive Event where
  | notify (o : Outcome)
  | enter (thread : ℕ)
  | take (thread : ℕ)
  | connect (thread : ℕ)
  deriving DecidableEq, Repr

variable {α : Type}

namespace System

def fail (f : Fault) (s : System α) : System α := { s with fault := some f }

def goto (pc : Pc) (s : System α) : System α := { s with pc := pc }

/-- `delete []` -/
def delete (p : Option Block) (next : Pc) (s : System α) : System α :=
  match p with
  | none => s.goto next
  | some b =>
    if b ∈ s.allocated ∧ b ∉ s.freed then { s with freed := s.freed ++ [b], pc := next }
    else s.fail .dangling

/-- `delete [] thread_names_p[i]` -/
def deleteName (i : ℕ) (next : Pc) (s : System α) : System α :=
  match s.names with
  | none => s.fail .null
  | some b =>
    if b ∈ s.freed then s.fail .dangling else
    match s.slots[i]? with
    | some (.name k) => s.delete (some (.name k)) next
    | some .null => s.delete none next
    | some .garbage | none => s.fail .garbage

/-- The array behind `memset (thread_names_p, 0, sizeof (thread_names_p))`, which is the size of a
pointer. Without addresses there is no entry, and `memset` writes behind the array. -/
def newSlots : ℕ → List Slot
  | 0 => []
  | n + 1 => .null :: List.replicate n .garbage

def clean (exit : Exit) (s : System α) : Stage → System α
  | .ids => s.delete s.ids (.clean exit .handles)
  | .handles => s.delete s.handles (.clean exit (.check 0))
  | .check i =>
    if i < s.addresses.length then s.goto (.clean exit (.name i)) else s.goto (.clean exit .names)
  | .name i => s.deleteName i (.clean exit (.check (i + 1)))
  | .names => s.delete s.names (match exit with | .regular => .wait | .error => .returned)

def notify (s : System α) (o : Outcome) : Option (System α) :=
  match s.pc, o with
  | .allocateIds, .succeeds =>
    some { s with ids := some .ids, allocated := s.allocated ++ [.ids], pc := .allocateHandles }
  | .allocateHandles, .succeeds =>
    some { s with
      handles := some .handles
      allocated := s.allocated ++ [.handles]
      pc := .allocateNames }
  | .allocateNames, .succeeds =>
    some { s with
      names := some .names
      slots := newSlots s.addresses.length
      allocated := s.allocated ++ [.names]
      pc := .allocateName 0 }
  | .allocateIds, .fails _ | .allocateHandles, .fails _ | .allocateNames, .fails _ =>
    some (s.goto (.clean .error .ids))
  | .allocateName i, o =>
    if i < s.addresses.length then
      match o with
      | .succeeds =>
        some { s with
          slots := s.slots.set i (.name i)
          allocated := s.allocated ++ [.name i]
          pc := .allocateName (i + 1) }
      | .fails _ => some (s.goto (.clean .error .ids))
    else some (s.goto .spawn)
  | .spawn, .succeeds =>
    some { s with started := s.addresses.length, pc := .clean .regular .ids }
  | .spawn, .fails n =>
    if n ≤ s.addresses.length then some { s with started := n, pc := .clean .error .ids } else none
  | .clean exit stage, _ => some (s.clean exit stage)
  | .wait, .succeeds => if s.connected.length = s.started then some (s.goto .returned) else none
  | .wait, .fails _ => some (s.goto (.clean .error .ids))
  | .returned, _ => none

def enter (s : System α) (thread : ℕ) : Option (System α) :=
  if thread < s.started ∧ thread ∉ s.entered then
    if s.pc = .returned then some (s.fail .dangling) else some { s with entered := thread :: s.entered }
  else none

def take (s : System α) (thread : ℕ) : Option (System α) :=
  if thread ∈ s.entered ∧ thread ∉ s.taken.map Prod.fst then
    if s.pc = .returned then some (s.fail .dangling) else
    match s.addresses.getLast? with
    | none => some (s.fail .empty)
    | some address =>
      some { s with addresses := s.addresses.dropLast, taken := (thread, address) :: s.taken }
  else none

/-- `data_p->session->connect (peer_address)`, behind which the thread ends. -/
def connect (s : System α) (thread : ℕ) : Option (System α) :=
  match s.taken.lookup thread with
  | none => none
  | some address =>
    if thread ∈ s.connected.map Prod.fst then none else
    if s.pc = .returned then some (s.fail .dangling) else
    some { s with connected := (thread, address) :: s.connected }

def next (s : System α) : Event → Option (System α)
  | .notify o => s.notify o
  | .enter thread => s.enter thread
  | .take thread => s.take thread
  | .connect thread => s.connect thread

def step (s : System α) (e : Event) : Option (System α) := if s.fault = none then s.next e else none

def begin (addresses : List α) : System α := { addresses := addresses }

/-- What is asked of a state: nothing was used that must not be; every address is in the vector or
was taken by one thread, and every thread takes one; when all threads are started and done no
address is left; and `notify` returns with every block freed that it has allocated, once. -/
structure Sound (addresses : List α) (s : System α) : Prop where
  fault : s.fault = none
  taken : addresses = s.addresses ++ s.taken.map Prod.snd
  threads : (s.taken.map Prod.fst).Nodup
  done : s.started = addresses.length → s.taken.length = s.started → s.addresses = []
  freed : s.pc = .returned → s.allocated.Nodup ∧ s.freed.Perm s.allocated

end System

/-- The condition of the loop over the names is not true any more when an address is taken. -/
def Stage.Past (names : ℕ) : Stage → Prop
  | .ids | .handles => False
  | .check i => i = names
  | .name i => i + 1 = names
  | .names => True

instance (names : ℕ) : (stage : Stage) → Decidable (Stage.Past names stage)
  | .ids | .handles => inferInstanceAs (Decidable False)
  | .check i => inferInstanceAs (Decidable (i = names))
  | .name i => inferInstanceAs (Decidable (i + 1 = names))
  | .names => inferInstanceAs (Decidable True)

/-- An array may be missing when there is no address, a name when there is one. -/
def Pc.MayFail (addresses : ℕ) : Pc → Prop
  | .allocateIds | .allocateHandles | .allocateNames => addresses = 0
  | .allocateName i => i < addresses → addresses = 1
  | .wait => False
  | .spawn | .clean _ _ | .returned => True

instance (addresses : ℕ) : (pc : Pc) → Decidable (pc.MayFail addresses)
  | .allocateIds | .allocateHandles | .allocateNames => inferInstanceAs (Decidable (addresses = 0))
  | .allocateName i => inferInstanceAs (Decidable (i < addresses → addresses = 1))
  | .wait => inferInstanceAs (Decidable False)
  | .spawn | .clean _ _ | .returned => inferInstanceAs (Decidable True)

/-- `notify` has seen all names, and has not returned. -/
def Pc.MayTake (names : ℕ) : Pc → Prop
  | .clean _ stage => stage.Past names
  | .wait => True
  | .allocateIds | .allocateHandles | .allocateNames | .allocateName _ | .spawn | .returned => False

instance (names : ℕ) : (pc : Pc) → Decidable (pc.MayTake names)
  | .clean _ stage => inferInstanceAs (Decidable (stage.Past names))
  | .wait => inferInstanceAs (Decidable True)
  | .allocateIds | .allocateHandles | .allocateNames | .allocateName _ | .spawn | .returned =>
    inferInstanceAs (Decidable False)

/-- The steps that do not lead to a fault or a leak. -/
def System.Safe (s : System α) : Event → Prop
  | .notify .succeeds => True
  | .notify (.fails _) => s.pc.MayFail s.addresses.length
  | .take _ => s.pc.MayTake s.slots.length
  | .enter _ | .connect _ => s.pc ≠ .returned

instance (s : System α) : (e : Event) → Decidable (s.Safe e)
  | .notify .succeeds => inferInstanceAs (Decidable True)
  | .notify (.fails _) => inferInstanceAs (Decidable (s.pc.MayFail s.addresses.length))
  | .take _ => inferInstanceAs (Decidable (s.pc.MayTake s.slots.length))
  | .enter _ | .connect _ => inferInstanceAs (Decidable (s.pc ≠ .returned))

def Event.Succeeds : Event → Prop
  | .notify o => o = .succeeds
  | .enter _ | .take _ | .connect _ => True

instance : (e : Event) → Decidable e.Succeeds
  | .notify o => inferInstanceAs (Decidable (o = .succeeds))
  | .enter _ | .take _ | .connect _ => inferInstanceAs (Decidable True)

/-- A run in which no call fails. -/
def System.Runs (addresses : List α) (events : List Event) (s : System α) : Prop :=
  (∀ e ∈ events, e.Succeeds) ∧ exec System.step (System.begin addresses) events = some s

/-- In every run an address is taken by one thread at most, which connects to no other one. Where no
call fails there is a next step until `notify` returns, that is after so many steps, and then every
address was taken and every thread has gone on to connect. -/
structure Connects (addresses : List α) : Prop where
  own : ∀ events s, exec System.step (System.begin addresses) events = some s →
    addresses = s.addresses ++ s.taken.map Prod.snd ∧ (s.taken.map Prod.fst).Nodup ∧
      s.connected ⊆ s.taken ∧ (s.connected.map Prod.fst).Nodup
  goesOn : ∀ events s, System.Runs addresses events s →
    s.pc = .returned ∨ ∃ e s', e.Succeeds ∧ s.step e = some s'
  ends : ∃ n, ∀ events s, System.Runs addresses events s → events.length ≤ n
  all : ∀ events s, System.Runs addresses events s → s.pc = .returned →
    s.taken.map Prod.snd = addresses ∧ s.connected.Perm s.taken

end ACENetwork.BitTorrent.PeerSetup
