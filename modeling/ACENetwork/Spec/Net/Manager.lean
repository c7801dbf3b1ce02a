import Mathlib

/-! `Net_Connection_Manager_T`: the list of open connections, what `register_` and `deregister`
do to it, and the lookups. Every function is the body of one critical section. The connections
are of any type `α`; what the manager asks them for is a parameter. -/

namespace ACENetwork.Net

abbrev ConnectionId := UInt32

def invalidHandle : ConnectionId := 0xFFFFFFFF

/-- What `Net_IConnection_T` tells about a connection. No two connections have one identifier. -/
structure Interface (α Address : Type) where
  id : α → ConnectionId
  localAddress : α → Address
  peerAddress : α → Address
  id_injective : Function.Injective id

/-- A call in the middle of a function that fails: `increase ()` throws, or `insert_tail ()`
returns NULL. -/
inductive Fault where
  | increase
  | insertTail
  deriving DecidableEq, Repr

/-- The members of the manager, and the reference counts, which live in the connections. -/
structure Manager (α : Type) where
  connections : List α := []
  isActive : Bool := true
  maximumNumberOfConnections : UInt32
  references : α → ℤ := fun _ => 0

namespace Manager

variable {α Address : Type}

def forIndex (index_in : UInt32) (index : UInt32) (connection_p : Option α) : List α → Option α
  | [] => connection_p
  | c :: cs => if index = index_in then some c else forIndex index_in (index + 1) (some c) cs

def forHandle (conn : Interface α Address) (handle_in : ConnectionId) (connection_p : Option α) :
    List α → Option α
  | [] => connection_p
  | c :: cs => if conn.id c = handle_in then some c else forHandle conn handle_in (some c) cs

def forAddress [DecidableEq Address] (conn : Interface α Address) (address_in : Address) (isPeerAddress_in : Bool)
    (connection_p : Option α) : List α → Option α
  | [] => connection_p
  | c :: cs =>
    if (isPeerAddress_in = true ∧ conn.peerAddress c = address_in) ∨
        (isPeerAddress_in = false ∧ conn.localAddress c = address_in) then some c
    else forAddress conn address_in isPeerAddress_in none cs

variable [DecidableEq α]

def increase (s : Manager α) (c : α) : Manager α :=
  { s with references := Function.update s.references c (s.references c + 1) }

def decrease (s : Manager α) (c : α) : Manager α :=
  { s with references := Function.update s.references c (s.references c - 1) }

def register_ (s : Manager α) (c : α) (fault : Option Fault) : Bool × Manager α :=
  if s.isActive = false ∨ s.maximumNumberOfConnections.toNat ≤ s.connections.length then (false, s)
  else
    match fault with
    | some .increase => (false, s)
    | some .insertTail => (false, (s.increase c).decrease c)
    | none =>
      let s := s.increase c
      (true, { s with connections := s.connections ++ [c] })

/-- The first component tells whether the waiters are signalled. -/
def deregister (s : Manager α) (c : α) : Bool × Manager α :=
  if c ∈ s.connections then
    let s := { s with connections := s.connections.erase c }.decrease c
    (s.connections.isEmpty, s)
  else (false, s)

def start (s : Manager α) (scheduled : Bool) : Manager α :=
  if scheduled then { s with isActive := true } else s

def stop (s : Manager α) : Manager α := { s with isActive := false }

/-- The arguments of `operator[]` and of the overloads of `get`. -/
inductive Lookup (Address : Type) where
  | index (index_in : UInt32)
  | id (id_in : ConnectionId)
  | address (address_in : Address) (isPeerAddress_in : Bool)
  deriving DecidableEq, Repr

def find [DecidableEq Address] (conn : Interface α Address) (s : Manager α) : Lookup Address → Option (Option α)
  | .index i => some (forIndex i 0 none s.connections)
  | .id i =>
    -- ACE_ASSERT (handle_in != ACE_INVALID_HANDLE)
    if i = invalidHandle then none else some (forHandle conn i none s.connections)
  | .address a isPeerAddress => some (forAddress conn a isPeerAddress none s.connections)

def get [DecidableEq Address] (conn : Interface α Address) (s : Manager α) (l : Lookup Address) :
    Option (Option α × Manager α) :=
  match s.find conn l with
  | none => none
  | some none => some (none, s)
  | some (some c) => some (some c, s.increase c)

/-- How `abort ()` leaves its first step: with `connections_a` filled, through the `return`
behind a failed `insert_tail ()`, or with the exception of `increase ()`. -/
inductive Exit (α : Type) where
  | filled (connections_a : List α)
  | returned
  | thrown

/-- The first step of `abort ()`. `faults n` is what goes wrong at the `n`-th connection. -/
def gather (faults : ℕ → Option Fault) (connections_a : List α) (s : Manager α) :
    List α → Exit α × Manager α
  | [] => (.filled connections_a, s)
  | c :: cs =>
    match faults 0 with
    | some .increase => (.thrown, s)
    | some .insertTail => (.returned, (s.increase c).decrease c)
    | none => gather (fun n => faults (n + 1)) (connections_a ++ [c]) (s.increase c) cs

inductive Reachable (maximum : UInt32) : Manager α → Prop where
  | init (references : α → ℤ) :
      Reachable maximum { maximumNumberOfConnections := maximum, references := references }
  | register_ {s : Manager α} (h : Reachable maximum s) (c : α) (fault : Option Fault) :
      Reachable maximum (s.register_ c fault).2
  | deregister {s : Manager α} (h : Reachable maximum s) (c : α) :
      Reachable maximum (s.deregister c).2
  | start {s : Manager α} (h : Reachable maximum s) (scheduled : Bool) :
      Reachable maximum (s.start scheduled)
  | stop {s : Manager α} (h : Reachable maximum s) : Reachable maximum s.stop

/-- What a lookup is for: the connection that it is to return in `s`. -/
def Wanted (conn : Interface α Address) (s : Manager α) (p : Option α) : Lookup Address → Prop
  | .index i => p = s.connections[i.toNat]?
  | .id i => ∀ c, p = some c ↔ c ∈ s.connections ∧ conn.id c = i
  | .address a isPeerAddress =>
    let address := if isPeerAddress = true then conn.peerAddress else conn.localAddress
    (∀ c, p = some c → c ∈ s.connections ∧ address c = a) ∧
      (p = none → ∀ c ∈ s.connections, address c ≠ a)

/-- The lookup returns what it is for, and takes one reference to that and nothing else. -/
def Answers [DecidableEq Address] (conn : Interface α Address) (s : Manager α) (l : Lookup Address) : Prop :=
  ∃ p s', s.get conn l = some (p, s') ∧ s.Wanted conn p l ∧
    s' = { s with references := fun c => s.references c + if p = some c then 1 else 0 }

end Manager

end ACENetwork.Net
