import Mathlib
import ACENetwork.Spec.Net.Manager

/-! The connection manager under any number of threads. A step is one critical section, or one
connection closed outside of the lock, of one thread. `close ()` and the callers may call
`register_`, `deregister`, the lookups and `start` at any time; these are steps of their own,
whoever makes them. -/

namespace ACENetwork.Net

/-- Where a thread is in a call that takes more than one step. -/
inductive Call (α : Type) where
  | idle
  -- in `abort (bool)`, at its label `begin`
  | aborting (waitForCompletion_in : Bool)
  -- in the second step of `abort (bool)`: the connections that are still to be closed
  | closing (waitForCompletion_in : Bool) (connections_a : List α)
  -- in `abortLeastRecent` or `abortMostRecent`, behind the critical section
  | closingOne (connection_p : α)
  -- in `wait`, called by `stop` or not, and about to take the lock
  | waiting (stopping : Bool)
  -- in `wait`, asleep in `condition_.wait ()`
  | blocked (stopping : Bool)
  deriving DecidableEq, Repr

inductive AbortStrategy where
  | recentLeast
  | recentMost
  deriving DecidableEq, Repr

inductive Action (α Address : Type) where
  | increase (c : α)
  | decrease (c : α)
  | register_ (c : α) (fault : Option Fault)
  | deregister (c : α)
  -- `increase ()` may throw
  | get (l : Manager.Lookup Address) (throws : Bool)
  | collect
  | reset
  | dumpState
  | start (scheduled : Bool)
  | stop (waitForCompletion_in : Bool)
  | wait
  -- the condition of the loop in `wait`, under the lock
  | check
  -- `condition_.wait ()` returns without a signal
  | wake
  | abort (waitForCompletion_in : Bool)
  | gather (faults : ℕ → Option Fault)
  | close
  | abortStrategy (strategy_in : AbortStrategy) (throws : Bool)
  -- what `abortLeastRecent` and `abortMostRecent` do outside of the lock
  | closeOne

/-- The manager, the references that its callers hold, and the threads. -/
structure System (ι α : Type) where
  manager : Manager α
  held : α → ℕ
  calls : ι → Call α

namespace Call

variable {α : Type}

def signal : Call α → Call α
  | .blocked stopping => .waiting stopping
  | call => call

variable [DecidableEq α]

def count (c : α) : Call α → ℕ
  | .closing _ connections_a => connections_a.count c
  | .closingOne connection_p => if connection_p = c then 1 else 0
  | _ => 0

end Call

namespace System

variable {ι α Address : Type} [DecidableEq ι] [DecidableEq α] [DecidableEq Address]

def goto (s : System ι α) (t : ι) (call : Call α) : System ι α :=
  { s with calls := Function.update s.calls t call }

def oldestOrNewest (s : Manager α) : AbortStrategy → Option α
  | .recentLeast => s.connections.head?
  | .recentMost => s.connections.getLast?

/-- One step of thread `t`. There is none where the thread is not there to take it, and where
an assertion fails. Exceptions of `close ()`, `collect ()`, `update ()` and `dump_state ()` are
caught, and these are no calls of the manager. -/
def step (conn : Interface α Address) (s : System ι α) : ι × Action α Address → Option (System ι α)
  | (_, .increase c) =>
    some { s with manager := s.manager.increase c, held := Function.update s.held c (s.held c + 1) }
  | (_, .decrease c) =>
    if s.held c = 0 then none else
    some { s with manager := s.manager.decrease c, held := Function.update s.held c (s.held c - 1) }
  | (_, .register_ c fault) => some { s with manager := (s.manager.register_ c fault).2 }
  | (_, .deregister c) =>
    let (broadcast, manager) := s.manager.deregister c
    some { s with
      manager := manager
      calls := if broadcast then fun t => (s.calls t).signal else s.calls }
  | (_, .get l throws) =>
    match s.manager.get conn l with
    | none => none
    | some (none, _) => some s
    | some (some c, manager) =>
      if throws then some s else
      some { s with manager := manager, held := Function.update s.held c (s.held c + 1) }
  | (_, .collect) => some s
  | (_, .reset) => some s
  | (_, .dumpState) => some s
  | (_, .start scheduled) => some { s with manager := s.manager.start scheduled }
  | (t, .stop waitForCompletion_in) =>
    match s.calls t with
    | .idle =>
      let s := { s with manager := s.manager.stop }
      some (if waitForCompletion_in then s.goto t (.waiting true) else s)
    | _ => none
  | (t, .wait) =>
    match s.calls t with
    | .idle => some (s.goto t (.waiting false))
    | _ => none
  | (t, .check) =>
    match s.calls t with
    | .waiting stopping =>
      some (s.goto t (if s.manager.connections.isEmpty then .idle else .blocked stopping))
    | _ => none
  | (t, .wake) =>
    match s.calls t with
    | .blocked stopping => some (s.goto t (.waiting stopping))
    | _ => none
  | (t, .abort waitForCompletion_in) =>
    match s.calls t with
    | .idle => some (s.goto t (.aborting waitForCompletion_in))
    | _ => none
  | (t, .gather faults) =>
    match s.calls t with
    | .aborting waitForCompletion_in =>
      match s.manager.gather faults [] s.manager.connections with
      | (.filled connections_a, manager) =>
        let s := { s with manager := manager }
        some (s.goto t (if connections_a.isEmpty then .idle else
          .closing waitForCompletion_in connections_a))
      | (_, manager) =>
        let s := { s with manager := manager }
        some (s.goto t .idle)
    | _ => none
  | (t, .close) =>
    match s.calls t with
    | .closing waitForCompletion_in (c :: cs) =>
      let s := { s with manager := s.manager.decrease c }
      some (s.goto t (.closing waitForCompletion_in cs))
    | .closing true [] => some (s.goto t (.aborting true))
    | .closing false [] => some (s.goto t .idle)
    | _ => none
  | (t, .abortStrategy strategy_in throws) =>
    match s.calls t with
    | .idle =>
      match oldestOrNewest s.manager strategy_in with
      | none => some s
      | some c =>
        if throws then some s else
        let s := { s with manager := s.manager.increase c }
        some (s.goto t (.closingOne c))
    | _ => none
  | (t, .closeOne) =>
    match s.calls t with
    | .closingOne c =>
      let s := { s with manager := s.manager.decrease c }
      some (s.goto t .idle)
    | _ => none

/-- A new manager. Whoever has a reference to a connection is a caller. -/
structure Initial (s : System ι α) : Prop where
  connections : s.manager.connections = []
  isActive : s.manager.isActive = true
  calls : ∀ t, s.calls t = .idle
  references : ∀ c, s.manager.references c = s.held c

end System

end ACENetwork.Net
