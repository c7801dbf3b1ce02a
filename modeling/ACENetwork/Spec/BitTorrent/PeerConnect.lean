import Mathlib
import ACENetwork.Library.Register

/-! `BitTorrent_Session_T::connect` to the address of a peer, run by any number of threads of one
session. The connection manager has one configuration; each thread sets it up, connects, and
resets it to what it found there. `connect` holds no lock, so the threads take their steps in any
order. The session has a connection manager: without one nothing is set up. -/

namespace ACENetwork.BitTorrent.PeerConnect

open Register

inductive Setting where
  | subscriber
  | cloneModule
  | module
  deriving DecidableEq, Repr

abbrev Pointer := Option ℕ

abbrev Setting.Value : Setting → Type
  | .subscriber | .module => Pointer
  | .cloneModule => Bool

abbrev Settings := (f : Setting) → f.Value

/-- The configuration for new peer connections. -/
structure Configuration where
  address : Option String
  settings : Settings

def locals : Settings
  | .subscriber => none
  | .cloneModule => false
  | .module => none

inductive Instruction where
  | setAddress
  | access (f : Setting) (a : Access)
  | connect
  deriving DecidableEq, Repr

/-- The accesses to the configuration in the order in which `connect` makes them. -/
def program : List Instruction :=
  [.setAddress,
    .access .subscriber .save,
    .access .subscriber .override,
    .access .cloneModule .save,
    .access .module .save,
    .access .cloneModule .override,
    .access .module .override,
    .connect,
    .access .subscriber .restore,
    .access .cloneModule .restore,
    .access .module .restore]

/-- A call of `connect`, with what it has to do yet. -/
structure Thread where
  address : String
  todo : List Instruction := program
  saved : Settings := locals

/-- The session with its threads, and the configurations that the connections were made with. -/
structure System (ι : Type) where
  peerStreamHandler : ℕ
  peerHandlerModule : Pointer
  configuration : Configuration
  threads : ι → Thread
  connections : List Configuration := []

variable {ι : Type}

namespace System

/-- What `connect` sets up: `&peerStreamHandler_`, `false` and `peerHandlerModule_`. -/
def own (s : System ι) : Settings
  | .subscriber => some s.peerStreamHandler
  | .cloneModule => false
  | .module => s.peerHandlerModule

variable [DecidableEq ι]

def setThread (s : System ι) (t : ι) (x : Thread) : System ι :=
  { s with threads := Function.update s.threads t x }

def setAddress (s : System ι) (address : String) : System ι :=
  { s with configuration := { s.configuration with address := some address } }

def set (s : System ι) (f : Setting) (v : f.Value) : System ι :=
  { s with configuration := { s.configuration with
      settings := Function.update s.configuration.settings f v } }

def perform (s : System ι) (t : ι) : Instruction → System ι
  | .setAddress => s.setAddress (s.threads t).address
  | .access f .save =>
    s.setThread t { s.threads t with
      saved := Function.update (s.threads t).saved f (s.configuration.settings f) }
  | .access f .override => s.set f (s.own f)
  | .access f .restore => s.set f ((s.threads t).saved f)
  | .connect => { s with connections := s.connections ++ [s.configuration] }

/-- The next instruction of a thread; a thread that has returned does nothing. -/
def step (s : System ι) (t : ι) : System ι :=
  match (s.threads t).todo with
  | [] => s
  | i :: todo => (s.setThread t { s.threads t with todo := todo }).perform t i

/-- The threads take steps in the order of a schedule, which has the latest step first. -/
def run (s : System ι) : List ι → System ι
  | [] => s
  | t :: σ => (s.run σ).step t

def Started (s : System ι) : Prop := ∀ t, (s.threads t).todo = program

def Finished (s : System ι) : Prop := ∀ t, (s.threads t).todo = []

end System

/-- The accesses of a schedule to one setting, the latest one first. -/
def accesses [DecidableEq ι] (f : Setting) : List ι → List (ι × Access)
  | [] => []
  | t :: σ =>
    match program[σ.count t]? with
    | some (.access g a) => if g = f then (t, a) :: accesses f σ else accesses f σ
    | _ => accesses f σ

end ACENetwork.BitTorrent.PeerConnect
