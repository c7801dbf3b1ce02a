import Mathlib
import ACENetwork.Library.Transition

/-! `record` of the parser modules: the message blocks from `headFragment_` on are passed on with the
record that the parser has found in them. Message blocks and data containers are numbered. -/

namespace ACENetwork.BitTorrent.PeerRecord

structure Block where
  cont : Option ℕ := none
  data : ℕ
  deriving DecidableEq, Repr

structure Container (ρ : Type) where
  references : ℕ := 1
  peerRecord : Option ρ := none
  deriving DecidableEq, Repr

inductive Fault where
  | assertion
  | null
  deriving DecidableEq, Repr

/-- The module with its message blocks, and the blocks that `put_next` was called with. -/
structure Module (ρ : Type) where
  blocks : List Block
  containers : List (Container ρ)
  headFragment : Option ℕ
  fragment : Option ℕ
  passed : List ℕ := []
  fault : Option Fault := none
  deriving DecidableEq, Repr

variable {ρ : Type}

namespace Module

def fail (f : Fault) (m : Module ρ) : Module ρ := { m with fault := some f }

def cont (m : Module ρ) (place : ℕ) : Option ℕ := (m.blocks[place]?).bind Block.cont

def data (m : Module ρ) (place : ℕ) : Option ℕ := (m.blocks[place]?).map Block.data

def references (m : Module ρ) (container : ℕ) : Option ℕ :=
  (m.containers[container]?).map Container.references

def peerRecord (m : Module ρ) (container : ℕ) : Option ρ :=
  (m.containers[container]?).bind Container.peerRecord

/-- The last of a block and its continuations. There are no more steps than blocks in a chain that
does not come back to itself. -/
def last (m : Module ρ) : ℕ → ℕ → ℕ
  | 0, place => place
  | n + 1, place =>
    match m.cont place with
    | none => place
    | some next => m.last n next

/-- `increase` of a container, and `initialize` of a block with it, which gives back the reference to
the one that the block has had. -/
def share (container place : ℕ) (m : Module ρ) : Module ρ :=
  let containers := m.containers.modify container fun c => { c with references := c.references + 1 }
  match m.data place with
  | none => m
  | some data =>
    { m with
      containers := containers.modify data fun c => { c with references := c.references - 1 }
      blocks := m.blocks.modify place fun b => { b with data := container } }

def shareFrom (container : ℕ) : ℕ → Option ℕ → Module ρ → Module ρ
  | 0, _, m | _, none, m => m
  | n + 1, some place, m => shareFrom container n (m.cont place) (m.share container place)

/-- What both modules do with the message blocks. The loop starts behind the block `start`, which is
the message or the new head fragment. -/
def handOff (start : ℕ → Option ℕ → Option ℕ) (head container : ℕ) (m : Module ρ) : Module ρ :=
  let n := m.blocks.length
  if some (m.last n head) ≠ m.fragment ∧ m.fragment = none then m.fail .assertion else
  let m := { m with headFragment := if some (m.last n head) ≠ m.fragment then m.fragment else none }
  match start head m.headFragment with
  | none => m.fail .null
  | some place =>
    let m := m.shareFrom container n (m.cont place)
    { m with passed := m.passed ++ [head] }

def attach (container : ℕ) (r : ρ) (m : Module ρ) : Module ρ :=
  { m with containers := m.containers.modify container fun c => { c with peerRecord := some r } }

def recordPeer (r : ρ) (m : Module ρ) : Module ρ :=
  match m.headFragment with
  | none => m.fail .assertion
  | some head =>
    match m.data head with
    | none => m.fail .null
    | some container =>
      if (m.peerRecord container).isSome then m.fail .assertion else
      (m.attach container r).handOff (fun _ headFragment => headFragment) head container

/-- `BitTorrent_Module_TrackerParser_T::record`, which keeps nothing of its argument. -/
def recordTracker (m : Module ρ) : Module ρ :=
  match m.headFragment with
  | none => m.fail .assertion
  | some head =>
    match m.data head with
    | none => m.fail .null
    | some container => m.handOff (fun message _ => some message) head container

inductive Chain (m : Module ρ) : ℕ → List ℕ → Prop where
  | last {place : ℕ} {b : Block} (hb : m.blocks[place]? = some b) (hcont : b.cont = none) :
    Chain m place [place]
  | cont {place next : ℕ} {b : Block} {places : List ℕ} (hb : m.blocks[place]? = some b)
    (hcont : b.cont = some next) (h : Chain m next places) : Chain m place (place :: places)

def holders (m : Module ρ) (container : ℕ) : ℕ :=
  ((List.range m.blocks.length).filter fun place => m.data place = some container).length

/-- The parser has found the end of a message: the blocks of the message, and those of the rest if
there is one. The current fragment is the last of the message, or the first of the rest, which has
been unlinked. Blocks may share a container, as a block and its `duplicate` do. -/
structure Found (m : Module ρ) (message rest : List ℕ) : Prop where
  fault : m.fault = none
  head : ∃ head, m.headFragment = some head ∧ m.Chain head message
  fragment : rest = [] ∧ m.fragment = message.getLast? ∨ ∃ next, m.fragment = some next ∧ m.Chain next rest
  nodup : (message ++ rest).Nodup
  counted : ∀ place ∈ message ++ rest, ∃ container c, m.data place = some container ∧
    m.containers[container]? = some c ∧ c.references = m.holders container

/-- The blocks of the message, and no others, have the container of the first of them, with one
reference for each. They are what is passed on, once, and the rest is what is left. -/
structure HandedOff (m m' : Module ρ) (message rest : List ℕ) : Prop where
  fault : m'.fault = none
  shared : ∀ place, m'.data place = m.headFragment.bind m.data ↔ place ∈ message
  references : ∀ container ∈ m.headFragment.bind m.data, m'.references container = some message.length
  passed : ∃ head, m.headFragment = some head ∧ m'.passed = m.passed ++ [head] ∧ m'.Chain head message
  headFragment : m'.headFragment = rest.head?

/-- What is asked of `record`: the record is in the container of the first block. -/
structure Delivered (r : ρ) (m m' : Module ρ) (message rest : List ℕ) : Prop
    extends HandedOff m m' message rest where
  record : ∀ container ∈ m.headFragment.bind m.data, m'.peerRecord container = some r

/-- Nothing is left to do in the loop: the blocks of the message, such as a single one, have one
container already, which no other block has and where no record is, and there is one block more. -/
structure Separate (m : Module ρ) (message rest : List ℕ) : Prop where
  rest : rest.length = 1
  shared : ∀ place, m.data place = m.headFragment.bind m.data ↔ place ∈ message
  unused : ∀ container ∈ m.headFragment.bind m.data, m.peerRecord container = none

/-- A call of `record`, or whatever the scanner, the driver and `handleDataMessage` do in between. -/
inductive Event (ρ : Type) where
  | record (r : ρ)
  | between (m : Module ρ)

def step (m : Module ρ) : Event ρ → Option (Module ρ)
  | .record r => some (m.recordPeer r)
  | .between m' => some m'

/-- A call of `record` delivers what the parser has found. -/
def Delivers (m : Module ρ) (e : Event ρ) (m' : Module ρ) : Prop :=
  ∀ r message rest, e = .record r → m.Found message rest → Delivered r m m' message rest

/-- A call of `record` finds a message that needs no loop. -/
def Separates (m : Module ρ) (e : Event ρ) (_ : Module ρ) : Prop :=
  ∀ r message rest, e = .record r → m.Found message rest → m.Separate message rest

end Module

end ACENetwork.BitTorrent.PeerRecord
