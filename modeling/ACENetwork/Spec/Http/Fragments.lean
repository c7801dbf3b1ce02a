import Mathlib
import ACENetwork.Spec.Ace

/-! The fragments of a message as the parser handles them: `ACE_Message_Block`s that are linked
by their continuations, with the positions that a module leaves for the ones after it. -/

namespace ACENetwork.Http

/-- The octets of the data block from the read position at which the fragment came, the read and
the write position, and the place of the continuation. -/
structure Block where
  data : List UInt8
  rd : ℕ := 0
  wr : ℕ
  cont : Option ℕ := none
  deriving DecidableEq, Repr

namespace Block

def received (data : List UInt8) : Block := { data := data, wr := data.length }

def content (b : Block) : List UInt8 := (b.data.take b.wr).drop b.rd

def length (b : Block) : UInt64 := UInt64.ofNat b.wr - UInt64.ofNat b.rd

def advance (n : ℕ) (b : Block) : Block := { b with rd := b.rd + n }

end Block

/-- The blocks, each at its own place. -/
abbrev Heap := List Block

namespace Heap

/-- Blocks that are stored from a place on, each the continuation of the one before it. -/
def link : ℕ → List Block → Heap
  | _, [] => []
  | _, [b] => [{ b with cont := none }]
  | base, b :: c :: bs => { b with cont := some (base + 1) } :: link (base + 1) (c :: bs)

/-- The block at a place and its continuations. A continuation is stored behind the block that it
continues, so the number of blocks bounds the length of a chain. -/
def follow (heap : Heap) : ℕ → Option ℕ → List Block
  | 0, _ | _, none => []
  | n + 1, some place =>
    match heap[place]? with
    | some b => b :: follow heap n b.cont
    | none => []

def chain (heap : Heap) (place : ℕ) : List Block := follow heap heap.length (some place)

def lengthAt (heap : Heap) (place : ℕ) : UInt64 :=
  match heap[place]? with
  | some b => b.length
  | none => 0

def totalLength (heap : Heap) (place : ℕ) : UInt64 := ((heap.chain place).map Block.length).sum

/-- `ACE_Message_Block::duplicate`, which duplicates the continuations as well; the duplicate is
stored behind all other blocks. -/
def duplicate (heap : Heap) (place : ℕ) : Heap := heap ++ link (List.length heap) (heap.chain place)

def continue_ (heap : Heap) (place next : ℕ) : Heap :=
  heap.modify place fun b => { b with cont := some next }

def advance (heap : Heap) (place n : ℕ) : Heap := heap.modify place (Block.advance n)

/-- `ACE_Message_Block::length`, which moves the write position. -/
def truncate (heap : Heap) (place n : ℕ) : Heap :=
  heap.modify place fun b => { b with wr := b.rd + n }

/-- The block at a place and its continuations, to the last one. -/
inductive Chain (heap : Heap) : ℕ → List Block → Prop where
  | last {place : ℕ} {b : Block} (hb : heap[place]? = some b) (hcont : b.cont = none) :
    Chain heap place [b]
  | cont {place next : ℕ} {b : Block} {bs : List Block} (hb : heap[place]? = some b)
    (hcont : b.cont = some next) (h : Chain heap next bs) : Chain heap place (b :: bs)

end Heap

end ACENetwork.Http
