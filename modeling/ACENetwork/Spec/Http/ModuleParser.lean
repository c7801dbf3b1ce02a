import Mathlib
import ACENetwork.Spec.Http.Message

/-! `HTTP_Module_Parser_T`, which hands the fragments of a message to its parser and passes the
chain of them on when the message is complete. -/

namespace ACENetwork.Http

open Flex Bison

/-- The module: its driver, the chain at `headFragment_` (empty for NULL), and the chains that it
has put to the next module, each with the records that the parser made of it. -/
structure ModuleParser where
  driver : Driver
  headFragment : List Block := []
  pushed : List (List Block × List Record) := []

/-- The state at the start of `parse`, with a new fragment at the end of the chain. -/
def ModuleParser.begin (m : ModuleParser) (data : List UInt8) : State where
  start := m.driver.start
  buffer := ((m.headFragment ++ [Block.received data]).head?.map Block.content).getD []
  heap := Heap.link 0 (m.headFragment ++ [Block.received data])
  blocking := m.driver.blocking
  finished := m.driver.finished

section

variable (tools : StringTools)

/-- `HTTP_Module_Parser_T::handleDataMessage`. The chain stays where it is when the parser fails
or has not finished. -/
inductive ModuleParser.Handles (m : ModuleParser) (data : List UInt8) : ModuleParser → Prop where
  | error {code : Code} {s : State}
    (h : (parser tools).Halts (Parser.start (m.begin data)) (.returned code s))
    (hcode : code ≠ .accepted) :
    Handles m data { m with driver := s.driver, headFragment := s.heap.chain 0 }
  | wait {s : State}
    (h : (parser tools).Halts (Parser.start (m.begin data)) (.returned .accepted s))
    (hfinished : s.finished = false) :
    Handles m data { m with driver := s.driver, headFragment := s.heap.chain 0 }
  | push {s : State}
    (h : (parser tools).Halts (Parser.start (m.begin data)) (.returned .accepted s))
    (hfinished : s.finished = true) :
    Handles m data
      { driver := s.driver, headFragment := [], pushed := m.pushed ++ [(s.heap.chain 0, s.records)] }

inductive ModuleParser.Runs : ModuleParser → List (List UInt8) → ModuleParser → Prop where
  | nil (m : ModuleParser) : Runs m [] m
  | cons {m m₁ m' : ModuleParser} {data : List UInt8} {fragments : List (List UInt8)}
    (h : m.Handles tools data m₁) (hrest : Runs m₁ fragments m') : Runs m (data :: fragments) m'

/-- A message with a body. The first empty line ends the head. -/
structure WholeMessage where
  head : Head
  body : List UInt8
  body_ne : body ≠ []
  -- the length is read into an `unsigned int`
  body_lt : body.length < 2 ^ 32
  announces : Announces tools head.fields body.length
  accepted : head.Accepted body
  unbroken : ¬ crlf ++ crlf <:+: head.text.dropLast

variable {tools}

def WholeMessage.text (m : WholeMessage tools) : List UInt8 := m.head.text ++ m.body

structure Fragmentation (m : WholeMessage tools) where
  fragments : List (List UInt8)
  nonempty : ∀ data ∈ fragments, data ≠ []
  flatten : fragments.flatten = m.text

variable (tools)

/-- A new module that does not block passes the chain on once, behind the last fragment, with the
record that the parser makes of the whole message. -/
def PassesOnce (fragments : List (List UInt8)) : Prop :=
  ∃ before last m m' chain record, fragments = before ++ [last] ∧
    ModuleParser.Runs tools { driver := { blocking := false } } before m ∧ m.pushed = [] ∧
    m.Handles tools last m' ∧ m'.pushed = [(chain, [record])] ∧
    chain.map Block.data = fragments ∧
    ∃ s, Parses tools { blocking := false } fragments.flatten [] [] (.returned .accepted s) ∧
      s.records = [record]

end

end ACENetwork.Http
