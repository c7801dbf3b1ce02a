import Mathlib
import ACENetwork.Spec.Irc.Tools

/-! `IRC_Tools::stringify` for every index that an `int` can be and for lists of any length, whose
size the function converts to an `int` as well. -/

namespace ACENetwork.Irc.Stringify

open Tools (stringifyFrom)

/-- `static_cast<int> ((parameters_in.size () - 1))`, which wraps around. -/
def lastIndex (parameters_in : Parameters) : Int32 := Int32.ofNat (parameters_in.length - 1)

/-- `std::advance` from the first element, in front of which there is none. -/
def advance (parameters_in : Parameters) (index : Int32) : Except Misuse ℕ :=
  if index < 0 then .error .pastEnd else advanceBy parameters_in 0 index.toInt.toNat

def stringify (parameters_in : Parameters) (index_in : Int32) : Except Misuse (List UInt8) :=
  if parameters_in = [] ∨ lastIndex parameters_in < index_in then .ok []
  else if index_in = -1 then back parameters_in
  else do
    let iterator ← advance parameters_in index_in
    let result := stringifyFrom (parameters_in.drop iterator)
    .ok (if index_in < lastIndex parameters_in then result.dropLast else result)

/-- What is asked of the text: the elements from the index on with a space between them, nothing
behind the end, and the last element for -1. -/
structure Joins (parameters_in : Parameters) (index_in : Int32) : Prop where
  inside : 0 ≤ index_in.toInt → index_in.toInt < parameters_in.length →
    stringify parameters_in index_in =
      .ok ([space].intercalate (parameters_in.drop index_in.toInt.toNat))
  outside : parameters_in = [] ∨ parameters_in.length ≤ index_in.toInt →
    stringify parameters_in index_in = .ok []
  last : ∀ p ∈ parameters_in.getLast?, index_in = -1 → stringify parameters_in index_in = .ok p

/-- The index is not that of the last element, as an `int` has it. -/
def Inner (parameters_in : Parameters) (index_in : Int32) : Prop :=
  parameters_in = [] ∨ index_in.toInt < -1 ∨ parameters_in.length ≤ index_in.toInt ∨
    (0 ≤ index_in.toInt ∧ index_in < lastIndex parameters_in) ∨
    (index_in = -1 ∧ (¬ lastIndex parameters_in < -1 ∨ parameters_in.getLast? = some []))

end ACENetwork.Irc.Stringify
