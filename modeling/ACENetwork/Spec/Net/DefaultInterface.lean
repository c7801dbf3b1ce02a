import Mathlib
import ACENetwork.Library.Loop
import ACENetwork.Spec.Ace
import ACENetwork.Spec.Net.CommonTools

/-! `Net_Common_Tools::getDefaultInterface` for one type of link layer on Linux, which reads the text
of `ip route` line by line. -/

namespace ACENetwork.Net.DefaultInterface

open Backtracking
open Http (ascii isAlnum isDigit isLine isSpace)

inductive LinkLayerType where
  | ieee8023
  | ieee80211
  | ppp
  | fddi
  | atm
  | max
  | invalid
  deriving DecidableEq, Repr

def newline : UInt8 := 10

def bufsiz : ℕ := 8192

/-- `std::istringstream`: what has not been read, and two bits of its state. -/
structure Stream where
  rest : List UInt8
  eof : Bool := false
  failed : Bool := false
  deriving DecidableEq, Repr

/-- `getline` into an array of `n` characters, which it ends with a NUL in any case. -/
def Stream.getline (n : ℕ) (s : Stream) : List UInt8 × Stream :=
  if s.eof || s.failed then ([], { s with failed := true }) else
  let line := (s.rest.takeWhile fun c => decide (c ≠ newline)).take (n - 1)
  match s.rest.drop line.length with
  | [] => (line, { rest := [], eof := true, failed := decide (line = []) })
  | c :: rest =>
    if c = newline then (line, { rest := rest })
    else (line, { rest := c :: rest, failed := true })

/-- `^default via ([[:digit:].]+) dev ([[:alnum:]]+)(?:.*)$` -/
def routeRegex : Regex UInt8 :=
  .seq (.lit (ascii "default via "))
    (.seq (.group 1 (.plus (.cls fun c => isDigit c || decide (c = dot))))
      (.seq (.lit (ascii " dev "))
        (.seq (.group 2 (.plus (.cls isAlnum))) (.star true (.cls isLine)))))

def deviceOf (line : List UInt8) : Option (List UInt8) :=
  (routeRegex.fullMatch (cString line)).map fun g => (g 2).getD []

/-- The body of the loop and its condition, which `continue` goes to as well. -/
def body (converter : Stream) : Loop.Next Stream (List UInt8) :=
  let read := converter.getline bufsiz
  match deviceOf read.1 with
  | some result => .done result
  | none => if read.2.failed then .done [] else .again read.2

/-- What the loop leaves in `result`. Each iteration but the last takes a character. -/
def search (text : List UInt8) : Option (List UInt8) := Loop.run body (text.length + 2) { rest := text }

/-- `getDefaultInterface`. `ipRoute` is what the command has printed, if it succeeds, and `wireless`
are the names of the wireless interfaces. -/
def getDefaultInterface (type_in : LinkLayerType) (ipRoute : Option (List UInt8))
    (wireless : List (List UInt8)) : Option (List UInt8) :=
  match type_in with
  | .ieee8023 | .ppp =>
    match ipRoute with
    | none => some []
    -- `result` is logged, and the function ends with an empty string behind the `switch`
    | some text => (search text).bind fun _result => some []
  | .ieee80211 => some (wireless.head?.getD [])
  | .fddi | .atm | .max | .invalid => some []

/-- A line that begins with `default via <address> dev <device>`. -/
def IsDefaultLine (line device : List UInt8) : Prop :=
  ∃ address rest, line = ascii "default via " ++ (address ++ (ascii " dev " ++ (device ++ rest))) ∧
    IsAddress address ∧ device ≠ [] ∧ (∀ c ∈ device, isSpace c = false) ∧
    ∀ c ∈ rest.head?, isSpace c = true

/-- What the function is to return: the device of the first such line, or nothing. -/
def IsDefaultInterface (text name : List UInt8) : Prop :=
  (∃ before line behind, text.splitOn newline = before ++ line :: behind ∧
    (∀ l ∈ before, ∀ device, ¬ IsDefaultLine l device) ∧ IsDefaultLine line name) ∨
  name = [] ∧ ∀ l ∈ text.splitOn newline, ∀ device, ¬ IsDefaultLine l device

end ACENetwork.Net.DefaultInterface
