import Mathlib
import ACENetwork.Library.Regex
import ACENetwork.Spec.Http.Record

/-! `Net_Common_Tools`, as far as it takes texts apart with regular expressions. The anchors of the
expressions stand at their ends only, where `regex_match` begins and ends anyway; the classes are
those of the C locale. -/

namespace ACENetwork.Net

open Backtracking
open Http (ascii isDigit isAlpha isLine isSpace extract number)

def dot : UInt8 := 46

/-- `(\.[[:digit:]]{0,3})?` as group `i`. -/
def furtherGroup (i : ℕ) : Regex UInt8 :=
  .opt (.group i (.seq (.cls fun c => decide (c = dot)) (.upTo (.cls isDigit) 3)))

/-- `^([[:digit:]]{0,3})(\.[[:digit:]]{0,3})?(\.[[:digit:]]{0,3})?(\.[[:digit:]]{0,3})?$` -/
def addressRegex : Regex UInt8 :=
  .seq (.group 1 (.upTo (.cls isDigit) 3))
    (.seq (furtherGroup 2) (.seq (furtherGroup 3) (furtherGroup 4)))

def extractInto (group : ℕ) (text : List UInt8) : ℕ :=
  if text.dropWhile isSpace = [] then group else (extract text).toNat

def validate (g : Groups UInt8) : List ℕ → ℕ → Bool
  | [], _ => true
  | i :: is, group =>
    match g i with
    | none => false
    | some text =>
      let groupString := if 1 < i then text.drop 1 else text
      let group := extractInto group groupString
      if 255 < group then false
      else if groupString.head? = some 48 ∧ 1 < groupString.length then false
      else validate g is group

def matchIPAddress (address : List UInt8) : Bool :=
  match addressRegex.fullMatch address with
  | none => false
  | some g => validate g [1, 2, 3, 4] 0

/-- A group of an address as it has to be: one to three digits, no zero in front of others, at most
255. -/
def IsOctet (w : List UInt8) : Prop :=
  w ≠ [] ∧ w.length ≤ 3 ∧ (∀ c ∈ w, isDigit c = true) ∧ ¬ (w.head? = some 48 ∧ 1 < w.length) ∧
    number 10 w ≤ 255

def IsAddress (s : List UInt8) : Prop := (s.splitOn dot).length = 4 ∧ ∀ w ∈ s.splitOn dot, IsOctet w

/-- Four groups, and there is nothing in one of them. -/
def HasGap (s : List UInt8) : Prop :=
  (s.splitOn dot).length = 4 ∧ [] ∈ s.splitOn dot ∧ ∀ w ∈ s.splitOn dot, w = [] ∨ IsOctet w

/-- `^([[:alpha:]]+://)?([^\/\:]+)(\:[[:digit:]]{1,5})?(.+)?$` -/
def hostNameRegex : Regex UInt8 :=
  .seq (.opt (.group 1 (.seq (.plus (.cls isAlpha)) (.lit (ascii "://")))))
    (.seq (.group 2 (.plus (.cls fun c => decide (c ∉ ascii "/:"))))
      (.seq (.opt (.group 3 (.seq (.lit (ascii ":")) (.seq (.cls isDigit) (.upTo (.cls isDigit) 4)))))
        (.opt (.group 4 (.plus (.cls isLine))))))

def URLToHostName (url : List UInt8) (returnProtocol returnPort : Bool) : List UInt8 :=
  match hostNameRegex.fullMatch url with
  | none => []
  | some g =>
    match g 2 with
    | none => []
    | some host =>
      (if returnProtocol then (g 1).getD [] else []) ++ host ++
        if returnPort then (g 3).getD [] else []

end ACENetwork.Net
