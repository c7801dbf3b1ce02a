import Mathlib
import ACENetwork.Library.Loop
import ACENetwork.Spec.Ace
import ACENetwork.Spec.Dhcp.Record

/-! What `DHCP_Tools::dump` reads of a record: the values of its options, each by the kind of its
field. The lines of the fixed fields in front of them are left out; they cannot fail. -/

namespace ACENetwork.Dhcp.Dump

open Std ByteOrder

/-- What is appended to the text. The names of options and of types of messages are looked up by
their numbers. -/
inductive Piece where
  | text (s : String)
  | number (n : ℕ)
  | address (octets : List UInt8)
  | string (octets : List UInt8)
  | option (tag : UInt8)
  | messageType (n : UInt8)
  deriving DecidableEq, Repr

/-- Why the text is not what was asked for: an assertion fails, or an octet is read that must not
be. -/
inductive Fault where
  | assertion
  | outside
  deriving DecidableEq, Repr

def readAddress (readable : List UInt8) (offset : ℕ) : Option (List UInt8) :=
  if offset + 4 ≤ readable.length then some ((readable.drop offset).take 4) else none

/-- The loop over `n` addresses, the first of which has the number `i + 1`. -/
def printAddresses (readable : List UInt8) (pointer : ℕ) : ℕ → ℕ → Option (List Piece)
  | _, 0 => some []
  | i, n + 1 =>
    match readAddress readable (pointer + i * 4), printAddresses readable pointer (i + 1) n with
    | some address, some pieces =>
      some (.text "\n" :: .text "\t#" :: .number (i + 1) :: .text ": " :: .address address :: pieces)
    | _, _ => none

structure Cursor where
  pointer : ℕ
  usedBytes : UInt32
  text : List Piece
  deriving DecidableEq, Repr

section

variable (readable : List UInt8) (size : ℕ)

def nextList (c : Cursor) : Loop.Next Cursor (Except Fault (List Piece)) :=
  match readable[c.pointer]? with
  | none => .done (.error .outside)
  | some octet =>
    let numIpAddresses := (octet / 4).toNat
    let pointer := c.pointer + 1
    match printAddresses readable pointer 0 numIpAddresses with
    | none => .done (.error .outside)
    | some pieces =>
      let usedBytes := c.usedBytes + UInt32.ofNat (numIpAddresses * 4)
      let text := c.text ++ pieces
      if usedBytes.toNat < size then
        .again { pointer := pointer + numIpAddresses * 4, usedBytes := usedBytes, text := text }
      else .done (.ok text)

def first : Loop.Next Cursor (Except Fault (List Piece)) :=
  if size < 5 then .done (.error .assertion) else
  let numIpAddresses := (readable.headD 0 / 4).toNat
  if numIpAddresses < 1 then .done (.error .assertion) else
  match readAddress readable 1 with
  | none => .done (.error .outside)
  | some address =>
    if numIpAddresses = 1 then .done (.ok [.address address])
    else .again { pointer := 1, usedBytes := 1, text := [] }

/-- The lists of addresses. The pointer moves on in every round, and never past what may be read. -/
def dumpAddresses : Except Fault (List Piece) :=
  match first readable size with
  | .done r => r
  | .again c => (Loop.run (nextList readable size) (readable.length + 1) c).getD (.error .outside)

end

/-- The text of a value is `r`, where nothing but its own octets may be read. -/
def Dumps (value : List UInt8) (r : Except Fault (List Piece)) : Prop :=
  match first value value.length with
  | .done r' => r = r'
  | .again c => Loop.Returns (nextList value value.length) c r

inductive FieldType where
  | address
  | command
  | integer
  | string
  | addresses
  | invalid
  deriving DecidableEq, Repr

def optionToFieldType : UInt8 → FieldType
  | 1 | 3 | 6 | 28 | 54 | 42 => .address
  | 53 => .command
  | 2 | 26 | 51 | 58 | 59 => .integer
  | 12 | 15 | 43 => .string
  | 158 => .addresses
  | _ => .invalid

/-- One option. Its value is read through `c_str ()`, so there is a NUL behind it. Integers are in
the order of the network, and one of another size is only logged. -/
def dumpOption (tag : UInt8) (value : List UInt8) : Except Fault (List Piece) :=
  let readable := value ++ [0]
  match optionToFieldType tag with
  | .address =>
    if value.length % 4 ≠ 0 then .error .assertion else
    match readAddress readable 0 with
    | none => .error .outside
    | some ipAddress =>
      if value.length = 4 then .ok [.address ipAddress] else
      match printAddresses readable 0 0 (value.length / 4) with
      | none => .error .outside
      | some pieces => .ok pieces
  | .command => .ok [.messageType (readable.headD 0)]
  | .string => .ok [.text "\"", .string (cString value), .text "\""]
  | .integer => .ok (if value.length ∈ [1, 2, 4] then [.number (load .big value)] else [])
  | .addresses => dumpAddresses readable value.length
  | .invalid => .ok []

def dumpOptions : List (UInt8 × List UInt8) → Except Fault (List Piece)
  | [] => .ok [.text "options /END\n"]
  | (tag, value) :: options => do
    let pieces ← dumpOption tag value
    let rest ← dumpOptions options
    return .option tag :: pieces ++ .text "\n" :: rest

def dump (r : Record) : Except Fault (List Piece) := dumpOptions r.options.toList

def Piece.address? : Piece → Option (List UInt8)
  | .address octets => some octets
  | _ => none

/-- A list of addresses behind the number of its octets. -/
structure AddressList where
  addresses : List (Octets 4)
  nonempty : addresses ≠ []
  counted : 4 * addresses.length ≤ 255

def AddressList.octets (l : AddressList) : List UInt8 :=
  UInt8.ofNat (4 * l.addresses.length) :: l.addresses.flatMap Subtype.val

/-- The dump of a value with these lists ends, and has their addresses in their order. -/
def PrintsAll (lists : List AddressList) : Prop :=
  ∃ text, Dumps (lists.flatMap AddressList.octets) (.ok text) ∧
    text.filterMap Piece.address? = lists.flatMap fun l => l.addresses.map Subtype.val

/-- A value that can be printed: addresses are there and complete; of lists of addresses the first
has one address, or else the first octet of that address counts, as a length, all octets but one. -/
def Printable (tag : UInt8) (value : List UInt8) : Prop :=
  (optionToFieldType tag = .address → value ≠ [] ∧ value.length % 4 = 0) ∧
    (optionToFieldType tag = .addresses → 5 ≤ value.length ∧ 4 ≤ (value.getD 0 0).toNat ∧
      ((value.getD 0 0).toNat < 8 ∨ value.length = (value.getD 1 0).toNat / 4 * 4 + 1))

instance (tag : UInt8) (value : List UInt8) : Decidable (Printable tag value) :=
  inferInstanceAs (Decidable (_ ∧ _))

end ACENetwork.Dhcp.Dump
