import Mathlib
import ACENetwork.Library.ByteOrder
import ACENetwork.Spec.Dhcp.Parser

/-! What a DHCP datagram looks like, independently of how it is scanned and parsed: the widths
of its fixed fields, and a walk over its options. The walk knows one thing about the parser,
the number of entries that its stack can hold. -/

namespace ACENetwork.Dhcp

open ByteOrder

/-- How a walk over the options ends: at the END tag, at the end of the datagram, at a
length octet that exceeds what is left, or at the last entry that the parser can hold. -/
inductive Ending where
  | endTag
  | endOfData
  | overrun
  | full
  deriving DecidableEq, Repr

/-- The walk after `k` options, and the values that it passes. Three entries of the stack
are taken before the first option, and while an option is read its tag and its value take two. -/
def walk (k : ℕ) : List UInt8 → Ending × List (UInt8 × List UInt8)
  | [] => (if maxDepth ≤ k + 4 then .full else .endOfData, [])
  | tag :: b =>
    if maxDepth ≤ k + 4 then (.full, []) else
    if tag = optionTagEnd then (.endTag, []) else
    if tag = optionTagPad then walk (k + 1) b else
    match b with
    | [] => walk (k + 1) []
    | size :: b =>
      if b.length < size.toNat then (.overrun, []) else
      if maxDepth ≤ k + 5 then (.full, []) else
      let rest := walk (k + 1) (b.drop size.toNat)
      (rest.1, (tag, b.take size.toNat) :: rest.2)
  termination_by b => b.length
  decreasing_by all_goals simp; try omega

section

variable {k : ℕ} {tag size : UInt8} {b : List UInt8}

theorem walk_nil : walk k [] = (if maxDepth ≤ k + 4 then .full else .endOfData, []) := by
  unfold walk
  rfl

theorem walk_full (h : maxDepth ≤ k + 4) : walk k (tag :: b) = (.full, []) := by
  unfold walk
  exact if_pos h

theorem walk_endTag (h : ¬ maxDepth ≤ k + 4) : walk k (optionTagEnd :: b) = (.endTag, []) := by
  unfold walk
  rw [if_neg h, if_pos rfl]

theorem walk_pad (h : ¬ maxDepth ≤ k + 4) : walk k (optionTagPad :: b) = walk (k + 1) b := by
  conv_lhs => unfold walk
  rw [if_neg h, if_neg (by decide), if_pos rfl]

theorem walk_last_tag (h : ¬ maxDepth ≤ k + 4) (he : tag ≠ optionTagEnd) (hp : tag ≠ optionTagPad) :
    walk k [tag] = walk (k + 1) [] := by
  conv_lhs => unfold walk
  rw [if_neg h, if_neg he, if_neg hp]

theorem walk_value (h : ¬ maxDepth ≤ k + 4) (he : tag ≠ optionTagEnd) (hp : tag ≠ optionTagPad) :
    walk k (tag :: size :: b) =
      if b.length < size.toNat then (.overrun, []) else
      if maxDepth ≤ k + 5 then (.full, []) else
      ((walk (k + 1) (b.drop size.toNat)).1,
        (tag, b.take size.toNat) :: (walk (k + 1) (b.drop size.toNat)).2) := by
  conv_lhs => unfold walk
  rw [if_neg h, if_neg he, if_neg hp]

end

/-- A list of options in which every value is complete, up to the END tag or to the end. -/
def wellFormed : List UInt8 → Bool
  | [] => true
  | tag :: b =>
    if tag = optionTagEnd then true else
    if tag = optionTagPad then wellFormed b else
    match b with
    | [] => false
    | size :: b => decide (size.toNat ≤ b.length) && wellFormed (b.drop size.toNat)
  termination_by b => b.length
  decreasing_by all_goals simp; try omega

/-- The fixed fields in their order: their widths, and whether the scanner insists that they
are not zero. -/
def layout : List (ℕ × Bool) :=
  [(1, true), (1, true), (1, true), (1, false), (4, true), (2, false), (2, false), (4, false),
    (4, false), (4, false), (4, false), (16, false), (64, false), (128, false), (4, true)]

/-- The fields are read without an error: each is complete and not zero where it must not be,
and `tail` holds of what follows them; or the datagram ends between two fields. -/
def FieldsSafe (tail : List UInt8 → Prop) : List (ℕ × Bool) → List UInt8 → Prop
  | [], b => tail b
  | (width, required) :: fields, b =>
    b = [] ∨ (width ≤ b.length ∧ (required = true → ∃ a ∈ b.take width, a ≠ 0) ∧
      FieldsSafe tail fields (b.drop width))

/-- All the fields are there, and not zero where they must not be. -/
def FieldsPresent : List (ℕ × Bool) → List UInt8 → Prop
  | [], _ => True
  | (width, required) :: fields, b =>
    width ≤ b.length ∧ (required = true → ∃ a ∈ b.take width, a ≠ 0) ∧
      FieldsPresent fields (b.drop width)

instance decidableFieldsPresent :
    (fields : List (ℕ × Bool)) → (b : List UInt8) → Decidable (FieldsPresent fields b)
  | [], _ => isTrue trivial
  | (width, required) :: fields, b =>
    have := decidableFieldsPresent fields (b.drop width)
    inferInstanceAs (Decidable (width ≤ b.length ∧
      (required = true → ∃ a ∈ b.take width, a ≠ 0) ∧ FieldsPresent fields (b.drop width)))

/-- The octets of the fields, cut by their widths. -/
def split : List ℕ → List UInt8 → List (List UInt8)
  | [], _ => []
  | width :: widths, b => b.take width :: split widths (b.drop width)

theorem split_flatten (fields : List (List UInt8)) (b : List UInt8) :
    split (fields.map List.length) (fields.flatten ++ b) = fields := by
  induction fields with
  | nil => rfl
  | cons f fields ih => simp [split, ih]

def toOctets (n : ℕ) (b : List UInt8) : Octets n :=
  ⟨(b ++ List.replicate n 0).take n, by simp⟩

theorem toOctets_eq {n : ℕ} {b : List UInt8} (h : b.length = n) : toOctets n b = ⟨b, h⟩ :=
  Subtype.ext (by simp [toOctets, ← h])

/-- The number that the host of the parser sees in a field. -/
def field (e : Endian) (b : List UInt8) : UInt32 := UInt32.ofNat (load e b)

/-- The record of the fourteen fields in front of the magic cookie, as the parser stores them. -/
def headerRecord (e : Endian) (record : Record) : List (List UInt8) → Record
  | [op, htype, hlen, hops, xid, secs, flags, ciaddr, yiaddr, siaddr, giaddr, chaddr, sname, file] =>
    { record with
      op := (field e op).toUInt8
      htype := (field e htype).toUInt8
      hlen := (field e hlen).toUInt8
      hops := (field e hops).toUInt8
      xid := swapLong e (field e xid)
      secs := (field e secs).toUInt16
      flags := (field e flags).toUInt16
      ciaddr := field e ciaddr
      yiaddr := field e yiaddr
      siaddr := field e siaddr
      giaddr := field e giaddr
      chaddr := toOctets chaddrSize chaddr
      sname := cString sname
      file := cString file }
  | _ => record

def headerWidths : List ℕ := [1, 1, 1, 1, 4, 2, 2, 4, 4, 4, 4, 16, 64, 128]

/-- The octets at the offset of the magic cookie. -/
def cookieOctets (b : List UInt8) : List UInt8 := (b.drop 236).take 4

def optionOctets (b : List UInt8) : List UInt8 := b.drop 240

def optionValue (b : List UInt8) (tag : UInt8) : Option (List UInt8) :=
  ((walk 0 (optionOctets b)).2.find? fun v => decide (v.1 = tag)).map Prod.snd

/-- The options that are kept can be dumped. -/
def OptionsPrintable (b : List UInt8) : Prop :=
  ∀ tag value, optionValue b tag = some value → Dump.Printable tag value

/-- What stands in front of the END tag: PAD octets, and options with a tag of their own and
a value that its length octet can count. -/
inductive Item where
  | pad
  | option (tag : UInt8) (value : List UInt8) (tagged : tag ≠ optionTagPad ∧ tag ≠ optionTagEnd)
      (counted : value.length ≤ 255)

def Item.octets : Item → List UInt8
  | .pad => [optionTagPad]
  | .option tag value _ _ => tag :: UInt8.ofNat value.length :: value

def itemOctets (items : List Item) : List UInt8 := items.flatMap Item.octets

def Item.entry : Item → Option (UInt8 × List UInt8)
  | .pad => none
  | .option tag value _ _ => some (tag, value)

def firstValue (items : List Item) (tag : UInt8) : Option (List UInt8) :=
  items.findSome? fun
    | .pad => none
    | .option tag' value _ _ => if tag' = tag then some value else none

/-- The fields in front of the options, all of them there, and not zero where they must not be. -/
def Head (b : List UInt8) : Prop := b.length = 240 ∧ FieldsPresent layout b

instance (b : List UInt8) : Decidable (Head b) := inferInstanceAs (Decidable (_ ∧ _))

end ACENetwork.Dhcp
