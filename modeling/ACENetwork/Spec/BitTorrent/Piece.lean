import Mathlib
import ACENetwork.Spec.BitTorrent.PeerParser

/-! The action of `state_piece` in `scanner.l` when the data of a piece is spread over a chain of
fragments. -/

namespace ACENetwork.BitTorrent.Piece

/-- Whether the parser waits for more fragments, and whether the scanner reads them in place. -/
structure Driver where
  isBlocking : Bool
  useYYScanBuffer : Bool

/-- The fragment with the header of the piece, the number of its octets that have been scanned, and
the fragments behind it. -/
structure Input where
  block : List UInt8
  offset : ℕ
  cont : List (List UInt8)

def Input.rest (x : Input) : List UInt8 := x.block.drop x.offset

def Input.stream (x : Input) : List UInt8 := x.rest ++ x.cont.flatten

/-- The chain from the fragment with the header on, and which fragment of it the parser is at. -/
structure Chain where
  passed : List (List UInt8)
  fragment : List UInt8
  cont : List (List UInt8)

/-- The blocks that are unlinked from the chain as the piece, and those that are left with the scanner
at their start; or an assertion fails, or the scanner stops. -/
inductive Outcome where
  | piece (framed rest : List (List UInt8))
  | assertion
  | end_
  deriving DecidableEq, Repr

/-- `BitTorrent_Scanner_wrap`, as often as the scanner is at the end of a fragment. -/
def wrap (passed : List (List UInt8)) (fragment : List UInt8) : List (List UInt8) → Option Chain
  | [] => if fragment = [] then none else some ⟨passed, fragment, []⟩
  | f :: fs =>
    if fragment = [] then wrap (passed ++ [fragment]) f fs else some ⟨passed, fragment, f :: fs⟩

/-- The octet that the rule matches. In a copy of the fragment two NULs stand behind the last octet. -/
def matchOctet (d : Driver) (x : Input) : Option Chain :=
  if x.rest = [] ∧ d.useYYScanBuffer = true then
    if d.isBlocking then wrap [] x.rest x.cont else none
  else some ⟨[], x.rest, x.cont⟩

/-- A duplicate of the block with the header is inserted behind it, and both are cut. -/
def Chain.split (n : ℕ) (c : Chain) : Chain :=
  match c.passed with
  | [] => ⟨[], c.fragment.take n, c.fragment.drop n :: c.cont⟩
  | block :: passed => ⟨block.take n :: block.drop n :: passed, c.fragment, c.cont⟩

/-- A duplicate of the fragment is inserted behind it, which is cut. -/
def Chain.cut (n : ℕ) (c : Chain) : Chain := ⟨c.passed, c.fragment.take n, c.fragment :: c.cont⟩

/-- The loop over the fragments, which starts behind the first one. -/
def skip (bytesToSkip skippedBytes : UInt32) (passed : List (List UInt8)) (fragment : List UInt8) :
    List (List UInt8) → Option (UInt32 × Chain)
  | [] => if skippedBytes ≤ bytesToSkip then none else some (skippedBytes, ⟨passed, fragment, []⟩)
  | f :: fs =>
    if skippedBytes ≤ bytesToSkip then
      skip bytesToSkip (skippedBytes + UInt32.ofNat f.length) (passed ++ [fragment]) f fs
    else some (skippedBytes, ⟨passed, fragment, f :: fs⟩)

/-- A block after `yyinput` has read the first octets of a duplicate: it puts NULs in their place,
which are in the block too if its data is scanned in place. -/
def gobble (d : Driver) (n : ℕ) (block : List UInt8) : List UInt8 :=
  if d.useYYScanBuffer = true then List.replicate n 0 ++ block.drop n else block

/-- The last buffer switch, which unlinks the blocks in front of the next one. -/
def leave (d : Driver) (remainder : ℕ) (c : Chain) : Outcome :=
  match c.cont with
  | [] => .end_
  | f :: fs => .piece (c.passed ++ [gobble d remainder c.fragment]) (f.drop remainder :: fs)

def frame (d : Driver) (bytesToSkip remainder : UInt32) (rest : List UInt8) (c : Chain) : Outcome :=
  if (rest.take bytesToSkip.toNat).length ≠ bytesToSkip.toNat then .assertion else
  if (rest.drop bytesToSkip.toNat).length ≠ remainder.toNat then .assertion else
  leave d 0 (c.split bytesToSkip.toNat)

def frameTrailing (d : Driver) (bytesToSkip : UInt32) (c : Chain) : Outcome :=
  match skip bytesToSkip 0 c.passed c.fragment c.cont with
  | none => .end_
  | some (skippedBytes, c) =>
    let remainder := (skippedBytes - bytesToSkip).toNat
    if (c.fragment.take remainder).length ≠ remainder then .assertion else
    leave d remainder (c.cut remainder)

def statePiece (d : Driver) (length : UInt32) (x : Input) : Outcome :=
  match matchOctet d x with
  | none => .end_
  | some c =>
    let bytesToSkip := length - 9
    let remainder := UInt32.ofNat x.rest.length
    if bytesToSkip ≤ remainder then frame d bytesToSkip remainder x.rest c
    else frameTrailing d bytesToSkip c

def Outcome.scan (r : Peer.Record) (s : Peer.State) :
    Outcome → Bison.Scan Peer.Token Peer.Value Peer.Fault Peer.State
  | .piece _ rest => Peer.finish .piece r { s with buffer := rest.flatten }
  | .assertion => .fault .assertion
  | .end_ => .token .end_ s.yylval s

/-- The first `n` octets of the stream are framed, and the scanner is at the next one. -/
def Outcome.Frames (o : Outcome) (stream : List UInt8) (n : ℕ) : Prop :=
  ∃ framed rest, o = .piece framed rest ∧ framed.flatten = stream.take n ∧ rest.flatten = stream.drop n

/-- The octets of the piece in the fragment that it ends in are as many as the octets of all fragments
but the first one up to there have in excess of the piece; and they are NULs if they are scanned in
place. -/
structure EndsIn (d : Driver) (n first : ℕ) (before : List (List UInt8)) (last : List UInt8) : Prop where
  skipped : n < (before.flatten.length + last.length) % 2 ^ 32
  balanced : first + before.flatten.length + ((before.flatten.length + last.length) % 2 ^ 32 - n) = n
  nuls : d.useYYScanBuffer = true → ∀ a ∈ last.take (n - (first + before.flatten.length)), a = 0

/-- The piece ends in one of the fragments behind the first one. -/
def Trails (d : Driver) (n first : ℕ) (cont : List (List UInt8)) : Prop :=
  ∃ before last after, cont = before ++ last :: after ∧ EndsIn d n first before last

/-- The inputs for which the action is right. -/
def Manageable (d : Driver) (n : ℕ) (x : Input) : Prop :=
  if x.rest = [] ∧ d.useYYScanBuffer = true then
    d.isBlocking = true ∧ ∃ block cont, x.cont.dropWhile (· = []) = block :: cont ∧
      Trails d n block.length cont
  else n = 0 ∧ x.rest.length < 2 ^ 32 ∨ Trails d n x.rest.length x.cont

end ACENetwork.BitTorrent.Piece
