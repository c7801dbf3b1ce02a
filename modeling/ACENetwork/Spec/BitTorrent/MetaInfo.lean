import Mathlib
import ACENetwork.Spec.BitTorrent.BencodingParser

/-! The info hash of a metainfo file (`BitTorrent_Tools::MetaInfoToInfoHash`), and the bytes of the
file that it is to be of. -/

namespace ACENetwork.BitTorrent.MetaInfo

open Bison

/-- `BITTORRENT_METAINFO_INFO_KEY` -/
def infoKey : List UInt8 := [105, 110, 102, 111]

/-- The digest goes through a C string. There is no result for a value that is not a dictionary,
which fails an assertion. -/
def metaInfoToInfoHash (sha1 : List UInt8 → List UInt8) (metaInfo : List (List UInt8 × Bencoding)) :
    Option (List UInt8) :=
  match metaInfo.find? fun e => decide (e.1 = infoKey) with
  | none => some []
  | some (_, .dictionary info) => some (cString (sha1 (Bencoding.dictionary info).encode))
  | some _ => none

/-- The bytes that the scanner read the value of the key `k` from, which has the entries `d` in
front of it. -/
def ReadFrom (debug : Bool) (file : List UInt8) (d : List (List UInt8 × Bencoding)) (k : List UInt8)
    (t : Bencoding) (bytes : List UInt8) : Prop :=
  ∃ s₁ s₂ : Scanner,
    Yields enter (scan debug) { buffer := file }
      ((.dictionary, .dictionary) :: (tokensEntries d ++ [(.string, .string k)])) s₁ ∧
    Yields enter (scan debug) s₁ (tokens t) s₂ ∧ s₁.buffer = bytes ++ s₂.buffer

section

variable (sha1 : List UInt8 → List UInt8) (debug : Bool) (file : List UInt8)
  (metaInfo : List (List UInt8 × Bencoding))

/-- The file starts with the bencoding of what was read from it, and its info hash is the digest of
the bytes that it has itself. -/
structure Canonical : Prop where
  encode : (Bencoding.dictionary metaInfo).encode <+: file
  infoHash : ∀ d info d', metaInfo = d ++ (infoKey, .dictionary info) :: d' → (∀ e ∈ d, e.1 ≠ infoKey) →
    ∃ bytes, ReadFrom debug file d infoKey (.dictionary info) bytes ∧
      metaInfoToInfoHash sha1 metaInfo = some (sha1 bytes)

/-- The digest of the info value has no zero byte. -/
def WholeDigest : Prop :=
  ∀ d info d', metaInfo = d ++ (infoKey, .dictionary info) :: d' → (∀ e ∈ d, e.1 ≠ infoKey) →
    0 ∉ sha1 (Bencoding.dictionary info).encode

end

end ACENetwork.BitTorrent.MetaInfo
