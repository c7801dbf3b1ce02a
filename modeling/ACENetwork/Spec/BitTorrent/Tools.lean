import Mathlib
import ACENetwork.Spec.BitTorrent.MetaInfo
import ACENetwork.Spec.BitTorrent.Peer
import ACENetwork.Spec.Http.UrlEncode

/-! What `BitTorrent_Tools` makes of an announce URL and of the metainfo: the scrape URL, the size
of the torrent and the info hash, and what each of them is for. -/

namespace ACENetwork.BitTorrent

namespace Tracker

/-- `BITTORRENT_METAINFO_ANNOUNCE_KEY` -/
def announceKey : List UInt8 := [97, 110, 110, 111, 117, 110, 99, 101]

/-- `BITTORRENT_TRACKER_SCRAPE_URI_PREFIX` -/
def scrapeUriPrefix : List UInt8 := [115, 99, 114, 97, 112, 101]

def slash : UInt8 := 47

def findLastOf (c : UInt8) : List UInt8 → Option ℕ
  | [] => none
  | a :: s =>
    match findLastOf c s with
    | some i => some (i + 1)
    | none => if a = c then some 0 else none

def find (s needle : List UInt8) (position : ℕ) : Option ℕ :=
  (List.range (s.length + 1)).find? fun i => decide (position ≤ i) && needle.isPrefixOf (s.drop i)

def replace (s : List UInt8) (position count : ℕ) (text : List UInt8) : List UInt8 :=
  s.take position ++ text ++ s.drop (position + count)

def torrentSupportsScrape (announceUrl : List UInt8) : Bool :=
  match findLastOf slash announceUrl with
  | none => false
  | some position => decide (find announceUrl announceKey (position + 1) = some (position + 1))

/-- There is no result when the assertion fails. -/
def announceUrlToScrapeUrl (announceUrl : List UInt8) : Option (List UInt8) :=
  if !torrentSupportsScrape announceUrl then some [] else
  (findLastOf slash announceUrl).map fun position =>
    replace announceUrl position announceKey.length scrapeUriPrefix

/-- The text behind the last `/` starts with the keyword, and `rest` is what is behind that. -/
def IsAnnounce (announceUrl before rest : List UInt8) : Prop :=
  announceUrl = before ++ slash :: (announceKey ++ rest) ∧ slash ∉ rest

/-- What a tracker expects: in the URL of an announce, the keyword is replaced, and from any other
URL there is no way to scrape. -/
structure Scrapes (announceUrl : List UInt8) : Prop where
  announce : ∀ before rest, IsAnnounce announceUrl before rest →
    torrentSupportsScrape announceUrl = true ∧
      announceUrlToScrapeUrl announceUrl = some (before ++ slash :: (scrapeUriPrefix ++ rest))
  other : (∀ before rest, ¬ IsAnnounce announceUrl before rest) →
    torrentSupportsScrape announceUrl = false ∧ announceUrlToScrapeUrl announceUrl = some []

end Tracker

namespace MetaInfo

/-- `BITTORRENT_METAINFO_INFO_LENGTH_KEY` -/
def infoLengthKey : List UInt8 := [108, 101, 110, 103, 116, 104]

/-- `BITTORRENT_METAINFO_INFO_FILES_KEY` -/
def infoFilesKey : List UInt8 := [102, 105, 108, 101, 115]

/-- The value of the first entry with a key. -/
def lookup (key : List UInt8) (d : List (List UInt8 × Bencoding)) : Option Bencoding :=
  (d.find? fun e => decide (e.1 = key)).map Prod.snd

/-- An integer that an assertion wants to be there, as an `unsigned int`. -/
def unsignedLength (t : Option Bencoding) : Option UInt32 :=
  match t with
  | some (.integer n) => some (UInt32.ofInt n)
  | _ => none

def addLength (result : UInt32) (file : Bencoding) : Option UInt32 :=
  match file with
  | .dictionary d => (unsignedLength (lookup infoLengthKey d)).map (result + ·)
  | _ => none

/-- There is no result when an assertion fails. -/
def metaInfoToLength (metaInfo : List (List UInt8 × Bencoding)) : Option UInt32 :=
  match lookup infoKey metaInfo with
  | some (.dictionary info) =>
    match lookup infoLengthKey info with
    | some length => unsignedLength (some length)
    | none =>
      match lookup infoFilesKey info with
      | some (.list files) => files.foldlM addLength 0
      | _ => none
  | _ => none

/-- The number of bytes of a torrent: that of its file, or the sum over its files. -/
inductive LengthOf (info : List (List UInt8 × Bencoding)) : ℕ → Prop where
  | file (n : ℕ) (h : lookup infoLengthKey info = some (.integer n)) : LengthOf info n
  | files (files : List Bencoding) (lengths : List ℕ) (hno : lookup infoLengthKey info = none)
    (hfiles : lookup infoFilesKey info = some (.list files))
    (h : List.Forall₂ (fun file (n : ℕ) => ∃ d, file = .dictionary d ∧
      lookup infoLengthKey d = some (.integer n)) files lengths) : LengthOf info lengths.sum

/-- The info hash is the digest of the bencoded dictionary, its 20 bytes are those that go into a
handshake, and a tracker decodes them from what is sent to it. -/
structure Serves (locale : Http.Locale) (digest hash : List UInt8) : Prop where
  whole : hash = digest
  inside : Peer.infoHashSize ≤ hash.length
  handshake : Peer.Streamer.cStr hash Peer.infoHashSize = .ok digest
  tracker : ∃ text, Http.urlEncode (some locale) hash = some text ∧ Percent.decode text = some digest

end MetaInfo

end ACENetwork.BitTorrent
