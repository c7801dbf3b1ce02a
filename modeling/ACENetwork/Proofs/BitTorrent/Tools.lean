import Mathlib
import ACENetwork.Spec.BitTorrent.Tools
import ACENetwork.Proofs.Http.UrlEncode

/-! The scrape URL, the size and the info hash of a torrent. The URL of an announce is always
wrong, a size is right below 2 ^ 32, and a hash when no byte of the digest is zero. -/

namespace ACENetwork.BitTorrent

namespace Tracker

theorem findLastOf_eq_none {c : UInt8} {s : List UInt8} : findLastOf c s = none ↔ c ∉ s := by
  induction s with
  | nil => simp [findLastOf]
  | cons a s ih =>
    cases h : findLastOf c s with
    | some i =>
      have hmem : c ∈ s := by
        by_contra hnot
        exact absurd (ih.2 hnot) (by simp [h])
      simp [findLastOf, h, hmem]
    | none => simp [findLastOf, h, ih.1 h, eq_comm]

theorem findLastOf_append {c : UInt8} {after : List UInt8} (h : c ∉ after) (before : List UInt8) :
    findLastOf c (before ++ c :: after) = some before.length := by
  induction before with
  | nil => simp [findLastOf, findLastOf_eq_none.2 h]
  | cons a before ih => rw [List.cons_append, findLastOf, ih]; rfl

theorem exists_last {c : UInt8} {s : List UInt8} (h : c ∈ s) :
    ∃ before after, s = before ++ c :: after ∧ c ∉ after := by
  induction s with
  | nil => exact absurd h List.not_mem_nil
  | cons a s ih =>
    by_cases hs : c ∈ s
    · obtain ⟨before, after, heq, hafter⟩ := ih hs
      exact ⟨a :: before, after, by rw [heq, List.cons_append], hafter⟩
    · rcases List.mem_cons.1 h with rfl | hmem
      · exact ⟨[], s, rfl, hs⟩
      · exact absurd hmem hs

theorem find_eq_some {s needle : List UInt8} {position : ℕ} (h : position ≤ s.length) :
    find s needle position = some position ↔ needle <+: s.drop position := by
  rw [find, List.find?_range_eq_some]
  simp only [List.isPrefixOf_iff_prefix, Bool.and_eq_true, decide_eq_true_eq, List.mem_range]
  constructor
  · exact fun hfound => hfound.1.2
  · intro hprefix
    refine ⟨⟨Nat.le_refl _, hprefix⟩, by omega, fun i hi => ?_⟩
    have hless : ¬ position ≤ i := by omega
    simp [hless]

theorem torrentSupportsScrape_append {before after : List UInt8} (h : slash ∉ after) :
    torrentSupportsScrape (before ++ slash :: after) = true ↔ announceKey <+: after := by
  have hdrop : (before ++ slash :: after).drop (before.length + 1) = after := by
    rw [← List.drop_drop, List.drop_left, List.drop_one, List.tail_cons]
  rw [torrentSupportsScrape, findLastOf_append h]
  simp only [decide_eq_true_eq]
  rw [find_eq_some (by simp), hdrop]

theorem torrentSupportsScrape_iff (announceUrl : List UInt8) :
    torrentSupportsScrape announceUrl = true ↔ ∃ before rest, IsAnnounce announceUrl before rest := by
  constructor
  · intro h
    by_cases hslash : slash ∈ announceUrl
    · obtain ⟨before, after, heq, hafter⟩ := exists_last hslash
      rw [heq, torrentSupportsScrape_append hafter] at h
      obtain ⟨rest, hrest⟩ := h
      refine ⟨before, rest, by rw [heq, hrest], fun hmem => hafter ?_⟩
      rw [← hrest]
      exact List.mem_append_right _ hmem
    · rw [torrentSupportsScrape, findLastOf_eq_none.2 hslash] at h
      exact absurd h Bool.false_ne_true
  · rintro ⟨before, rest, heq, hrest⟩
    rw [heq, torrentSupportsScrape_append]
    · exact List.prefix_append _ _
    · rw [List.mem_append, not_or]
      exact ⟨by decide, hrest⟩

theorem announceUrlToScrapeUrl_eq {announceUrl before rest : List UInt8}
    (h : IsAnnounce announceUrl before rest) :
    announceUrlToScrapeUrl announceUrl = some (before ++ scrapeUriPrefix ++ 101 :: rest) := by
  have hsupports := (torrentSupportsScrape_iff announceUrl).2 ⟨before, rest, h⟩
  obtain ⟨heq, hrest⟩ := h
  have hafter : slash ∉ announceKey ++ rest := by
    rw [List.mem_append, not_or]
    exact ⟨by decide, hrest⟩
  have hdrop : (before ++ slash :: (announceKey ++ rest)).drop (before.length + announceKey.length) =
      101 :: rest := by
    rw [← List.drop_drop, List.drop_left]
    rfl
  rw [announceUrlToScrapeUrl, hsupports, heq, findLastOf_append hafter]
  simp only [Bool.not_true, Bool.false_eq_true, if_false, Option.map_some, replace, List.take_left,
    hdrop]

theorem scrapes_iff (announceUrl : List UInt8) :
    Scrapes announceUrl ↔ ∀ before rest, ¬ IsAnnounce announceUrl before rest := by
  constructor
  · intro h before rest hannounce
    have hscrape := (h.announce before rest hannounce).2
    rw [announceUrlToScrapeUrl_eq hannounce, Option.some.injEq, List.append_assoc] at hscrape
    exact absurd (List.append_cancel_left hscrape) (by simp [scrapeUriPrefix, slash])
  · intro h
    have hsupports : torrentSupportsScrape announceUrl = false := by
      by_contra hsupports
      obtain ⟨before, rest, hannounce⟩ :=
        (torrentSupportsScrape_iff announceUrl).1 (by simpa using hsupports)
      exact h before rest hannounce
    refine ⟨fun before rest hannounce => absurd hannounce (h before rest), fun _ => ⟨hsupports, ?_⟩⟩
    rw [announceUrlToScrapeUrl, hsupports]
    rfl

/-- "http://t/announce" -/
def plainAnnounce : List UInt8 := [104, 116, 116, 112, 58, 47, 47, 116, 47] ++ announceKey

/-- The scrape URL is "http://tscrapee". -/
theorem plainAnnounce_not_scrapes : ¬ Scrapes plainAnnounce := by
  intro h
  have hscrape := (h.announce [104, 116, 116, 112, 58, 47, 47, 116] [] ⟨rfl, by decide⟩).2
  exact absurd hscrape (by decide)

end Tracker

namespace MetaInfo

theorem unsignedLength_natCast (n : ℕ) :
    unsignedLength (some (.integer n)) = some (UInt32.ofNat n) := by
  rw [unsignedLength, UInt32.ofInt]
  norm_cast
  rw [UInt32.ofNat_mod_size]

/-- The loop over the files adds up their sizes, as far as 32 bits go. -/
theorem foldlM_addLength {files : List Bencoding} {lengths : List ℕ}
    (h : List.Forall₂ (fun file (n : ℕ) => ∃ d, file = .dictionary d ∧
      lookup infoLengthKey d = some (.integer n)) files lengths) (m : ℕ) :
    files.foldlM addLength (UInt32.ofNat m) = some (UInt32.ofNat (m + lengths.sum)) := by
  induction h generalizing m with
  | nil => rfl
  | @cons file n files lengths hfile _ ih =>
    obtain ⟨d, rfl, hlength⟩ := hfile
    have hadd : addLength (UInt32.ofNat m) (.dictionary d) = some (UInt32.ofNat (m + n)) := by
      rw [addLength, hlength, unsignedLength_natCast, Option.map_some, UInt32.ofNat_add]
    rw [List.foldlM_cons, hadd, List.sum_cons, ← Nat.add_assoc]
    exact ih (m + n)

theorem metaInfoToLength_eq {metaInfo info : List (List UInt8 × Bencoding)} {total : ℕ}
    (hinfo : lookup infoKey metaInfo = some (.dictionary info)) (h : LengthOf info total) :
    metaInfoToLength metaInfo = some (UInt32.ofNat total) := by
  rw [metaInfoToLength, hinfo]
  cases h with
  | file n hlength =>
    simp only [hlength]
    exact unsignedLength_natCast total
  | files files lengths hno hfiles hlengths =>
    simp only [hno, hfiles]
    have hsum := foldlM_addLength hlengths 0
    rwa [Nat.zero_add] at hsum

theorem metaInfoToLength_iff {metaInfo info : List (List UInt8 × Bencoding)} {total : ℕ}
    (hinfo : lookup infoKey metaInfo = some (.dictionary info)) (h : LengthOf info total) :
    (metaInfoToLength metaInfo).map UInt32.toNat = some total ↔ total < 2 ^ 32 := by
  rw [metaInfoToLength_eq hinfo h, Option.map_some, Option.some.injEq, UInt32.toNat_ofNat']
  exact Nat.mod_eq_iff_lt (by decide)

/-- Two files, the entries in another order. -/
def twoFiles : List (List UInt8 × Bencoding) :=
  [(infoFilesKey, .list [.dictionary [(infoLengthKey, .integer 3)],
    .dictionary [([112], .list []), (infoLengthKey, .integer 4)]])]

theorem twoFiles_length : (metaInfoToLength [(infoKey, .dictionary twoFiles)]).map UInt32.toNat = some 7 := by
  have hlength : LengthOf twoFiles [3, 4].sum := by
    apply LengthOf.files _ [3, 4] rfl rfl
    exact .cons ⟨_, rfl, rfl⟩ (.cons ⟨_, rfl, rfl⟩ .nil)
  exact (metaInfoToLength_iff rfl hlength).2 (by decide)

/-- A single file of 2 ^ 32 bytes. -/
theorem fourGiB_length : LengthOf [(infoLengthKey, .integer 4294967296)] 4294967296 ∧
    (metaInfoToLength [(infoKey, .dictionary [(infoLengthKey, .integer 4294967296)])]).map UInt32.toNat =
      some 0 := ⟨.file _ rfl, rfl⟩

theorem metaInfoToInfoHash_eq {sha1 : List UInt8 → List UInt8}
    {metaInfo info : List (List UInt8 × Bencoding)}
    (hinfo : lookup infoKey metaInfo = some (.dictionary info)) :
    metaInfoToInfoHash sha1 metaInfo = some (cString (sha1 (Bencoding.dictionary info).encode)) := by
  rw [lookup, Option.map_eq_some_iff] at hinfo
  obtain ⟨⟨k, t⟩, hfind, rfl⟩ := hinfo
  rw [metaInfoToInfoHash, hfind]

/-- Only the whole digest is of use. -/
theorem serves_iff {locale : Http.Locale} (hlocale : locale.Ascii)
    (sha1 : List UInt8 → Octets Peer.infoHashSize) {metaInfo info : List (List UInt8 × Bencoding)}
    (hinfo : lookup infoKey metaInfo = some (.dictionary info)) :
    (∃ hash, metaInfoToInfoHash (fun s => (sha1 s).1) metaInfo = some hash ∧
        Serves locale (sha1 (Bencoding.dictionary info).encode).1 hash) ↔
      0 ∉ (sha1 (Bencoding.dictionary info).encode).1 := by
  generalize hdigest : sha1 (Bencoding.dictionary info).encode = octets
  obtain ⟨digest, hlength⟩ := octets
  have hhash : metaInfoToInfoHash (fun s => (sha1 s).1) metaInfo = some (cString digest) := by
    rw [metaInfoToInfoHash_eq hinfo, hdigest]
  constructor
  · rintro ⟨hash, heq, hserves⟩
    rw [hhash, Option.some.injEq] at heq
    apply cString_eq_self.1
    rw [heq]
    exact hserves.whole
  · intro hzero
    rw [cString_eq_self.2 hzero] at hhash
    obtain ⟨f, hwrites, hencode⟩ := Http.urlEncode_eq_flatMap hlocale digest
    refine ⟨digest, hhash, rfl, hlength.ge, ?_, _, hencode, (Percent.encoded_flatMap hwrites digest).2⟩
    rw [Peer.Streamer.cStr, if_pos (by omega), List.take_append_of_le_length hlength.ge,
      List.take_of_length_le hlength.le]

/-- The digest of `de`. -/
def emptyDigest : Octets Peer.infoHashSize :=
  ⟨[96, 12, 205, 27, 113, 86, 146, 50, 208, 29, 17, 11, 198, 62, 144, 107, 234, 176, 77, 140], rfl⟩

theorem emptyDigest_serves :
    ∃ hash, metaInfoToInfoHash (fun _ => emptyDigest.1) [(infoKey, .dictionary [])] = some hash ∧
      Serves Http.usAscii emptyDigest.1 hash :=
  (serves_iff Http.usAscii_ascii (fun _ => emptyDigest) rfl).2 (by decide)

/-- The digest of `d6:lengthi1ee`. -/
def oneByteDigest : Octets Peer.infoHashSize :=
  ⟨[210, 242, 56, 237, 201, 0, 94, 231, 78, 128, 98, 161, 176, 137, 134, 109, 171, 248, 46, 43], rfl⟩

theorem oneByteDigest_not_serves :
    ¬ ∃ hash, metaInfoToInfoHash (fun _ => oneByteDigest.1)
        [(infoKey, .dictionary [(infoLengthKey, .integer 1)])] = some hash ∧
      Serves Http.usAscii oneByteDigest.1 hash := by
  rintro ⟨hash, heq, hserves⟩
  rw [metaInfoToInfoHash_eq rfl, Option.some.injEq] at heq
  have hzero : (0 : UInt8) ∉ oneByteDigest.1 := by
    apply cString_eq_self.1
    rw [heq]
    exact hserves.whole
  exact hzero (by decide)

end MetaInfo

end ACENetwork.BitTorrent
