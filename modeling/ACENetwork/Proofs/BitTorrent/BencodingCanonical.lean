import Mathlib
import ACENetwork.Spec.BitTorrent.MetaInfo
import ACENetwork.Proofs.BitTorrent.BencodingParser

/-! Which bencodings of dictionaries are accepted for these, and which accepted files are
bencodings. Behind the outermost dictionary the scanner has to be asked for the end once more. -/

namespace ACENetwork.BitTorrent.MetaInfo

open Flex Bison

variable {debug : Bool} {file rest : List UInt8} {s s' : Scanner} {t : Bencoding}
  {d d' : List (List UInt8 × Bencoding)}

theorem lexes_file (b : List UInt8) :
    Lexes (scan debug) (enter { buffer := 100 :: b }) .dictionary .dictionary
      ⟨.dictionaryKey, [.dictionaryKey], b, 0⟩ :=
  .token scan_initialDictionary

theorem yields_file (hd : Bencoding.AllEntries Scannable d) (rest : List UInt8) :
    Yields enter (scan debug) { buffer := (Bencoding.dictionary d).encode ++ rest }
      (tokens (.dictionary d)) ⟨.dictionaryKey, [], rest, 0⟩ := by
  apply yields_dictionary (yields_of_scannable_entries d hd)
  rw [Bencoding.encode, List.cons_append, List.append_assoc]
  exact lexes_file _

theorem scannable_of_file
    (h : Yields enter (scan debug) { buffer := (Bencoding.dictionary d).encode ++ rest }
      (tokens (.dictionary d)) s') : Bencoding.AllEntries Scannable d := by
  have hflat : (Bencoding.dictionary d).All flat := flat_of_yields h
  rw [Bencoding.encode, List.cons_append, List.append_assoc] at h
  obtain ⟨-, -, h⟩ := (yields_cons_iff (lexes_file _)).1 h
  obtain ⟨s₁, hentries, -⟩ := yields_append_iff.1 h
  exact scannable_of_yields_entries d hflat _ _ _ _ ⟨0, Or.inl rfl⟩ hentries

theorem exists_end_iff (debug : Bool) (c : Start) (stack : List Start) :
    (∃ s', Lexes (scan debug) (enter ⟨c, stack, [], 0⟩) .end_ .none s') ↔ debug = false := by
  have hscan : scan debug (enter ⟨c, stack, [], 0⟩) =
      if debug then .fault .assertion else .token .end_ .none ⟨c, stack, [], 0⟩ := by
    unfold scan enter
    rw [if_pos rfl]
  cases debug with
  | false =>
    rw [if_neg (by simp)] at hscan
    simp only [iff_true]
    exact ⟨_, .token hscan⟩
  | true =>
    rw [if_pos rfl] at hscan
    simp only [Bool.true_eq_false, iff_false]
    rintro ⟨s', h⟩
    obtain ⟨s₁, hwithin, htoken⟩ := h.exists_token
    cases hwithin with
    | refl => simp [hscan] at htoken
    | more hmore _ => simp [hscan] at hmore

/-- The bencoding of a dictionary is accepted for it if and only if the end of the file is not
asserted not to be there, and the scanner can read all that is in the dictionary. -/
theorem accepts_encode_iff (debug : Bool) (t : Bencoding) (ht : t.isDictionary = true) :
    Accepts debug t.encode t ↔ debug = false ∧ t.All Scannable := by
  cases t with
  | dictionary d =>
    rw [accepts_iff]
    constructor
    · rintro ⟨-, s, s', hyields, hend⟩
      rw [← List.append_nil (Bencoding.encode _)] at hyields
      have hscannable := scannable_of_file hyields
      obtain rfl := hyields.unique (yields_file hscannable [])
      exact ⟨(exists_end_iff _ _ _).1 ⟨s', hend⟩, hscannable⟩
    · rintro ⟨rfl, hscannable⟩
      obtain ⟨s', hend⟩ := (exists_end_iff false .dictionaryKey []).2 rfl
      refine ⟨rfl, _, s', ?_, hend⟩
      rw [← List.append_nil (Bencoding.encode _)]
      exact yields_file hscannable []
  | _ => simp [Bencoding.isDictionary] at ht

/-- `d4:spami-7ee`. -/
theorem accepts_encode_spam : (Bencoding.dictionary [([115, 112, 97, 109], .integer (-7))]).isDictionary = true ∧
    (Accepts false (Bencoding.dictionary [([115, 112, 97, 109], .integer (-7))]).encode
        (.dictionary [([115, 112, 97, 109], .integer (-7))]) ↔
      false = false ∧ (Bencoding.dictionary [([115, 112, 97, 109], .integer (-7))]).All Scannable) :=
  ⟨rfl, accepts_encode_iff false _ rfl⟩

/-- `d1:alli5eeee`. -/
theorem not_accepts_listInList : ¬ ∀ (debug : Bool) (t : Bencoding), t.isDictionary = true →
    t.All ⟨Plain, Fits, fun _ => True⟩ → Accepts debug t.encode t := by
  intro h
  have haccepts := h false (.dictionary [([97], .list [.list [.integer 5]])]) rfl
    ⟨⟨by intro a ha; obtain rfl : a = 97 := by simpa using ha.symm
         decide, ⟨trivial, ⟨trivial, by unfold Bencoding.All Fits; decide⟩, trivial⟩, trivial⟩, trivial⟩
  obtain ⟨-, s, s', hyields, -⟩ := accepts_iff.1 haccepts
  have hflat := flat_of_yields hyields
  obtain ⟨⟨-, ⟨hlist, -⟩, -⟩, -⟩ := hflat
  exact Bool.noConfusion hlist

theorem allEntries_append {p : Bencoding.Allowed} :
    Bencoding.AllEntries p (d ++ d') ↔ Bencoding.AllEntries p d ∧ Bencoding.AllEntries p d' := by
  induction d with
  | nil => simp [Bencoding.AllEntries]
  | cons e d ih =>
    obtain ⟨k, t⟩ := e
    simp only [List.cons_append, Bencoding.AllEntries, ih, and_assoc]

theorem encodeEntries_append :
    Bencoding.encodeEntries (d ++ d') = Bencoding.encodeEntries d ++ Bencoding.encodeEntries d' := by
  induction d with
  | nil => rfl
  | cons e d ih =>
    obtain ⟨k, t⟩ := e
    simp only [List.cons_append, Bencoding.encodeEntries, ih, List.append_assoc]

theorem eq_of_accepts {debug : Bool} (hd' : Bencoding.AllEntries Scannable d')
    (h : Accepts debug ((Bencoding.dictionary d').encode ++ rest) t) : t = .dictionary d' := by
  obtain ⟨-, s, s', hyields, -⟩ := accepts_iff.1 h
  rcases hyields.compare (yields_file hd' rest) with hprefix | hprefix
  · obtain ⟨ts, hts⟩ := hprefix
    exact (tokens_cancel t _ ts [] (by rw [hts, List.append_nil])).1
  · obtain ⟨ts, hts⟩ := hprefix
    exact ((tokens_cancel _ t ts [] (by rw [hts, List.append_nil])).1).symm

theorem readFrom_encode {debug : Bool} {info : List (List UInt8 × Bencoding)} {k : List UInt8}
    (h : Bencoding.AllEntries Scannable (d ++ (k, .dictionary info) :: d')) (rest : List UInt8) :
    ReadFrom debug ((Bencoding.dictionary (d ++ (k, .dictionary info) :: d')).encode ++ rest) d k
      (.dictionary info) (Bencoding.dictionary info).encode := by
  obtain ⟨hd, ⟨⟨hplain, hshort⟩, hinfo⟩, -⟩ := allEntries_append.1 h
  have hentries : YieldsEntries debug d := yields_of_scannable_entries d hd
  obtain ⟨s₁, hyields₁, hat₁⟩ := hentries
    ⟨.dictionaryKey, [.dictionaryKey], Bencoding.encodeEntries d ++ (encodeString k ++
      ((Bencoding.dictionary info).encode ++ (Bencoding.encodeEntries d' ++ 101 :: rest))), 0⟩
    [.dictionaryKey] _ ⟨0, Or.inl rfl⟩
  have hkey : Lexes (scan debug) (enter s₁) .string (.string k) ⟨.dictionaryValue, [.dictionaryKey],
      (Bencoding.dictionary info).encode ++ (Bencoding.encodeEntries d' ++ 101 :: rest),
      UInt32.ofNat k.length⟩ := hat₁.lexes_iff.2 (lexes_string rfl hplain hshort)
  have hopen : Lexes (scan debug) (enter ⟨.dictionaryValue, [.dictionaryKey],
      (Bencoding.dictionary info).encode ++ (Bencoding.encodeEntries d' ++ 101 :: rest),
      UInt32.ofNat k.length⟩) .dictionary .dictionary ⟨.dictionaryKey, [.dictionaryKey, .dictionaryKey],
        Bencoding.encodeEntries info ++ 101 :: (Bencoding.encodeEntries d' ++ 101 :: rest), 0⟩ := by
    rw [Bencoding.encode, List.cons_append, List.append_assoc]
    exact .token (scan_dictionary (c := .dictionaryValue) rfl (by decide))
  have hvalue := yields_dictionary (yields_of_scannable_entries info hinfo) hopen
  have hbytes : (Bencoding.dictionary (d ++ (k, .dictionary info) :: d')).encode ++ rest =
      100 :: (Bencoding.encodeEntries d ++ (encodeString k ++
        ((Bencoding.dictionary info).encode ++ (Bencoding.encodeEntries d' ++ 101 :: rest)))) := by
    rw [Bencoding.encode, encodeEntries_append, Bencoding.encodeEntries]
    simp only [List.cons_append, List.append_assoc, List.nil_append]
  refine ⟨_, _, .cons ?_ (yields_append_iff.2 ⟨s₁, hyields₁, .cons hkey (.nil _)⟩), hvalue, rfl⟩
  rw [hbytes]
  exact lexes_file _

theorem find_append {e : List UInt8 × Bencoding} (he : e.1 = infoKey) (hd : ∀ e ∈ d, e.1 ≠ infoKey) :
    (d ++ e :: d').find? (fun e => decide (e.1 = infoKey)) = some e := by
  have hnone : d.find? (fun e => decide (e.1 = infoKey)) = none := by
    rw [List.find?_eq_none]
    intro e' he'
    simpa using hd e' he'
  rw [List.find?_append, hnone, List.find?_cons_of_pos (by simpa using he)]
  rfl

theorem ReadFrom.unique {k : List UInt8} {bytes bytes' : List UInt8} (h : ReadFrom debug file d k t bytes)
    (h' : ReadFrom debug file d k t bytes') : bytes = bytes' := by
  obtain ⟨s₁, s₂, hkey, hvalue, hbytes⟩ := h
  obtain ⟨s₁', s₂', hkey', hvalue', hbytes'⟩ := h'
  obtain rfl := hkey.unique hkey'
  obtain rfl := hvalue.unique hvalue'
  exact List.append_cancel_right (hbytes.symm.trans hbytes')

/-- A file that is accepted is canonical if and only if it starts with the bencoding of a
dictionary that the scanner can read, and the digest of the info value has no zero byte. -/
theorem canonical_iff (sha1 : List UInt8 → List UInt8) (debug : Bool) (file : List UInt8)
    (d : List (List UInt8 × Bencoding)) (h : Accepts debug file (.dictionary d)) :
    Canonical sha1 debug file d ↔
      ∃ d', Bencoding.AllEntries Scannable d' ∧ (Bencoding.dictionary d').encode <+: file ∧
        WholeDigest sha1 d' := by
  have hhash : ∀ d₁ info d₂, d = d₁ ++ (infoKey, .dictionary info) :: d₂ → (∀ e ∈ d₁, e.1 ≠ infoKey) →
      metaInfoToInfoHash sha1 d = some (cString (sha1 (Bencoding.dictionary info).encode)) := by
    rintro d₁ info d₂ rfl hfirst
    rw [metaInfoToInfoHash, find_append rfl hfirst]
  constructor
  · rintro ⟨⟨rest, rfl⟩, hinfo⟩
    obtain ⟨-, s, s', hyields, -⟩ := accepts_iff.1 h
    have hscannable := scannable_of_file hyields
    refine ⟨d, hscannable, List.prefix_append _ _, fun d₁ info d₂ heq hfirst => ?_⟩
    obtain ⟨bytes, hread, hdigest⟩ := hinfo d₁ info d₂ heq hfirst
    rw [hhash d₁ info d₂ heq hfirst, Option.some.injEq] at hdigest
    subst heq
    rw [hread.unique (readFrom_encode hscannable rest)] at hdigest
    exact cString_eq_self.1 hdigest
  · rintro ⟨d', hd', ⟨rest, rfl⟩, hwhole⟩
    obtain rfl := Bencoding.dictionary.inj (eq_of_accepts hd' h)
    refine ⟨List.prefix_append _ _, fun d₁ info d₂ heq hfirst => ?_⟩
    refine ⟨(Bencoding.dictionary info).encode, ?_, ?_⟩
    · subst heq
      exact readFrom_encode hd' rest
    · rw [hhash d₁ info d₂ heq hfirst, cString_eq_self.2 (hwhole d₁ info d₂ heq hfirst)]

/-- `d4:infod1:ai007eee`. -/
def leadingZeroes : List UInt8 :=
  100 :: (encodeString infoKey ++ (100 :: (encodeString [97] ++ (105 :: ([48, 48, 55] ++ [101, 101, 101])))))

theorem accepts_leadingZeroes :
    Accepts false leadingZeroes (.dictionary [(infoKey, .dictionary [([97], .integer 7)])]) := by
  have hplain : ∀ a : UInt8, isDigit a = false → a ≠ 58 → ∀ w, Plain (a :: w) := by
    intro a ha hcolon w a' ha'
    obtain rfl : a = a' := by simpa using ha'
    exact ⟨ha, hcolon⟩
  have hinfo : Lexes (scan false) ⟨.dictionaryKey, [.dictionaryKey], encodeString infoKey ++
      100 :: (encodeString [97] ++ 105 :: ([48, 48, 55] ++ [101, 101, 101])), 0⟩ .string (.string infoKey)
      ⟨.dictionaryValue, [.dictionaryKey], _, _⟩ :=
    lexes_string rfl (hplain 105 rfl (by decide) _) (by unfold Short; decide)
  have hopen : scan false ⟨.dictionaryValue, [.dictionaryKey],
      100 :: (encodeString [97] ++ 105 :: ([48, 48, 55] ++ [101, 101, 101])), 0⟩ = _ :=
    scan_dictionary rfl (by decide)
  have hkey : Lexes (scan false) ⟨.dictionaryKey, [.dictionaryKey, .dictionaryKey], encodeString [97] ++
      105 :: ([48, 48, 55] ++ [101, 101, 101]), 0⟩ .string (.string [97])
      ⟨.dictionaryValue, [.dictionaryKey, .dictionaryKey], _, _⟩ :=
    lexes_string rfl (hplain 97 rfl (by decide) _) (by unfold Short; decide)
  have hvalue : Lexes (scan false) ⟨.dictionaryValue, [.dictionaryKey, .dictionaryKey],
      105 :: ([48, 48, 55] ++ [101, 101, 101]), 0⟩ .integer (.integer (toInt64 [48, 48, 55]))
      ⟨.integer, [.dictionaryKey, .dictionaryKey, .dictionaryKey], [101, 101, 101], 0⟩ :=
    lexes_digits rfl (by decide) (by decide) (by simp [isDigit])
  have hseven : toInt64 [48, 48, 55] = 7 := by simp [toInt64, stringstream, Nat.ofDigits]
  rw [hseven] at hvalue
  have hclose : Lexes (scan false) (enter ⟨.integer, [.dictionaryKey, .dictionaryKey, .dictionaryKey],
      [101, 101, 101], 0⟩) .endOfDictionary .none ⟨.dictionaryKey, [.dictionaryKey], [101], 0⟩ :=
    lexes_keyEnd ⟨0, Or.inr rfl⟩
  have hclose' : Lexes (scan false) (enter ⟨.dictionaryKey, [.dictionaryKey], [101], 0⟩)
      .endOfDictionary .none ⟨.dictionaryKey, [], [], 0⟩ := lexes_keyEnd ⟨0, Or.inl rfl⟩
  obtain ⟨s', hend⟩ := (exists_end_iff false .dictionaryKey []).2 rfl
  refine accepts_iff.2 ⟨rfl, _, s', ?_, hend⟩
  exact .cons (lexes_file _) (.cons hinfo (.cons (.token hopen) (.cons hkey (.cons hvalue
    (.cons hclose (.cons hclose' (.nil _)))))))

def twoBytes : List (List UInt8 × Bencoding) := [([108, 101, 110, 103, 116, 104], .integer 2)]

/-- The digest of `d6:lengthi2ee`. -/
def twoBytesDigest : List UInt8 :=
  [135, 207, 152, 40, 171, 161, 32, 152, 181, 252, 20, 49, 171, 159, 121, 96, 185, 175, 62, 31]

theorem scannable_twoBytes : Bencoding.AllEntries Scannable [(infoKey, .dictionary twoBytes)] := by
  have hplain : ∀ (a : UInt8) (w : List UInt8), isDigit a = false ∧ a ≠ 58 → Plain (a :: w) := by
    intro a w h a' ha'
    obtain rfl : a = a' := by simpa using ha'
    exact h
  refine ⟨⟨⟨hplain 105 _ (by decide), by unfold Short; decide⟩, ⟨⟨⟨hplain 108 _ (by decide), ?_⟩, ?_⟩, trivial⟩⟩,
    trivial⟩
  · unfold Short; decide
  · unfold Bencoding.All Scannable Fits; decide

theorem canonical_twoBytes :
    Accepts false (Bencoding.dictionary [(infoKey, .dictionary twoBytes)]).encode
        (.dictionary [(infoKey, .dictionary twoBytes)]) ∧
      Canonical (fun _ => twoBytesDigest) false (Bencoding.dictionary [(infoKey, .dictionary twoBytes)]).encode
        [(infoKey, .dictionary twoBytes)] := by
  have haccepts : Accepts false (Bencoding.dictionary [(infoKey, .dictionary twoBytes)]).encode
      (.dictionary [(infoKey, .dictionary twoBytes)]) := by
    obtain ⟨s', hend⟩ := (exists_end_iff false .dictionaryKey []).2 rfl
    refine accepts_iff.2 ⟨rfl, _, s', ?_, hend⟩
    rw [← List.append_nil (Bencoding.encode _)]
    exact yields_file scannable_twoBytes []
  have hwhole : WholeDigest (fun _ => twoBytesDigest) [(infoKey, .dictionary twoBytes)] :=
    fun _ _ _ _ _ => (by decide : (0 : UInt8) ∉ twoBytesDigest)
  exact ⟨haccepts, (canonical_iff _ false _ _ haccepts).2
    ⟨_, scannable_twoBytes, List.prefix_refl _, hwhole⟩⟩

/-- With no digest of any kind. -/
theorem not_canonical_leadingZeroes : ¬ ∃ sha1, ∀ (debug : Bool) (file : List UInt8)
    (d : List (List UInt8 × Bencoding)), Accepts debug file (.dictionary d) → Canonical sha1 debug file d := by
  rintro ⟨sha1, h⟩
  obtain ⟨⟨rest, hrest⟩, -⟩ := h false _ _ accepts_leadingZeroes
  simp [leadingZeroes, Bencoding.encode, Bencoding.encodeEntries, decimal, digits] at hrest

end ACENetwork.BitTorrent.MetaInfo
