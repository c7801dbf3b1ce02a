import Mathlib
import ACENetwork.Spec.BitTorrent.TrackerStream
import ACENetwork.Proofs.BitTorrent.BencodingCanonical
import ACENetwork.Proofs.BitTorrent.TrackerResponse
import ACENetwork.Proofs.Http.RoundTrip

/-! From the octets of a tracker's response to the threads that connect to the peers. -/

namespace ACENetwork.BitTorrent.TrackerStream

open Flex Bison ByteOrder PeerSetup TrackerResponse

variable {debug : Bool} {e : Endian} {set : SetAddress} {responses : Responses}
  {message s : List UInt8} {d d' : List (List UInt8 × Bencoding)} {handled : Handled}

open MetaInfo in
/-- What was recorded is the outermost dictionary, which stays the same once it is there. -/
def Outermost (d : Driver) : Prop := ∀ p ∈ d.records, d.bencoding = some p

namespace Outermost

open MetaInfo

variable {d d₁ d' : Driver} {v : Value}

theorem congr (hd : Outermost d) (hrecords : d₁.records = d.records)
    (hbencoding : d₁.bencoding = d.bencoding) : Outermost d₁ := by
  intro p hp
  rw [hbencoding]
  exact hd p (hrecords ▸ hp)

theorem pushDictionary (hd : Outermost d) (p : ℕ) : Outermost (d.pushDictionary p) := by
  intro p' hp'
  change (d.bencoding <|> some p) = some p'
  rw [hd p' hp']
  rfl

theorem yields (h : (MetaInfo.yields v d₁).next = some d') (hd : Outermost d₁) : Outermost d' := by
  obtain rfl : { d₁ with top := v } = d' := Option.some.inj h
  exact hd

theorem item {el : Element} (h : (MetaInfo.item v el d).next = some d') (hd : Outermost d) :
    Outermost d' := by
  unfold MetaInfo.item Driver.pushBackItem at h
  cases hl : d.lists with
  | nil => simp [hl, Reduce.next] at h
  | cons p ls =>
    simp only [hl] at h
    exact yields h (hd.congr rfl rfl)

theorem entry {el : Element} {pop : Driver → Driver} (h : (MetaInfo.entry v el pop d).next = some d')
    (hpop : ∀ d, (pop d).records = d.records ∧ (pop d).bencoding = d.bencoding) (hd : Outermost d) :
    Outermost d' := by
  unfold MetaInfo.entry Driver.pushBackEntry at h
  cases hk : d.keys with
  | nil => simp [hk, Reduce.next] at h
  | cons k ks =>
    simp only [hk] at h
    obtain ⟨hrecords, hbencoding⟩ := hpop { d with keys := ks }
    cases hp : (pop { d with keys := ks }).dictionaries with
    | nil => simp [hp, Reduce.next] at h
    | cons p ps =>
      simp only [hp] at h
      exact yields h (hd.congr hrecords hbencoding)

theorem semantics (rule : GrammarRule) (vs : List Value)
    (h : (MetaInfo.semantics rule vs d).next = some d') (hd : Outermost d) : Outermost d' := by
  unfold MetaInfo.semantics at h
  split at h
  -- the actions that look at the value on top of the stack
  case h_1 | h_2 | h_3 =>
    split at h
    · exact yields h (hd.pushDictionary _)
    · simp [Reduce.next] at h
  case h_4 | h_5 | h_6 =>
    split at h
    · exact yields h (hd.congr rfl rfl)
    · simp [Reduce.next] at h
  case h_7 =>
    split at h
    · simp [Reduce.next] at h
    · rename_i p hp
      refine yields h fun p' hp' => ?_
      rcases List.mem_append.1 hp' with hp' | hp'
      · exact hd p' hp'
      · rw [List.mem_singleton.1 hp']
        exact hp
  all_goals first
    | exact yields h hd
    | exact item h (hd.congr rfl rfl)
    | exact entry h (fun _ => ⟨rfl, rfl⟩) hd
    | simp [Reduce.next] at h

end Outermost

end ACENetwork.BitTorrent.TrackerStream
