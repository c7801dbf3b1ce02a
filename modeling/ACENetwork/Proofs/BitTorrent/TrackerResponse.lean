import Mathlib
import ACENetwork.Spec.BitTorrent.TrackerResponse
import ACENetwork.Proofs.BitTorrent.PeerProgress

/-! The response of a tracker: a compact string gives an address for every six octets of it, and
each address is connected to by one thread. -/

namespace ACENetwork.BitTorrent.TrackerResponse

open ByteOrder PeerSetup Transition

variable {e : Endian} {set : SetAddress} {s : List UInt8} {size : ℕ} {i : UInt32}

def peers (e : Endian) : List UInt8 → List InetAddress
  | b₀ :: b₁ :: b₂ :: b₃ :: b₄ :: b₅ :: rest =>
    ⟨load16 e [b₄, b₅], load32 e [b₀, b₁, b₂, b₃]⟩ :: peers e rest
  | _ => []

theorem length_lt_six
    (h : ∀ b₀ b₁ b₂ b₃ b₄ b₅ rest, s = b₀ :: b₁ :: b₂ :: b₃ :: b₄ :: b₅ :: rest → False) :
    s.length < 6 := by
  match s with
  | [] | [_] | [_, _] | [_, _, _] | [_, _, _, _] | [_, _, _, _, _] => simp
  | b₀ :: b₁ :: b₂ :: b₃ :: b₄ :: b₅ :: rest => exact (h b₀ b₁ b₂ b₃ b₄ b₅ rest rfl).elim

theorem peers_short (hs : s.length < 6) : peers e s = [] := by
  rw [peers]
  rintro b₀ b₁ b₂ b₃ b₄ b₅ rest rfl
  simp only [List.length_cons] at hs
  omega

theorem length_peers (e : Endian) (s : List UInt8) : (peers e s).length = s.length / 6 := by
  induction s using peers.induct with
  | case1 b₀ b₁ b₂ b₃ b₄ b₅ rest ih =>
    rw [peers, List.length_cons, ih]
    simp only [List.length_cons]
    omega
  | case2 s hshort =>
    have hs := length_lt_six hshort
    rw [peers_short hs, List.length_nil]
    omega

theorem getElem_peers (e : Endian) (s : List UInt8) (k : ℕ) (h : k < (peers e s).length) :
    (peers e s)[k] = ⟨load16 e ((s.drop (6 * k + 4)).take 2), load32 e ((s.drop (6 * k)).take 4)⟩ := by
  induction s using peers.induct generalizing k with
  | case1 b₀ b₁ b₂ b₃ b₄ b₅ rest ih =>
    cases k with
    | zero => simp [peers]
    | succ k =>
      have hk : k < (peers e rest).length := by simpa [peers] using h
      have hdrop : ∀ n, (b₀ :: b₁ :: b₂ :: b₃ :: b₄ :: b₅ :: rest).drop (6 * (k + 1) + n) =
          rest.drop (6 * k + n) := by
        intro n
        rw [show 6 * (k + 1) + n = 6 * k + n + 6 by omega]
        rfl
      have hfirst : (b₀ :: b₁ :: b₂ :: b₃ :: b₄ :: b₅ :: rest).drop (6 * (k + 1)) = rest.drop (6 * k) :=
        hdrop 0
      rw [hdrop, hfirst, ← ih k hk]
      simp [peers]
  | case2 s hshort =>
    rw [length_peers] at h
    have hs := length_lt_six hshort
    omega

theorem compact_peers (e : Endian) (s : List UInt8) : Compact e s (peers e s) := by
  have hinside : ∀ k, k < (peers e s).length → 6 * k + 6 ≤ s.length := by
    intro k hk
    rw [length_peers] at hk
    omega
  refine ⟨length_peers e s, fun k hk => ?_, fun k hk => ?_⟩
  · have hlength : ((s.drop (6 * k)).take 4).length = 4 := by
      have := hinside k hk
      rw [List.length_take, List.length_drop]
      omega
    rw [getElem_peers, InetAddress.octets, store32_load32 e hlength]
  · have hlength : ((s.drop (6 * k + 4)).take 2).length = 2 := by
      have := hinside k hk
      rw [List.length_take, List.length_drop]
      omega
    rw [getElem_peers, InetAddress.portNumber, swapWord_load16 e hlength]

theorem readPeers_eq (hset : PassesThrough set) (addresses : List InetAddress)
    (hsize : i.toNat + s.length / 6 = size / 6) (hlt : size / 6 < 2 ^ 32) :
    readPeers e set size i addresses s = .connects (System.begin (addresses ++ peers e s)) := by
  induction s using peers.induct generalizing i addresses with
  | case1 b₀ b₁ b₂ b₃ b₄ b₅ rest ih =>
    simp only [List.length_cons] at hsize
    have hnext : (i + 1).toNat = i.toNat + 1 := by
      rw [UInt32.toNat_add]
      simp only [UInt32.toNat_one]
      omega
    rw [readPeers, if_pos (by omega), hset]
    dsimp only
    rw [ih _ (by omega), peers, List.append_assoc, List.singleton_append]
  | case2 s hshort =>
    have hs := length_lt_six hshort
    rw [readPeers, if_neg (by omega), peers_short hs, List.append_nil]
    exact hshort

variable {r : Responses} {record : List (List UInt8 × Bencoding)} {place : ℕ} {t : Bencoding}

/-- With a compact string `notify` goes on with the addresses of the string. -/
theorem notify_string (hset : PassesThrough set) (hfiles : MetaInfo.lookup filesHeader record = none)
    (hpeers : MetaInfo.lookup peersHeader record = some (.string s)) (hshort : Short s) :
    notify e set r record place = (r.setRequest place, .connects (System.begin (peers e s))) := by
  have hlt : s.length < 2 ^ 32 := hshort
  have hread : readPeers e set s.length 0 [] s = .connects (System.begin ([] ++ peers e s)) :=
    readPeers_eq hset [] (by simp) (by omega)
  rw [notify, hfiles, hpeers]
  exact congrArg (Prod.mk (r.setRequest place)) hread

theorem notify_other (hfiles : MetaInfo.lookup filesHeader record = none)
    (hpeers : ∀ s, MetaInfo.lookup peersHeader record ≠ some (.string s)) :
    (notify e set r record place).2 = .assertion := by
  rw [notify, hfiles]
  cases hlookup : MetaInfo.lookup peersHeader record with
  | none => rfl
  | some t =>
    cases t with
    | string s => exact absurd hlookup (hpeers s)
    | integer i => rfl
    | list l => rfl
    | dictionary d => rfl

/-- A response is served when its peers come as a string, and only then. -/
theorem served_iff (hset : PassesThrough set) (hfiles : MetaInfo.lookup filesHeader record = none)
    (hshort : ∀ s, MetaInfo.lookup peersHeader record = some (.string s) → Short s) :
    Served e set r record place ↔ ∃ s, MetaInfo.lookup peersHeader record = some (.string s) := by
  constructor
  · intro hserved
    by_contra hnone
    rw [not_exists] at hnone
    exact hserved.assertion (notify_other hfiles hnone)
  · rintro ⟨s, hpeers⟩
    have hnotify : notify e set r record place =
        (r.setRequest place, .connects (System.begin (peers e s))) :=
      notify_string hset hfiles hpeers (hshort s hpeers)
    refine ⟨?_, ?_, fun s' hs' => ?_⟩
    · rw [hnotify]
      simp
    · rw [hnotify]
      simp
    · obtain rfl : s = s' := by simpa [hpeers] using hs'
      exact ⟨peers e s, hnotify, compact_peers e s, connects _⟩

/-- Two peers, and an octet that is left over. -/
def compactPeers : List UInt8 := [10, 0, 0, 1, 26, 225, 10, 0, 0, 2, 26, 226, 7]

theorem served_compactPeers : Served .little (fun port address => some ⟨port, address⟩) {}
    [(peersHeader, .string compactPeers)] 0 := by
  have hshort : ∀ s, MetaInfo.lookup peersHeader [(peersHeader, .string compactPeers)] = some (.string s) →
      Short s := by
    rintro s hs
    obtain rfl : compactPeers = s := by simpa [MetaInfo.lookup] using hs
    exact (by decide : compactPeers.length < 2 ^ 32)
  exact (served_iff (fun _ _ => rfl) rfl hshort).2 ⟨compactPeers, rfl⟩

/-- "failure reason" -/
def failureReason : List UInt8 := [102, 97, 105, 108, 117, 114, 101, 32, 114, 101, 97, 115, 111, 110]

theorem not_served_failureReason :
    (notify .little (fun port address => some ⟨port, address⟩) {}
        [(failureReason, .string [110, 111])] 0).2 = .assertion ∧
      ¬ Served .little (fun port address => some ⟨port, address⟩) {} [(failureReason, .string [110, 111])] 0 :=
  ⟨rfl, fun h => h.assertion rfl⟩

end ACENetwork.BitTorrent.TrackerResponse
