import Mathlib
import ACENetwork.Proofs.BitTorrent.PeerDelivery

/-! A handshake with messages behind it, from the octets of one fragment to the reports of the
parser, and a handshake that is written and parsed again. -/

namespace ACENetwork.BitTorrent.Peer

open ByteOrder Bison
open MessageBlock (Writes)

variable {e : Endian} {h : HandShake}

theorem Last.token {ms : List Message} {last : Token × Value} {s : State} (hl : Last ms last s) :
    last.1 = .end_ ∨ last.1 = .endOfFragment := by
  by_cases hall : ∀ m ∈ ms, m = .keepAlive
  · exact Or.inl (hl.keepAlive hall).1
  · exact Or.inr (hl.message hall)

theorem records_streamCalls (h : HandShake) (ms : List (Token × Record)) (last : Token) :
    (streamCalls h ms last).filterMap Call.record? = ms.map Prod.snd := by
  unfold streamCalls
  rw [List.filterMap_append]
  have hrecords : (ms.map fun m => Call.record m.2).filterMap Call.record? = ms.map Prod.snd := by
    rw [List.filterMap_map, ← List.filterMap_eq_map]
    rfl
  split_ifs <;> simp [hrecords, Call.record?]

theorem reached_eq (ms : List Message) :
    (reached ms).map Prod.snd = ms.map Message.record ↔ ∀ m ∈ ms, m = .keepAlive := by
  unfold reached
  rw [List.map_map]
  refine ⟨fun h => ?_, fun h => ?_⟩
  · have hlen := congrArg List.length h
    rw [List.length_map, List.length_map] at hlen
    have htake := List.takeWhile_prefix (fun m => decide (m = Message.keepAlive)) (l := ms)
    have heq := htake.eq_of_length hlen
    rw [List.takeWhile_eq_self_iff] at heq
    exact fun m hm => of_decide_eq_true (heq m hm)
  · rw [List.takeWhile_eq_self_iff.2 fun m hm => decide_eq_true (h m hm)]
    rfl

theorem decodes_iff_reached (hv : h.Valid) {ms : List Message} (hms : ∀ m ∈ ms, m.Valid) :
    Decodes e h ms ↔ (reached ms).map Prod.snd = ms.map Message.record := by
  obtain ⟨last, s, hy, hlast⟩ := yields_fragment (e := e) hv ms hms
  have hparse := parses_stream (isMessage_reached ms) hlast.token hy
  refine ⟨fun hd => ?_, fun hreached => ?_⟩
  · obtain ⟨code, d, hp, hrecords, -⟩ := hd
    obtain ⟨-, rfl⟩ := (hparse code d).1 hp
    rwa [records_streamCalls] at hrecords
  · have hall := (reached_eq ms).1 hreached
    refine ⟨_, _, (hparse _ _).2 ⟨rfl, rfl⟩, ?_, (hlast.keepAlive hall).2⟩
    rwa [records_streamCalls]

/-- The messages behind a handshake are all reported, and the input is read to its end, exactly
when all of them are keep-alives. -/
theorem decodes_iff_keepAlive (hv : h.Valid) {ms : List Message} (hms : ∀ m ∈ ms, m.Valid) :
    Decodes e h ms ↔ ∀ m ∈ ms, m = .keepAlive :=
  (decodes_iff_reached hv hms).trans (reached_eq ms)

theorem keepAlives_decoded : Decodes .little zeroHandshake [.keepAlive, .keepAlive] :=
  (decodes_iff_keepAlive zeroHandshake_valid (by simp [Message.Valid, Message.body])).2 (by simp)

/-- A choke is not reported. -/
theorem choke_not_decoded :
    ¬ ∀ (e : Endian) (h : HandShake) (ms : List Message), h.Valid → (∀ m ∈ ms, m.Valid) →
      Decodes e h ms := by
  intro hall
  have hms : ∀ m ∈ [Message.choke], m.Valid := by simp [Message.Valid, Message.body]
  have hd := hall .little zeroHandshake [.choke] zeroHandshake_valid hms
  rw [decodes_iff_reached zeroHandshake_valid hms] at hd
  exact absurd hd (by decide)

namespace Streamer

theorem writes_copy (bytes : List UInt8) : Writes 0 (copy · bytes) bytes :=
  MessageBlock.writes_copy fun m m' h => by rw [copy, h]

theorem cStr_eq {s : List UInt8} {n : ℕ} (hn : s.length = n) : cStr s n = .ok s := by
  rw [cStr, if_pos (by omega), ← hn, List.take_left]

theorem writes_handshake (hv : h.Valid) : Writes 0 (copyHandShake h) (handshakeFrame h) := by
  have hlen : UInt8.ofNat h.pstr.length = 19 := by
    rw [hv.pstr]
    rfl
  have hpstr : cStr h.pstr (19 : UInt8).toNat = .ok h.pstr := cStr_eq (by rw [hv.pstr]; rfl)
  have hcopy : copyHandShake h = fun m => copy m [19] >>= fun m => copy m h.pstr >>= fun m =>
      copy m h.reserved.1 >>= fun m => copy m h.infoHash >>= fun m => copy m h.peerId := by
    funext m
    simp only [copyHandShake, hlen, hpstr, cStr_eq hv.infoHash, cStr_eq hv.peerId, bind, Except.bind]
  rw [hcopy, handshakeFrame, ← hv.pstr]
  exact (writes_copy [19]).bind ((writes_copy h.pstr).bind ((writes_copy h.reserved.1).bind
    ((writes_copy h.infoHash).bind (writes_copy h.peerId) (by simp)) (by simp)) (by simp)) (by simp)

theorem handleDataMessage_frame (hv : h.Valid) {capacity : ℕ}
    (hcapacity : (handshakeFrame h).length ≤ capacity) :
    ∃ m, handleDataMessage (.handShakeRecord h) (MessageBlock.allocate capacity) = .ok m ∧
      m.content = handshakeFrame h := by
  obtain ⟨m, hm, -, hcontent⟩ := writes_handshake hv (MessageBlock.allocate capacity)
    (by simpa [MessageBlock.allocate] using hcapacity)
  exact ⟨m, hm, by simpa [MessageBlock.allocate] using hcontent⟩

end Streamer

theorem length_handshakeFrame (hv : h.Valid) : (handshakeFrame h).length = 68 := by
  unfold handshakeFrame
  simp [hv.infoHash, hv.peerId, h.reserved.2, infoHashSize, peerIdLength, reservedSize, pstrString]

theorem parses_handshake (hv : h.Valid) (code : Code) (d : Driver State) :
    (fragmentScanner e).Parses { buffer := handshakeFrame h } code d →
      d.calls = [.handshake h.doubled] := by
  intro hp
  obtain ⟨last, s, hy, hlast⟩ := yields_fragment (e := e) hv [] (by simp)
  rw [List.flatMap_nil, List.append_nil] at hy
  obtain ⟨-, rfl⟩ := (parses_stream (isMessage_reached []) hlast.token hy code d).1 hp
  simp [streamCalls, reached, (hlast.keepAlive (by simp)).1]

theorem eq_doubled_of_roundTrips (hv : h.Valid) {capacity : ℕ} (hcapacity : 68 ≤ capacity)
    (hround : RoundTrips e capacity h) : h = h.doubled := by
  have hfits : (handshakeFrame h).length ≤ capacity := by rwa [length_handshakeFrame hv]
  obtain ⟨m, hm, hcontent⟩ := Streamer.handleDataMessage_frame hv hfits
  obtain ⟨m', hm', code, d, hp, hmem⟩ := hround
  rw [hm] at hm'
  obtain rfl := Except.ok.inj hm'
  rw [hcontent] at hp
  rw [parses_handshake hv code d hp, List.mem_singleton] at hmem
  exact Call.handshake.inj hmem

theorem doubled_ne (hv : h.Valid) : h ≠ h.doubled := by
  intro heq
  have hlen := congrArg (fun h => h.pstr.length) heq
  rw [HandShake.doubled, List.length_append, hv.pstr] at hlen
  exact absurd hlen (by decide)

/-- No handshake comes back as it was written. -/
theorem handshake_never_roundTrips (hv : h.Valid) {capacity : ℕ} (hcapacity : 68 ≤ capacity) :
    ¬ RoundTrips e capacity h :=
  fun hround => doubled_ne hv (eq_doubled_of_roundTrips hv hcapacity hround)

theorem zeroHandshake_not_roundTrips : ¬ RoundTrips .little 68 zeroHandshake :=
  handshake_never_roundTrips zeroHandshake_valid le_rfl

/-- The handshake of zeros is reported with the protocol string twice. -/
theorem zeroHandshake_doubled :
    ¬ ∀ (e : Endian) (h : HandShake) (capacity : ℕ), h.Valid → 68 ≤ capacity →
      RoundTrips e capacity h := by
  intro hall
  have hround := hall .little zeroHandshake 68 zeroHandshake_valid le_rfl
  exact absurd (eq_doubled_of_roundTrips zeroHandshake_valid le_rfl hround) (by decide)

end ACENetwork.BitTorrent.Peer
