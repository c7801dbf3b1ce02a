import Mathlib
import ACENetwork.Spec.BitTorrent.PeerWire

/-! Calls of the BitTorrent scanner. Its rule for the type of a message matches the digits from
`0` to `8`, so that the octets from 0 to 8 are left to the rule for a fragment that has ended. -/

namespace ACENetwork.BitTorrent.Peer

open ByteOrder Flex Bison Pattern

variable {e : Endian} {c : Start} {w b : List UInt8} {y : Value} {k : UInt32} {h : HandShake}

def octetRule : Flex.Rule Start UInt8 RuleName := ⟨fun _ => true, Pattern.any, .octet⟩

theorem scan_rule {r : Flex.Rule Start UInt8 RuleName}
    (hc : ∀ a ∈ w.head?, candidates rules c a = [r, octetRule]) (hw : w ≠ []) (hon : r.on c = true)
    (hr : r.pattern.longest (w ++ b) = some w.length) :
    scan e ⟨c, w ++ b, y, k⟩ = act e r.name w ⟨c, b, y, k⟩ := by
  unfold scan
  rw [if_neg (by simp [hw]), select_word hc hw hon rfl hr]
  simp

theorem scan_octets (name : RuleName) {n : ℕ}
    (hc : ∀ a, candidates rules c a = [⟨on c, octets (n + 1), name⟩, octetRule]) (hw : w.length = n + 1) :
    scan e ⟨c, w ++ b, y, k⟩ = act e name w ⟨c, b, y, k⟩ := by
  have hne : w ≠ [] := by rintro rfl; simp at hw
  refine scan_rule (r := ⟨on c, octets (n + 1), name⟩) (fun a _ => hc a) hne (by simp [on]) ?_
  rw [octets, longest_exactly, if_pos ⟨by simp [hw], fun _ _ => rfl⟩, hw]

theorem number_store32 (x : UInt32) : number e (store32 .big x) = x := by
  have hswap : swapLong e (swapLong e x) = x := by
    cases e with
    | little => exact swap32_swap32 x
    | big => rfl
  rw [number, List.take_of_length_le (by simp), ← store32_swapLong e, load32_store32, hswap]

/-- The protocol string is appended to the one that the constructor presets. -/
theorem scan_pstr : scan e ⟨.initial, 19 :: pstrString ++ b, y, k⟩ =
    .more ⟨.reserved, b, .handshake { pstr := pstrString ++ pstrString }, k⟩ := by
  refine scan_rule (r := ⟨on .initial, literal (19 :: pstrString), .prefix_⟩) ?_ (by simp) rfl
    (longest_literal _ _)
  rintro a ⟨⟩
  rfl

theorem scan_reserved (reserved : Octets reservedSize) :
    scan e ⟨.reserved, reserved.1 ++ b, .handshake h, k⟩ =
      .more ⟨.hash, b, .handshake { h with reserved := reserved }, k⟩ :=
  (scan_octets .reserved (fun _ => rfl) reserved.2).trans (dif_pos reserved.2)

theorem scan_hash (hw : w.length = infoHashSize) : scan e ⟨.hash, w ++ b, .handshake h, k⟩ =
    .more ⟨.peerId, b, .handshake { h with infoHash := h.infoHash ++ w }, k⟩ :=
  scan_octets .hash (fun _ => rfl) hw

theorem scan_peerId (hw : w.length = peerIdLength) : scan e ⟨.peerId, w ++ b, .handshake h, k⟩ =
    .token .handshake (.handshake { h with peerId := h.peerId ++ w })
      ⟨.length, b, .handshake { h with peerId := h.peerId ++ w }, k⟩ :=
  scan_octets .peerId (fun _ => rfl) hw

/-- The handshake that the parser gets, with its protocol string twice. -/
def HandShake.doubled (h : HandShake) : HandShake := { h with pstr := h.pstr ++ h.pstr }

theorem lexes_handshake (hv : h.Valid) :
    Lexes (scan e) ⟨.initial, handshakeFrame h ++ b, y, k⟩ .handshake (.handshake h.doubled)
      ⟨.length, b, .handshake h.doubled, k⟩ := by
  obtain ⟨pstr, reserved, infoHash, peerId⟩ := h
  obtain ⟨rfl, hi, hp⟩ := hv
  unfold handshakeFrame
  rw [List.append_assoc, List.append_assoc, List.append_assoc]
  exact .more scan_pstr (.more (scan_reserved reserved) (.more (scan_hash hi) (.token (scan_peerId hp))))

theorem scan_length (x : UInt32) : scan e ⟨.length, store32 .big x ++ b, y, k⟩ =
    if x = 0 then .token .keepAlive (.record { length := x }) ⟨.length, b, .record { length := x }, k⟩
    else .more ⟨.type, b, .record { length := x }, k⟩ := by
  refine (scan_octets .length (fun _ => rfl) (store32_length .big x)).trans ?_
  simp only [act, number_store32]

theorem scan_type {a : UInt8} (ha : a ≤ 8) :
    scan e ⟨.type, a :: b, y, k⟩ = .token .endOfFragment y ⟨.type, b, y, k⟩ := by
  have hdigit : isType a = false := by
    simp only [isType, decide_eq_false_iff_not]
    grind
  have hselect : select rules .type (a :: b) = some (.octet, 1) := by
    have hc : candidates rules .type a = [octetRule] := by
      simp [candidates, rules, on, octets, hdigit, octetRule]
    rw [select_candidates, hc]
    simp [select, octetRule, longest_any]
  unfold scan
  rw [if_neg (by simp), hselect]
  rfl

theorem lexes_keepAlive : Lexes (scan e) ⟨.length, Message.keepAlive.frame ++ b, y, k⟩ .keepAlive
    (.record Message.keepAlive.record) ⟨.length, b, .record Message.keepAlive.record, k⟩ := by
  unfold Message.frame
  rw [Message.body, List.append_nil]
  exact .token ((scan_length 0).trans (if_pos rfl))

theorem lexes_message {m : Message} (hm : m ≠ .keepAlive) (hv : m.Valid) :
    ∃ v s, Lexes (scan e) ⟨.length, m.frame ++ b, y, k⟩ .endOfFragment v s := by
  obtain ⟨a, w, ha, hbody⟩ : ∃ a w, a ≤ 8 ∧ m.body = a :: w := by
    cases m with
    | keepAlive => exact absurd rfl hm
    | _ => exact ⟨_, _, by decide, rfl⟩
  have hlen : m.length ≠ 0 := by
    unfold Message.Valid at hv
    unfold Message.length
    rw [hbody, List.length_cons] at hv ⊢
    intro h0
    have := congrArg UInt32.toNat h0
    rw [UInt32.toNat_ofNat_of_lt' hv] at this
    exact absurd this (by simp)
  unfold Message.frame
  rw [hbody, List.append_assoc]
  exact ⟨_, _, .more ((scan_length m.length).trans (if_neg hlen)) (.token (scan_type ha))⟩

/-- The messages that the scanner gets to, as tokens. -/
def reached (ms : List Message) : List (Token × Record) :=
  (ms.takeWhile fun m => decide (m = .keepAlive)).map fun m => (.keepAlive, m.record)

theorem isMessage_reached (ms : List Message) : ∀ m ∈ reached ms, m.1.isMessage = true := by
  intro m hm
  obtain ⟨m', -, rfl⟩ := List.mem_map.1 hm
  rfl

/-- The token behind these messages: the end of the input if they are all there are. -/
structure Last (ms : List Message) (last : Token × Value) (s : State) : Prop where
  keepAlive : (∀ m ∈ ms, m = .keepAlive) → last.1 = .end_ ∧ s.buffer = []
  message : ¬ (∀ m ∈ ms, m = .keepAlive) → last.1 = .endOfFragment

theorem yields_messages (ms : List Message) (hms : ∀ m ∈ ms, m.Valid) (y : Value) : ∃ last s,
    Yields (fragmentScanner e).enter (fragmentScanner e).scan ⟨.length, ms.flatMap Message.frame, y, 0⟩
      ((reached ms).map (fun m => (m.1, .record m.2)) ++ [last]) s ∧ Last ms last s := by
  induction ms generalizing y with
  | nil => exact ⟨(.end_, y), _, .cons (.token rfl) (.nil _), fun _ => ⟨rfl, rfl⟩, fun h => (h (by simp)).elim⟩
  | cons m ms ih =>
    unfold reached
    rw [List.flatMap_cons]
    by_cases hm : m = .keepAlive
    · subst hm
      obtain ⟨last, s, hy, hlast⟩ := ih (fun m hm => hms m (List.mem_cons_of_mem _ hm))
        (.record Message.keepAlive.record)
      rw [List.takeWhile_cons_of_pos (by simp)]
      refine ⟨last, s, .cons lexes_keepAlive hy, fun h => ?_, fun h => ?_⟩
      · exact hlast.keepAlive fun m hm => h m (List.mem_cons_of_mem _ hm)
      · exact hlast.message fun hall => h (by simpa using hall)
    · obtain ⟨v, s, hlex⟩ := lexes_message (e := e) (k := 0) (y := y) (b := ms.flatMap Message.frame) hm
        (hms m List.mem_cons_self)
      rw [List.takeWhile_cons_of_neg (by simpa using hm)]
      refine ⟨(.endOfFragment, v), s, .cons hlex (.nil _), fun h => ?_, fun _ => rfl⟩
      exact absurd (h m List.mem_cons_self) hm

theorem yields_fragment (hv : h.Valid) (ms : List Message) (hms : ∀ m ∈ ms, m.Valid) : ∃ last s,
    Yields (fragmentScanner e).enter (fragmentScanner e).scan
      { buffer := handshakeFrame h ++ ms.flatMap Message.frame } (stream h.doubled (reached ms) last) s ∧
      Last ms last s := by
  obtain ⟨last, s, hy, hlast⟩ := yields_messages (e := e) ms hms (.handshake h.doubled)
  exact ⟨last, s, .cons (lexes_handshake hv) hy, hlast⟩

end ACENetwork.BitTorrent.Peer
