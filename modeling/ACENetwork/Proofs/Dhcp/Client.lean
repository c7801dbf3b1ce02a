import Mathlib
import ACENetwork.Spec.Dhcp.Client
import ACENetwork.Proofs.Dhcp.Areas
import ACENetwork.Proofs.Dhcp.Discover

/-! Through which datagrams a client goes, whoever sends them. None of them makes it send a
request. -/

namespace ACENetwork.Dhcp.Discover

open Std ByteOrder Bison Parser

section

variable {e : Endian} {capacity : ℕ} {client : Client} {configuration : ConnectionConfiguration}
  {session session' : Session} {d : Datagram} {r : Record} {sent : List Record} {octets : List UInt8}

theorem swapLong_load32 (e : Endian) {bs : List UInt8} (h : bs.length = 4) :
    swapLong e (load32 e bs) = load32 .big bs := by
  cases e with
  | big => rfl
  | little =>
    have hstore : store32 .big (swap32 (load32 .little bs)) = bs := by
      rw [← store32_swap32, swap32_swap32, store32_load32 .little h]
    calc swap32 (load32 .little bs)
        = load32 .big (store32 .big (swap32 (load32 .little bs))) := (load32_store32 _ _).symm
      _ = load32 .big bs := by rw [hstore]

theorem headerRecord_xid (hp : FieldsPresent layout octets) :
    (headerRecord e {} (split headerWidths octets)).xid = transaction octets := by
  have hlength : ((octets.drop 4).take 4).length = 4 := by
    obtain ⟨-, -, -, -, -, -, -, -, hxid, -⟩ := hp
    simp only [List.drop_drop, Nat.reduceAdd] at hxid
    rw [List.length_take]
    omega
  have hxid : (headerRecord e {} (split headerWidths octets)).xid =
      swapLong e (load32 e ((octets.drop 4).take 4)) := by
    simp only [headerWidths, split, headerRecord, List.drop_drop, Nat.reduceAdd]
    rfl
  rw [hxid, swapLong_load32 e hlength, transaction]

theorem headerRecord_op (hp : FieldsPresent layout octets) :
    (headerRecord e {} (split headerWidths octets)).op = octets.headD 0 := by
  obtain ⟨hlength, -⟩ := hp
  cases octets with
  | nil => simp at hlength
  | cons a octets => exact field_singleton e a

theorem parses_present_iff (hp : FieldsPresent layout octets) :
    (∃ ok r, Parses e octets (.returned ok r)) ↔ (walk 0 (optionOctets octets)).1 ≠ .overrun ∧
      ((walk 0 (optionOctets octets)).1 = .endOfData → field e (cookieOctets octets) = magicCookie) ∧
      ((walk 0 (optionOctets octets)).1 = .full → OptionsPrintable octets) := by
  simp only [parses_present hp, presentParsed_returned_iff, true_and]

theorem parses_returned {ok : Bool} (h : Parses e octets (.returned ok r)) :
    Yyparses e octets (.returned ok r) := by
  obtain ⟨q, hq, hr⟩ := h
  cases q with
  | fault f => cases hr
  | returned ok' r' =>
    cases ok' with
    | true => exact hr ▸ hq
    | false =>
      rw [Parsed.error, if_neg (by simp)] at hr
      split at hr
      · exact hr ▸ hq
      · cases hr

theorem record_present {ok : Bool} (hp : FieldsPresent layout octets)
    (h : Parses e octets (.returned ok r)) :
    (∀ tag, r.options[tag]? = optionValue octets tag) ∧ r.xid = transaction octets ∧
      r.op = octets.headD 0 ∧ (ok = false ↔ (walk 0 (optionOctets octets)).1 = .full) := by
  have hy := parses_returned h
  obtain ⟨-, hx⟩ | ⟨hno, -⟩ | ⟨hno, -⟩ := yyparses_cases e octets
  · rw [hx, presentParsed] at hy
    have hoption := storeOptions_walk octets
    have hxid := headerRecord_xid (e := e) hp
    have hop := headerRecord_op (e := e) hp
    generalize walk 0 (optionOctets octets) = w at hy hoption ⊢
    obtain ⟨ending, values⟩ := w
    cases ending with
    | endTag | full =>
      obtain ⟨rfl, rfl⟩ := Parsed.returned.inj hy
      exact ⟨hoption, hxid, hop, by simp⟩
    | endOfData =>
      rw [optionsParsed] at hy
      split_ifs at hy
      obtain ⟨rfl, rfl⟩ := Parsed.returned.inj hy
      exact ⟨hoption, hxid, hop, by simp⟩
    | overrun => cases hy
  · exact absurd hp hno
  · exact absurd hp hno

theorem options_absent {ok : Bool} (hp : ¬ FieldsPresent layout octets)
    (h : Parses e octets (.returned ok r)) : r.options = ∅ := by
  have hy := parses_returned h
  obtain ⟨hpresent, -⟩ | ⟨-, -, record, hempty, hx⟩ | ⟨-, -, f, -, hx⟩ := yyparses_cases e octets
  · exact absurd hpresent hp
  · obtain ⟨-, rfl⟩ := Parsed.returned.inj ((hx _).1 hy)
    exact hempty
  · cases (hx _).1 hy

theorem returned_eq_iff {session₁ : Session} :
    Outcome.returned session₁ [] = .returned session' sent ↔ session' = session₁ ∧ sent = [] := by
  rw [Outcome.returned.injEq, eq_comm (b := session'), eq_comm (b := sent)]

theorem printReply_returned_iff :
    printReply session r = .returned session' sent ↔
      (r.op = opReply → ∃ text, Dump.dump r = .ok text) ∧ session' = session ∧ sent = [] := by
  rw [printReply]
  by_cases hop : r.op = opReply
  · rw [if_neg (not_not.2 hop)]
    cases hdump : Dump.dump r with
    | ok text =>
      simp only [returned_eq_iff, Except.ok.injEq, exists_eq', implies_true, true_and]
    | error f => simp [hop]
  · rw [if_pos hop, returned_eq_iff]
    simp only [hop, false_implies, true_and]

theorem reply_returned_iff {calls : Calls} (hsends : client.sendRequestOnOffer = true) :
    reply e calls client configuration session r = .returned session' sent ↔
      (∃ value, r.options[optionMessageType]? = some value ∧
        ¬ (value.headD 0 = messageOffer ∧ r.xid = session.xid ∧
          (configuration.allocatorConfiguration = none ∨ calls.allocateMessage = true)) ∧
        (value.headD 0 ≠ messageOffer ∧ r.op = opReply → ∃ text, Dump.dump r = .ok text)) ∧
      session' = session ∧ sent = [] := by
  rw [reply, hsends]
  simp only [Bool.not_true, Bool.false_eq_true, if_false, type]
  cases htype : r.options[optionMessageType]? with
  | none => simp
  | some value =>
    simp only [Option.map_some, Option.some.injEq, exists_eq_left']
    generalize value.headD 0 = kind
    by_cases hoffer : kind = messageOffer
    · by_cases hxid : r.xid = session.xid
      · by_cases hnone : configuration.allocatorConfiguration = none
        · simp [hoffer, hxid, hnone]
        · cases hcall : calls.allocateMessage with
          | true => simp [hoffer, hxid, hnone, chaddrSize, ethAlen]
          | false =>
            simp only [hoffer, hxid, hnone, ne_eq, not_true_eq_false, if_false, Bool.not_false, if_true,
              returned_eq_iff]
            simp
      · simp only [hoffer, hxid, ne_eq, not_true_eq_false, not_false_eq_true, if_false, if_true,
          returned_eq_iff]
        simp
    · simp only [hoffer, ne_eq, not_false_eq_true, if_true, printReply_returned_iff]
      simp

/-- The address of a server is learnt from a record, unless this fails or ends the program. -/
theorem setServerAddress_cases (session : Session) (d : Datagram)
    (hserver : r.options[optionServerIdentifier]? = optionValue d.octets optionServerIdentifier) :
    (session.serverAddressIsAny = true ∧
        (∃ value, optionValue d.octets optionServerIdentifier = some value ∧ value.length ≠ 4) ∧
        setServerAddress d.calls session r = .error .assertion) ∨
      ((session.serverAddressIsAny = true → ∀ value, optionValue d.octets optionServerIdentifier = some value →
          value.length = 4) ∧
        ((Introduces session d.octets ∧ d.calls.set = false ∧ learn session d = session ∧
            setServerAddress d.calls session r = .error .returned) ∨
          (¬ (Introduces session d.octets ∧ d.calls.set = false) ∧
            setServerAddress d.calls session r = .ok (learn session d)))) := by
  rw [setServerAddress, hserver, learn, Introduces]
  cases hany : session.serverAddressIsAny with
  | false => cases optionValue d.octets optionServerIdentifier <;> simp
  | true =>
    cases optionValue d.octets optionServerIdentifier with
    | none => simp
    | some value =>
      by_cases hlength : value.length = 4
      · cases hset : d.calls.set <;> simp [hlength]
      · simp [hlength]

theorem learn_ready (h : Ready client configuration session) (d : Datagram) :
    Ready client configuration (learn session d) := by
  refine ⟨h.sends, h.configured, ?_⟩
  rw [learn]
  split
  · split_ifs <;> exact h.connected
  · exact h.connected

theorem learn_xid (session : Session) (d : Datagram) : (learn session d).xid = session.xid := by
  rw [learn]
  split
  · split_ifs <;> rfl
  · rfl

theorem handleDataMessage_returned_iff (e : Endian) (d : Datagram)
    (hready : Ready client configuration session)
    (hoptions : ∀ tag, r.options[tag]? = optionValue d.octets tag) (hxid : r.xid = transaction d.octets)
    (hop : r.op = opReply ↔ d.octets.head? = some opReply) :
    handleDataMessage e d.calls client session r = .returned session' sent ↔
      ((session.serverAddressIsAny = true → ∀ value, optionValue d.octets optionServerIdentifier = some value →
          value.length = 4) ∧
        (Introduces session d.octets ∧ d.calls.set = false ∨
          ∃ value, optionValue d.octets optionMessageType = some value ∧
            ¬ Answerable configuration session d value ∧
            (Printed d.octets value → OptionsPrintable d.octets))) ∧
      session' = learn session d ∧ sent = [] := by
  have hdump : (∃ text, Dump.dump r = .ok text) ↔ OptionsPrintable d.octets := by
    simp only [Dump.dump_ok_iff, hoptions, OptionsPrintable]
  rw [handleDataMessage, if_neg hready.connected, hready.configured]
  obtain ⟨hany, ⟨value, hvalue, hlength⟩, hset⟩ | ⟨hserver, ⟨hintroduces, hcall, hlearn, hset⟩ | ⟨hnot, hset⟩⟩ :=
    setServerAddress_cases session d (hoptions optionServerIdentifier)
  · have hno : ¬ (session.serverAddressIsAny = true → ∀ value,
        optionValue d.octets optionServerIdentifier = some value → value.length = 4) :=
      fun h => hlength (h hany value hvalue)
    simp only [hset, hno, false_and, iff_false]
    intro h
    cases h
  · simp only [hset, hlearn, returned_eq_iff, hintroduces, hcall, and_self, true_or, and_true]
    exact (and_iff_right hserver).symm
  · have hsession := learn_xid session d
    simp only [hset, reply_returned_iff (learn_ready hready d).sends, hoptions, hxid, hsession, hop, hdump,
      hnot, false_or, Answerable, Printed]
    exact and_congr_left fun _ => (and_iff_right hserver).symm

theorem head?_eq_opReply (hp : FieldsPresent layout octets) :
    octets.headD 0 = opReply ↔ octets.head? = some opReply := by
  obtain ⟨hlength, -⟩ := hp
  cases octets with
  | nil => simp at hlength
  | cons a octets => simp

theorem receives_returned_iff (hready : Ready client configuration session) :
    Receives e capacity client session d (.returned session' sent) ↔
      Harmless e capacity configuration session d ∧ session' = learn session d ∧ sent = [] := by
  constructor
  · intro h
    generalize hx : Outcome.returned session' sent = x at h
    cases h with
    | boundary _ => cases hx
    | fault _ _ => cases hx
    | uninitialized _ _ _ => cases hx
    | @record ok r hroom hparses hinit =>
      by_cases hp : FieldsPresent layout d.octets
      · obtain ⟨hoptions, hxid, hop, hrefused⟩ := record_present hp hparses
        obtain ⟨hending, hcookie, hfull⟩ := (parses_present_iff hp).1 ⟨ok, r, hparses⟩
        have hreply : r.op = opReply ↔ d.octets.head? = some opReply := hop ▸ head?_eq_opReply hp
        obtain ⟨⟨hserver, hkind⟩, hafter⟩ :=
          (handleDataMessage_returned_iff e d hready hoptions hxid hreply).1 hx.symm
        refine ⟨⟨hroom, hp, hending, hcookie, fun h => ⟨?_, hfull h⟩, hserver, hkind⟩, hafter⟩
        exact hinit.resolve_left (by simp [hrefused.2 h])
      · -- a truncated datagram has no options, not even the type of the message
        have hempty := options_absent hp hparses
        have hset : setServerAddress d.calls session r = .ok session := by
          rw [setServerAddress, hempty]
          split <;> simp
        have htype : reply e d.calls client configuration session r = .assertion := by
          rw [reply, hready.sends, type, hempty]
          simp
        have hends : handleDataMessage e d.calls client session r = .assertion := by
          rw [handleDataMessage, if_neg hready.connected, hready.configured]
          simp only [hset, htype]
        cases hx.trans hends
  · rintro ⟨h, rfl, rfl⟩
    obtain ⟨ok, r, hparses⟩ := (parses_present_iff h.fields).2 ⟨h.ending, h.cookie, fun hf => (h.full hf).2⟩
    obtain ⟨hoptions, hxid, hop, hrefused⟩ := record_present h.fields hparses
    have hreply : r.op = opReply ↔ d.octets.head? = some opReply := hop ▸ head?_eq_opReply h.fields
    rw [← (handleDataMessage_returned_iff e d hready hoptions hxid hreply).2
      ⟨⟨h.server, h.kind⟩, rfl, rfl⟩]
    refine .record h.room hparses ?_
    cases ok with
    | true => exact Or.inl rfl
    | false => exact Or.inr (h.full (hrefused.1 rfl)).1

/-- A client that is ready goes through the datagrams iff none of them does it harm as it is by then.
It knows the first address of a server that it was told, and it has sent nothing. -/
theorem runs_iff {ds : List Datagram} (hready : Ready client configuration session) :
    Runs e capacity client session ds session' sent ↔
      Spared e capacity configuration session ds ∧ session' = ds.foldl learn session ∧ sent = [] := by
  induction ds generalizing session session' sent with
  | nil =>
    constructor
    · intro h
      cases h
      exact ⟨trivial, rfl, rfl⟩
    · rintro ⟨-, rfl, rfl⟩
      exact .nil _
  | cons d ds ih =>
    constructor
    · intro h
      cases h with
      | cons hstep hrest =>
        obtain ⟨hharmless, rfl, rfl⟩ := (receives_returned_iff hready).1 hstep
        obtain ⟨hspared, hsession, hsent⟩ := (ih (learn_ready hready d)).1 hrest
        exact ⟨⟨hharmless, hspared⟩, hsession, hsent⟩
    · rintro ⟨⟨hharmless, hspared⟩, rfl, rfl⟩
      have hstep : Receives e capacity client session d (.returned (learn session d) []) :=
        (receives_returned_iff hready).2 ⟨hharmless, rfl, rfl⟩
      exact .cons hstep ((ih (learn_ready hready d)).2 ⟨hspared, rfl, rfl⟩)

end

/-- The fields of a reply, and the magic cookie. -/
def replyHead : List UInt8 := opReply :: List.replicate 235 1 ++ magicOctets

theorem replyHead_head : Head replyHead := ⟨rfl, by decide +kernel⟩

/-- A reply in the transaction 0x01010101 from the server 10.0.0.1, with a mask. -/
def told (kind : UInt8) : Datagram where
  octets := replyHead ++ [53, 1, kind, 1, 4, 255, 255, 255, 0, 54, 4, 10, 0, 0, 1, 255]
  initialized := false
  calls := ⟨true, true, true⟩

def acknowledgement : UInt8 := 5

theorem told_walk (kind : UInt8) : walk 0 (optionOctets (told kind).octets) =
    (.endTag, [(optionMessageType, [kind]), (1, [255, 255, 255, 0]),
      (optionServerIdentifier, [10, 0, 0, 1])]) := by
  have hoctets : optionOctets (told kind).octets =
      [53, 1, kind, 1, 4, 255, 255, 255, 0, 54, 4, 10, 0, 0, 1, 255] := rfl
  rw [hoctets]
  simp [walk, maxDepth, optionTagEnd, optionTagPad, optionMessageType, optionServerIdentifier]

theorem told_kind (kind : UInt8) : optionValue (told kind).octets optionMessageType = some [kind] := by
  rw [optionValue, told_walk]
  rfl

theorem told_server (kind : UInt8) :
    optionValue (told kind).octets optionServerIdentifier = some [10, 0, 0, 1] := by
  rw [optionValue, told_walk]
  rfl

theorem told_printable (kind : UInt8) : OptionsPrintable (told kind).octets := by
  intro tag value hvalue
  rw [optionValue, told_walk, Option.map_eq_some_iff] at hvalue
  obtain ⟨o, ho, rfl⟩ := hvalue
  have htag : o.1 = tag := by simpa using List.find?_some ho
  subst htag
  have hmem := List.mem_of_find?_eq_some ho
  simp only [List.mem_cons, List.not_mem_nil, or_false] at hmem
  rcases hmem with rfl | rfl | rfl
  · have hcommand : Dump.optionToFieldType optionMessageType = .command := rfl
    simp [Dump.Printable, hcommand]
  · decide
  · decide

theorem told_harmless (kind : UInt8) (session : Session) (hxid : session.xid = 7) :
    Harmless .little 1500 ⟨some 576, "eth0"⟩ session (told kind) where
  room := by
    have hlength : (told kind).octets.length = 256 := by
      rw [told, List.length_append, replyHead_head.1]
      rfl
    rw [hlength]
    decide
  fields := replyHead_head.2.append _
  ending := by simp [told_walk]
  cookie := by simp [told_walk]
  full := by simp [told_walk]
  server := fun _ value hvalue => by
    obtain rfl := Option.some.inj ((told_server kind).symm.trans hvalue)
    rfl
  kind := by
    refine Or.inr ⟨[kind], told_kind kind, ?_, fun _ => told_printable kind⟩
    rintro ⟨-, htransaction, -⟩
    have htold : transaction (told kind).octets = 0x01010101 := rfl
    rw [htold, hxid] at htransaction
    exact absurd htransaction (by decide)

/-- An acknowledgement, and an offer of another transaction. -/
theorem runs_told : Runs .little 1500 client session [told acknowledgement, told messageOffer]
    { session with serverAddress := ⟨[10, 0, 0, 1], rfl⟩ } [] := by
  have hspared : Spared .little 1500 ⟨some 576, "eth0"⟩ session [told acknowledgement, told messageOffer] :=
    ⟨told_harmless _ _ rfl, told_harmless _ _ (learn_xid session _), trivial⟩
  refine (runs_iff client_ready).2 ⟨hspared, ?_, rfl⟩
  have hlearn : ∀ kind, learn session (told kind) =
      { session with serverAddress := ⟨[10, 0, 0, 1], rfl⟩ } := by
    intro kind
    rw [learn]
    simp only [told_server]
    rfl
  rw [List.foldl_cons, hlearn, List.foldl_cons, learn]
  simp only [told_server]
  rfl

end ACENetwork.Dhcp.Discover
