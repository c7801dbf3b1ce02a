import Mathlib
import ACENetwork.Spec.Dhcp.Discover

/-! An offer of the session is never answered: an assertion has the two sizes of a hardware address
the wrong way round. The request behind it would be right. -/

namespace ACENetwork.Dhcp.Discover

open Std ByteOrder

theorem request_requests (e : Endian) (client : Client) (configuration : ConnectionConfiguration)
    (r : Record) (leaseTime serverIdentifier : List UInt8) :
    Requests e (client.interfaceToLinkLayerAddress configuration.interfaceIdentifier) r leaseTime
      serverIdentifier (request e client configuration r leaseTime serverIdentifier) where
  op := rfl
  xid := rfl
  secs := rfl
  chaddr := rfl
  options := by
    intro tag
    simp only [request, ExtTreeMap.getElem?_insertIfNew, ExtTreeMap.getElem?_empty,
      ExtTreeMap.mem_insertIfNew, ExtTreeMap.not_mem_empty, Std.compare_eq_iff_eq,
      optionRequestedIpAddress, optionIpAddressLeaseTime, optionMessageType, optionServerIdentifier]
    grind

theorem setServerAddress_xid {calls : Calls} {session session' : Session} {r : Record}
    (h : setServerAddress calls session r = .ok session') : session'.xid = session.xid := by
  unfold setServerAddress at h
  cases hany : session.serverAddressIsAny with
  | false =>
    simp only [hany, Bool.not_false, if_true, Except.ok.injEq] at h
    rw [h]
  | true =>
    simp only [hany, Bool.not_true, Bool.false_eq_true, if_false] at h
    cases hserver : r.options[optionServerIdentifier]? with
    | none =>
      simp only [hserver, Except.ok.injEq] at h
      rw [h]
    | some value =>
      simp only [hserver] at h
      split_ifs at h
      rw [← Except.ok.inj h]

theorem setServerAddress_ne_assertion {calls : Calls} {session : Session} {r : Record}
    {leaseTime serverIdentifier : List UInt8} (h : IsOffer r leaseTime serverIdentifier) :
    setServerAddress calls session r ≠ .error .assertion := by
  unfold setServerAddress
  rw [h.server]
  simp only [h.address, dite_true]
  split_ifs <;> simp

/-- No offer with the transaction of the session gets past the assertion. -/
theorem reply_of_eq {e : Endian} {calls : Calls} {client : Client} {configuration : ConnectionConfiguration}
    {session : Session} {r : Record} {leaseTime serverIdentifier : List UInt8}
    (h : IsOffer r leaseTime serverIdentifier) (hsends : client.sendRequestOnOffer = true)
    (hxid : r.xid = session.xid) :
    reply e calls client configuration session r = .assertion ∨
      reply e calls client configuration session r = .returned session [] := by
  rw [reply, hsends, h.type]
  by_cases hallocator : configuration.allocatorConfiguration = none
  · exact Or.inl (by simp [hxid, hallocator])
  · cases hcall : calls.allocateMessage with
    | true => exact Or.inl (by simp [hxid, hallocator, chaddrSize, ethAlen])
    | false => exact Or.inr (by simp [hxid, hallocator])

theorem reply_of_ne {e : Endian} {calls : Calls} {client : Client} {configuration : ConnectionConfiguration}
    {session : Session} {r : Record} {leaseTime serverIdentifier : List UInt8}
    (h : IsOffer r leaseTime serverIdentifier) (hsends : client.sendRequestOnOffer = true)
    (hxid : r.xid ≠ session.xid) :
    reply e calls client configuration session r = .returned session [] := by
  rw [reply, hsends, h.type]
  simp [hxid]

theorem answersOffer_iff (e : Endian) (calls : Calls) {client : Client}
    {configuration : ConnectionConfiguration} {session : Session} {r : Record}
    {leaseTime serverIdentifier : List UInt8} (hready : Ready client configuration session)
    (h : IsOffer r leaseTime serverIdentifier) :
    Answers e (client.interfaceToLinkLayerAddress configuration.interfaceIdentifier) session r leaseTime
      serverIdentifier (handleDataMessage e calls client session r) ↔ r.xid ≠ session.xid := by
  rw [handleDataMessage, if_neg hready.connected, hready.configured]
  cases hset : setServerAddress calls session r with
  | error exit =>
    cases exit with
    | returned => by_cases hxid : r.xid = session.xid <;> simp [Answers, hxid]
    | assertion => exact absurd hset (setServerAddress_ne_assertion h)
  | ok session' =>
    have hsession := setServerAddress_xid hset
    by_cases hxid : r.xid = session.xid
    · have hreply : reply e calls client configuration session' r = .assertion ∨ _ :=
        reply_of_eq h hready.sends (hxid.trans hsession.symm)
      rcases hreply with hreply | hreply <;> simp [hreply, Answers, hxid]
    · simp [reply_of_ne h hready.sends (hsession ▸ hxid), Answers, hxid]

def client : Client where
  sendRequestOnOffer := true
  requestBroadcastReplies := false
  connectionConfiguration := some ⟨some 576, "eth0"⟩
  interfaceToLinkLayerAddress := fun _ => ⟨[2, 0, 0, 0, 0, 1], rfl⟩

def session : Session where
  serverAddress := Octets.zeros 4
  connection := some 3
  xid := 7

def offer (xid : UInt32) : Record where
  op := 2
  xid := xid
  yiaddr := 0x0A000005
  options := (((∅ : ExtTreeMap UInt8 (List UInt8)).insertIfNew 51 [0, 0, 0, 60]).insertIfNew 53 [2]).insertIfNew
    54 [10, 0, 0, 1]

theorem offer_isOffer (xid : UInt32) : IsOffer (offer xid) [0, 0, 0, 60] [10, 0, 0, 1] where
  type := by
    simp only [type, offer, ExtTreeMap.getElem?_insertIfNew]
    decide
  lease := by
    simp only [offer, ExtTreeMap.getElem?_insertIfNew]
    decide
  server := by
    simp only [offer, ExtTreeMap.getElem?_insertIfNew]
    decide
  address := rfl

theorem client_ready : Ready client ⟨some 576, "eth0"⟩ session := ⟨rfl, rfl, by simp [session]⟩

theorem other_offer_answers : Answers .little ⟨[2, 0, 0, 0, 0, 1], rfl⟩ session (offer 8) [0, 0, 0, 60]
    [10, 0, 0, 1] (handleDataMessage .little ⟨true, true, true⟩ client session (offer 8)) :=
  (answersOffer_iff .little ⟨true, true, true⟩ client_ready (offer_isOffer 8)).2 (by decide)

/-- The program ends. -/
theorem offer_not_answers : ¬ Answers .little ⟨[2, 0, 0, 0, 0, 1], rfl⟩ session (offer 7) [0, 0, 0, 60]
    [10, 0, 0, 1] (handleDataMessage .little ⟨true, true, true⟩ client session (offer 7)) := by
  have hset : setServerAddress ⟨true, true, true⟩ session (offer 7) =
      .ok { session with serverAddress := ⟨[10, 0, 0, 1], rfl⟩ } := by
    rw [setServerAddress, (offer_isOffer 7).server]
    rfl
  rw [handleDataMessage, if_neg client_ready.connected, client_ready.configured, hset]
  exact id

end ACENetwork.Dhcp.Discover
