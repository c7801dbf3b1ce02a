import Mathlib
import ACENetwork.Spec.Dhcp.Dump

/-! `DHCP_Module_Discover_T::handleDataMessage`: the client answers the offer of a server with a
request, and what that request should be. -/

namespace ACENetwork.Dhcp.Discover

open Std ByteOrder

def opRequest : UInt8 := 1
def opReply : UInt8 := 2

def optionRequestedIpAddress : UInt8 := 50
def optionIpAddressLeaseTime : UInt8 := 51
def optionMessageType : UInt8 := 53
def optionServerIdentifier : UInt8 := 54

def messageOffer : UInt8 := 2
def messageRequest : UInt8 := 3

def frameHtype : UInt8 := 1
def frameHlen : UInt8 := 6
def flagsBroadcast : UInt16 := 0x8000

def ethAlen : ℕ := 6

/-- The connection configuration of the module, or else that of "Out". -/
structure ConnectionConfiguration where
  allocatorConfiguration : Option ℕ
  interfaceIdentifier : String

/-- The module once it is initialized, with the link-layer addresses of the interfaces of the host. -/
structure Client where
  sendRequestOnOffer : Bool
  requestBroadcastReplies : Bool
  connectionConfiguration : Option ConnectionConfiguration
  interfaceToLinkLayerAddress : String → Octets ethAlen

/-- The session data. An address is kept in the order of the network. -/
structure Session where
  serverAddress : Octets 4
  connection : Option ℕ
  xid : UInt32

def Session.serverAddressIsAny (session : Session) : Bool :=
  decide (session.serverAddress.1 = [0, 0, 0, 0])

/-- Whether these calls succeed: `ACE_INET_Addr::set`, `allocateMessage`, and the `dynamic_cast` to a
connection with a stream. -/
structure Calls where
  set : Bool
  allocateMessage : Bool
  isStreamConnection : Bool

/-- The function returns, with the session data as they are then and the records that it has sent,
or it ends the program: an assertion of its own fails, or the text of a message cannot be had. -/
inductive Outcome where
  | returned (session : Session) (sent : List Record)
  | assertion
  | dump (f : Dump.Fault)

/-- `DHCP_Tools::type`, which asserts that there is the option. The first octet of an empty text is
the NUL behind it. -/
def type (r : Record) : Option UInt8 := r.options[optionMessageType]?.map fun value => value.headD 0

/-- Why the first part of the function ends it. -/
inductive Exit where
  | returned
  | assertion

/-- The address of the server is set to the one of the offer unless it is known. -/
def setServerAddress (calls : Calls) (session : Session) (r : Record) : Except Exit Session :=
  if !session.serverAddressIsAny then .ok session else
  match r.options[optionServerIdentifier]? with
  | none => .ok session
  | some value =>
    if h : value.length = 4 then
      if calls.set then .ok { session with serverAddress := ⟨value, h⟩ } else .error .returned
    else .error .assertion

def chaddr (address : Octets ethAlen) : Octets chaddrSize :=
  ⟨address.1 ++ List.replicate 10 0, by rw [List.length_append, address.2]; rfl⟩

/-- The record of the request, with the values of two options of the offer. -/
def request (e : Endian) (client : Client) (configuration : ConnectionConfiguration) (r : Record)
    (leaseTime serverIdentifier : List UInt8) : Record where
  op := opRequest
  htype := frameHtype
  hlen := frameHlen
  xid := r.xid
  secs := r.secs
  flags := if client.requestBroadcastReplies then flagsBroadcast else 0
  chaddr := chaddr (client.interfaceToLinkLayerAddress configuration.interfaceIdentifier)
  options := (((∅ : ExtTreeMap UInt8 (List UInt8)).insertIfNew optionRequestedIpAddress
    (store32 e r.yiaddr)).insertIfNew optionIpAddressLeaseTime leaseTime).insertIfNew
    optionMessageType [messageRequest] |>.insertIfNew optionServerIdentifier serverIdentifier

def printReply (session : Session) (r : Record) : Outcome :=
  if r.op ≠ opReply then .returned session [] else
  match Dump.dump r with
  | .ok _ => .returned session []
  | .error f => .dump f

def reply (e : Endian) (calls : Calls) (client : Client) (configuration : ConnectionConfiguration)
    (session : Session) (r : Record) : Outcome :=
  if !client.sendRequestOnOffer then printReply session r else
  match type r with
  | none => .assertion
  | some type =>
    if type ≠ messageOffer then printReply session r else
    if r.xid ≠ session.xid then .returned session [] else
    if configuration.allocatorConfiguration = none then .assertion else
    if !calls.allocateMessage then .returned session [] else
    if ¬ chaddrSize ≤ ethAlen then .assertion else
    match r.options[optionIpAddressLeaseTime]?, r.options[optionServerIdentifier]? with
    | some leaseTime, some serverIdentifier =>
      if !calls.isStreamConnection then .returned session []
      else .returned session [request e client configuration r leaseTime serverIdentifier]
    | _, _ => .assertion

def handleDataMessage (e : Endian) (calls : Calls) (client : Client) (session : Session) (r : Record) :
    Outcome :=
  if session.connection = none then .assertion else
  match client.connectionConfiguration with
  | none => .assertion
  | some configuration =>
    match setServerAddress calls session r with
    | .error .returned => .returned session []
    | .error .assertion => .assertion
    | .ok session => reply e calls client configuration session r

/-- An offer with these two options. -/
structure IsOffer (r : Record) (leaseTime serverIdentifier : List UInt8) : Prop where
  type : type r = some messageOffer
  lease : r.options[optionIpAddressLeaseTime]? = some leaseTime
  server : r.options[optionServerIdentifier]? = some serverIdentifier
  address : serverIdentifier.length = 4

/-- The module and the session are ready for offers. -/
structure Ready (client : Client) (configuration : ConnectionConfiguration) (session : Session) : Prop where
  sends : client.sendRequestOnOffer = true
  configured : client.connectionConfiguration = some configuration
  connected : session.connection ≠ none

/-- The request for an offer. -/
structure Requests (e : Endian) (address : Octets ethAlen) (r : Record)
    (leaseTime serverIdentifier : List UInt8) (sent : Record) : Prop where
  op : sent.op = opRequest
  xid : sent.xid = r.xid
  secs : sent.secs = r.secs
  chaddr : sent.chaddr.1 = address.1 ++ List.replicate (chaddrSize - ethAlen) 0
  options : ∀ tag, sent.options[tag]? =
    if tag = optionRequestedIpAddress then some (store32 e r.yiaddr)
    else if tag = optionIpAddressLeaseTime then some leaseTime
    else if tag = optionMessageType then some [messageRequest]
    else if tag = optionServerIdentifier then some serverIdentifier
    else none

/-- One request is sent for an offer of this session, none for another one. -/
def Answers (e : Endian) (address : Octets ethAlen) (session : Session) (r : Record)
    (leaseTime serverIdentifier : List UInt8) : Outcome → Prop
  | .assertion | .dump _ => False
  | .returned _ sent =>
    if r.xid = session.xid then
      ∃ request, sent = [request] ∧ Requests e address r leaseTime serverIdentifier request
    else sent = []

end ACENetwork.Dhcp.Discover
