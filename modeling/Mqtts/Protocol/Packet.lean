import Mqtts.Topic.Tree

/-!
# MQTT packets

The packets as the parser builds them: one type of properties for all packets, and one
constructor per packet type. Fields that the parser leaves unset have the value of the
source's initialiser, or 0 where it has none. Reason codes are kept as their byte.
-/

namespace Mqtts.Protocol

inductive PacketType where
  | connect
  | connack
  | publish
  | puback
  | pubrec
  | pubrel
  | pubcomp
  | subscribe
  | suback
  | unsubscribe
  | unsuback
  | pingreq
  | pingresp
  | disconnect
  | auth
  deriving DecidableEq

def PacketType.ofByte (first : UInt8) : Option PacketType :=
  match first &&& 0xF0 with
  | 0x10 => some .connect
  | 0x20 => some .connack
  | 0x30 => some .publish
  | 0x40 => some .puback
  | 0x50 => some .pubrec
  | 0x60 => some .pubrel
  | 0x70 => some .pubcomp
  | 0x80 => some .subscribe
  | 0x90 => some .suback
  | 0xA0 => some .unsubscribe
  | 0xB0 => some .unsuback
  | 0xC0 => some .pingreq
  | 0xD0 => some .pingresp
  | 0xE0 => some .disconnect
  | 0xF0 => some .auth
  | _ => none

/-- The flags that the fixed header of a packet type has to have; those of PUBLISH are its
fields. -/
def PacketType.flags : PacketType → Option UInt8
  | .publish => none
  | .subscribe | .unsubscribe | .pubrel => some 0x02
  | _ => some 0x00

inductive PropertyType where
  | payloadFormatIndicator
  | messageExpiryInterval
  | contentType
  | responseTopic
  | correlationData
  | subscriptionIdentifier
  | sessionExpiryInterval
  | assignedClientIdentifier
  | serverKeepAlive
  | authenticationMethod
  | authenticationData
  | requestProblemInformation
  | willDelayInterval
  | requestResponseInformation
  | responseInformation
  | serverReference
  | reasonString
  | receiveMaximum
  | topicAliasMaximum
  | topicAlias
  | maximumQoS
  | retainAvailable
  | userProperty
  | maximumPacketSize
  | wildcardSubscriptionAvailable
  | subscriptionIdentifierAvailable
  | sharedSubscriptionAvailable
  deriving DecidableEq

def PropertyType.ofByte : UInt8 → Option PropertyType
  | 0x01 => some .payloadFormatIndicator
  | 0x02 => some .messageExpiryInterval
  | 0x03 => some .contentType
  | 0x08 => some .responseTopic
  | 0x09 => some .correlationData
  | 0x0B => some .subscriptionIdentifier
  | 0x11 => some .sessionExpiryInterval
  | 0x12 => some .assignedClientIdentifier
  | 0x13 => some .serverKeepAlive
  | 0x15 => some .authenticationMethod
  | 0x16 => some .authenticationData
  | 0x17 => some .requestProblemInformation
  | 0x18 => some .willDelayInterval
  | 0x19 => some .requestResponseInformation
  | 0x1A => some .responseInformation
  | 0x1C => some .serverReference
  | 0x1F => some .reasonString
  | 0x21 => some .receiveMaximum
  | 0x22 => some .topicAliasMaximum
  | 0x23 => some .topicAlias
  | 0x24 => some .maximumQoS
  | 0x25 => some .retainAvailable
  | 0x26 => some .userProperty
  | 0x27 => some .maximumPacketSize
  | 0x28 => some .wildcardSubscriptionAvailable
  | 0x29 => some .subscriptionIdentifierAvailable
  | 0x2A => some .sharedSubscriptionAvailable
  | _ => none

structure Properties where
  sessionExpiryInterval : Nat := 0
  hasSessionExpiryInterval : Bool := false
  receiveMaximum : Nat := 0
  hasReceiveMaximum : Bool := false
  maximumPacketSize : Nat := 0
  hasMaximumPacketSize : Bool := false
  topicAliasMaximum : Nat := 0
  topicAlias : Nat := 0
  hasTopicAlias : Bool := false
  requestResponseInformation : Bool := false
  requestProblemInformation : Bool := false
  userProperties : List (Str × Str) := []
  authenticationMethod : Str := []
  authenticationData : Str := []
  assignedClientIdentifier : Str := []
  serverKeepAlive : Nat := 0
  responseInformation : Str := []
  serverReference : Str := []
  reasonString : Str := []
  payloadFormatIndicator : UInt8 := 0
  messageExpiryInterval : Nat := 0
  hasMessageExpiryInterval : Bool := false
  contentType : Str := []
  responseTopic : Str := []
  correlationData : Str := []
  subscriptionIdentifier : Nat := 0
  willDelayInterval : Nat := 0
  maximumQoS : UInt8 := 0
  hasMaximumQoS : Bool := false
  retainAvailable : Bool := true
  wildcardSubscriptionAvailable : Bool := true
  subscriptionIdentifierAvailable : Bool := true
  sharedSubscriptionAvailable : Bool := true
  deriving DecidableEq

structure ConnectFlags where
  cleanStart : Bool
  willFlag : Bool
  willQos : Nat
  willRetain : Bool
  passwordFlag : Bool
  usernameFlag : Bool
  deriving DecidableEq

structure ConnectPacket where
  protocolName : Str
  protocolVersion : UInt8
  flags : ConnectFlags
  keepAlive : Nat
  clientId : Str
  willTopic : Str
  willPayload : Str
  username : Str
  password : Str
  properties : Properties
  willProperties : Properties
  deriving DecidableEq

structure PublishPacket where
  dup : Bool
  qos : Nat
  retain : Bool
  topicName : Str
  packetId : Nat
  properties : Properties
  payload : Str
  deriving DecidableEq

structure AckPacket where
  packetId : Nat
  reasonCode : UInt8
  properties : Properties
  deriving DecidableEq

structure CodesPacket where
  packetId : Nat
  properties : Properties
  reasonCodes : List UInt8
  deriving DecidableEq

structure SubscribePacket where
  packetId : Nat
  properties : Properties
  subscriptions : List (Str × SubscriptionOptions)
  deriving DecidableEq

structure UnsubscribePacket where
  packetId : Nat
  properties : Properties
  topicFilters : List Str
  deriving DecidableEq

structure ConnAckPacket where
  sessionPresent : Bool
  reasonCode : UInt8
  properties : Properties
  deriving DecidableEq

structure ReasonPacket where
  reasonCode : UInt8
  properties : Properties
  deriving DecidableEq

inductive Packet where
  | connect (p : ConnectPacket)
  | connack (p : ConnAckPacket)
  | publish (p : PublishPacket)
  | puback (p : AckPacket)
  | pubrec (p : AckPacket)
  | pubrel (p : AckPacket)
  | pubcomp (p : AckPacket)
  | subscribe (p : SubscribePacket)
  | suback (p : CodesPacket)
  | unsubscribe (p : UnsubscribePacket)
  | unsuback (p : CodesPacket)
  | pingreq
  | pingresp
  | disconnect (p : ReasonPacket)
  | auth (p : ReasonPacket)
  deriving DecidableEq

inductive Status where
  | protocol
  | packetInvalid
  | packetIncomplete
  | packetType
  | connectProtocol
  | connectClientId
  | publishTopic
  | subscribeTopic
  | packetTooLarge
  | memoryAlloc
  deriving DecidableEq

end Mqtts.Protocol
