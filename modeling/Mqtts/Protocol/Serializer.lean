import Mqtts.Lib.Placed
import Mqtts.Protocol.Parser

/-!
# The packet serializer

`MQTTParser::serialize_*`. A function returns the bytes that it leaves in the buffer, which is
cleared first, or the error of a string that `validate_mqtt_string` refuses. Room for the bytes
comes from an allocator that is not part of the model: no `push_back` fails here.

`serialize_properties` goes over the properties twice. The first pass adds up their sizes
(`propertiesTotalLength`), the second one writes them (`listed`); each keeps its own tests.
CONNACK, AUTH and the two PING packets are left out.
-/

namespace Mqtts.Protocol

open Checked

/-! ## Fields -/

/-- `serialize_remaining_length`: five bytes hold any 32-bit number. -/
def serializeRemainingLength (n : Nat) : Str := varint 5 (n % 2 ^ 32)

def serializeMqttString (s : Str) : Checked Status Str := do
  refuse (s.length > 65535) (mapStringUtilError .stringTooLong)
  let status ← (validateMqttString s 0 s.length).mapError mapStringUtilError
  if status ≠ .success then fail (mapStringUtilError status) else .ok (put16 s.length ++ s)

def serializeMqttBinaryData (data : Str) : Checked Status Str := do
  refuse (data.length > 65535) (mapStringUtilError .stringTooLong)
  .ok (put16 data.length ++ data)

/-! ## Properties -/

def PropertyType.toByte : PropertyType → UInt8
  | .payloadFormatIndicator => 0x01
  | .messageExpiryInterval => 0x02
  | .contentType => 0x03
  | .responseTopic => 0x08
  | .correlationData => 0x09
  | .subscriptionIdentifier => 0x0B
  | .sessionExpiryInterval => 0x11
  | .assignedClientIdentifier => 0x12
  | .serverKeepAlive => 0x13
  | .authenticationMethod => 0x15
  | .authenticationData => 0x16
  | .requestProblemInformation => 0x17
  | .willDelayInterval => 0x18
  | .requestResponseInformation => 0x19
  | .responseInformation => 0x1A
  | .serverReference => 0x1C
  | .reasonString => 0x1F
  | .receiveMaximum => 0x21
  | .topicAliasMaximum => 0x22
  | .topicAlias => 0x23
  | .maximumQoS => 0x24
  | .retainAvailable => 0x25
  | .userProperty => 0x26
  | .maximumPacketSize => 0x27
  | .wildcardSubscriptionAvailable => 0x28
  | .subscriptionIdentifierAvailable => 0x29
  | .sharedSubscriptionAvailable => 0x2A

inductive PropertyValue where
  | byte (b : UInt8)
  | short (n : Nat)
  | long (n : Nat)
  | varint (n : Nat)
  | text (s : Str)
  | binary (data : Str)
  | pair (key value : Str)

def PropertyValue.serialize : PropertyValue → Checked Status Str
  | .byte b => .ok [b]
  | .short n => .ok (put16 n)
  | .long n => .ok (put32 n)
  | .varint n => .ok (Checked.varint 5 n)
  | .text s => serializeMqttString s
  | .binary data => serializeMqttBinaryData data
  | .pair key value => do
    let key ← serializeMqttString key
    let value ← serializeMqttString value
    .ok (key ++ value)

def listIf (c : Prop) [Decidable c] (type : PropertyType) (value : PropertyValue) :
    List (PropertyType × PropertyValue) := if c then [(type, value)] else []

/-- The properties that the second pass of `serialize_properties` writes, in its order. -/
def Properties.listed (p : Properties) : List (PropertyType × PropertyValue) :=
  listIf (p.payloadFormatIndicator ≠ 0) .payloadFormatIndicator (.byte p.payloadFormatIndicator) ++
  listIf (p.messageExpiryInterval ≠ 0 ∨ p.hasMessageExpiryInterval) .messageExpiryInterval
    (.long p.messageExpiryInterval) ++
  listIf (p.contentType ≠ []) .contentType (.text p.contentType) ++
  listIf (p.responseTopic ≠ []) .responseTopic (.text p.responseTopic) ++
  listIf (p.correlationData ≠ []) .correlationData (.binary p.correlationData) ++
  listIf (p.subscriptionIdentifier ≠ 0) .subscriptionIdentifier
    (.varint p.subscriptionIdentifier) ++
  listIf (p.sessionExpiryInterval ≠ 0 ∨ p.hasSessionExpiryInterval) .sessionExpiryInterval
    (.long p.sessionExpiryInterval) ++
  listIf (p.assignedClientIdentifier ≠ []) .assignedClientIdentifier
    (.text p.assignedClientIdentifier) ++
  listIf (p.serverKeepAlive ≠ 0) .serverKeepAlive (.short p.serverKeepAlive) ++
  listIf (p.authenticationMethod ≠ []) .authenticationMethod (.text p.authenticationMethod) ++
  listIf (p.authenticationData ≠ []) .authenticationData (.binary p.authenticationData) ++
  listIf (p.requestProblemInformation) .requestProblemInformation (.byte 1) ++
  listIf (p.willDelayInterval ≠ 0) .willDelayInterval (.long p.willDelayInterval) ++
  listIf (p.requestResponseInformation) .requestResponseInformation (.byte 1) ++
  listIf (p.responseInformation ≠ []) .responseInformation (.text p.responseInformation) ++
  listIf (p.serverReference ≠ []) .serverReference (.text p.serverReference) ++
  listIf (p.reasonString ≠ []) .reasonString (.text p.reasonString) ++
  listIf (p.receiveMaximum ≠ 0) .receiveMaximum (.short p.receiveMaximum) ++
  listIf (p.topicAliasMaximum ≠ 0) .topicAliasMaximum (.short p.topicAliasMaximum) ++
  listIf (p.topicAlias ≠ 0) .topicAlias (.short p.topicAlias) ++
  listIf (p.maximumQoS ≠ 0 ∨ p.hasMaximumQoS) .maximumQoS (.byte p.maximumQoS) ++
  listIf (p.retainAvailable = false) .retainAvailable (.byte 0) ++
  p.userProperties.map (fun e => (.userProperty, .pair e.1 e.2)) ++
  listIf (p.maximumPacketSize ≠ 0) .maximumPacketSize (.long p.maximumPacketSize) ++
  listIf (p.wildcardSubscriptionAvailable = false) .wildcardSubscriptionAvailable (.byte 0) ++
  listIf (p.subscriptionIdentifierAvailable = false) .subscriptionIdentifierAvailable (.byte 0) ++
  listIf (p.sharedSubscriptionAvailable = false) .sharedSubscriptionAvailable (.byte 0)

def digitCount : Nat → Nat → Nat
  | 0, _ => 0
  | digits + 1, n => if n / 128 = 0 then 1 else 1 + digitCount digits (n / 128)

def sizeIf (c : Prop) [Decidable c] (size : Nat) : Nat := if c then size else 0

/-- `properties_total_length`, the first pass of `serialize_properties`. -/
def propertiesTotalLength (p : Properties) : Nat :=
  sizeIf (p.payloadFormatIndicator ≠ 0) (1 + 1) +
  sizeIf (p.messageExpiryInterval ≠ 0 ∨ p.hasMessageExpiryInterval) (1 + 4) +
  sizeIf (p.contentType ≠ []) (1 + 2 + p.contentType.length) +
  sizeIf (p.responseTopic ≠ []) (1 + 2 + p.responseTopic.length) +
  sizeIf (p.correlationData ≠ []) (1 + 2 + p.correlationData.length) +
  sizeIf (p.subscriptionIdentifier ≠ 0) (1 + digitCount 5 p.subscriptionIdentifier) +
  sizeIf (p.sessionExpiryInterval ≠ 0 ∨ p.hasSessionExpiryInterval) (1 + 4) +
  sizeIf (p.assignedClientIdentifier ≠ []) (1 + 2 + p.assignedClientIdentifier.length) +
  sizeIf (p.serverKeepAlive ≠ 0) (1 + 2) +
  sizeIf (p.authenticationMethod ≠ []) (1 + 2 + p.authenticationMethod.length) +
  sizeIf (p.authenticationData ≠ []) (1 + 2 + p.authenticationData.length) +
  sizeIf (p.requestProblemInformation) (1 + 1) +
  sizeIf (p.willDelayInterval ≠ 0) (1 + 4) +
  sizeIf (p.requestResponseInformation) (1 + 1) +
  sizeIf (p.responseInformation ≠ []) (1 + 2 + p.responseInformation.length) +
  sizeIf (p.serverReference ≠ []) (1 + 2 + p.serverReference.length) +
  sizeIf (p.reasonString ≠ []) (1 + 2 + p.reasonString.length) +
  sizeIf (p.receiveMaximum ≠ 0) (1 + 2) +
  sizeIf (p.topicAliasMaximum ≠ 0) (1 + 2) +
  sizeIf (p.topicAlias ≠ 0) (1 + 2) +
  sizeIf (p.maximumQoS ≠ 0 ∨ p.hasMaximumQoS) (1 + 1) +
  sizeIf (p.retainAvailable = false) (1 + 1) +
  (p.userProperties.map fun e => 1 + (2 + e.1.length) + (2 + e.2.length)).sum +
  sizeIf (p.maximumPacketSize ≠ 0) (1 + 4) +
  sizeIf (p.wildcardSubscriptionAvailable = false) (1 + 1) +
  sizeIf (p.subscriptionIdentifierAvailable = false) (1 + 1) +
  sizeIf (p.sharedSubscriptionAvailable = false) (1 + 1)

def serializeListed : List (PropertyType × PropertyValue) → Checked Status Str
  | [] => .ok []
  | (type, value) :: rest => do
    let value ← value.serialize
    let rest ← serializeListed rest
    .ok (type.toByte :: value ++ rest)

def serializeProperties (p : Properties) : Checked Status Str := do
  let body ← serializeListed p.listed
  .ok (serializeRemainingLength (propertiesTotalLength p) ++ body)

def serializeIf (c : Bool) (field : Checked Status Str) : Checked Status Str :=
  if c then field else .ok []

/-! ## Packets -/

def framed (first : UInt8) (remainingLength : Nat) (body : Str) : Str :=
  first :: serializeRemainingLength remainingLength ++ body

def flagBit (c : Bool) (mask : UInt8) : UInt8 := if c then mask else 0x00

def ConnectFlags.toByte (f : ConnectFlags) : UInt8 :=
  (f.cleanStart.toUInt8 <<< 1) ||| (f.willFlag.toUInt8 <<< 2) ||| (UInt8.ofNat f.willQos <<< 3) |||
    (f.willRetain.toUInt8 <<< 5) ||| (f.passwordFlag.toUInt8 <<< 6) |||
    (f.usernameFlag.toUInt8 <<< 7)

def serializeConnect (p : ConnectPacket) : Checked Status Str := do
  let isLegacy := p.protocolVersion == 3 || p.protocolVersion == 4
  let willProperties ←
    serializeIf (p.flags.willFlag && !isLegacy) (serializeProperties p.willProperties)
  let properties ← serializeIf (!isLegacy) (serializeProperties p.properties)
  let totalLength := 2 + p.protocolName.length + 1 + 1 + 2 + (2 + p.clientId.length) +
    sizeIf (p.flags.willFlag)
      (2 + p.willTopic.length + (2 + p.willPayload.length) + willProperties.length) +
    sizeIf (p.flags.usernameFlag) (2 + p.username.length) +
    sizeIf (p.flags.passwordFlag) (2 + p.password.length) + properties.length
  let protocolName ← serializeMqttString p.protocolName
  let clientId ← serializeMqttString p.clientId
  let willTopic ← serializeIf p.flags.willFlag (serializeMqttString p.willTopic)
  let willPayload ← serializeIf p.flags.willFlag (serializeMqttString p.willPayload)
  let username ← serializeIf p.flags.usernameFlag (serializeMqttString p.username)
  let password ← serializeIf p.flags.passwordFlag (serializeMqttString p.password)
  .ok (framed 0x10 totalLength
    (protocolName ++ [p.protocolVersion] ++ [p.flags.toByte] ++ put16 p.keepAlive ++ properties ++
      clientId ++ willProperties ++ willTopic ++ willPayload ++ username ++ password))

/-- `serialize_publish`, with `serialize_publish_header`. -/
def serializePublish (hint : UInt8) (p : PublishPacket) : Checked Status Str := do
  let properties ← serializeIf (!isLegacy hint) (serializeProperties p.properties)
  let totalLength :=
    2 + p.topicName.length + sizeIf (0 < p.qos) 2 + properties.length + p.payload.length
  refuse (totalLength > 268435455) .packetTooLarge
  let qos : UInt8 := (UInt8.ofNat p.qos &&& 0x03) <<< 1
  let first := 0x30 ||| flagBit p.dup 0x08 ||| qos ||| flagBit p.retain 0x01
  let topicName ← serializeMqttString p.topicName
  .ok (framed first totalLength
    (topicName ++ (if 0 < p.qos then put16 p.packetId else []) ++ properties ++ p.payload))

def serializeAck (first hint : UInt8) (p : AckPacket) : Checked Status Str :=
  if isLegacy hint then .ok (framed first 2 (put16 p.packetId))
  else do
    let properties ← serializeProperties p.properties
    .ok (framed first (2 + (properties.length + 1))
      (put16 p.packetId ++ [p.reasonCode] ++ properties))

def serializePuback (hint : UInt8) (p : AckPacket) : Checked Status Str := serializeAck 0x40 hint p

def serializePubrec (hint : UInt8) (p : AckPacket) : Checked Status Str := serializeAck 0x50 hint p

def serializePubrel (hint : UInt8) (p : AckPacket) : Checked Status Str := serializeAck 0x62 hint p

def serializePubcomp (hint : UInt8) (p : AckPacket) : Checked Status Str := serializeAck 0x70 hint p

/-- `map_reason_code_to_legacy_suback`. -/
def legacySubackCode : UInt8 → UInt8
  | 0x00 => 0x00
  | 0x01 => 0x01
  | 0x02 => 0x02
  | _ => 0x80

def serializeCodes (first : UInt8) (p : CodesPacket) : Checked Status Str := do
  let properties ← serializeProperties p.properties
  .ok (framed first (2 + properties.length + p.reasonCodes.length)
    (put16 p.packetId ++ properties ++ p.reasonCodes))

def serializeSuback (hint : UInt8) (p : CodesPacket) : Checked Status Str :=
  if isLegacy hint then
    .ok (framed 0x90 (2 + p.reasonCodes.length)
      (put16 p.packetId ++ p.reasonCodes.map legacySubackCode))
  else serializeCodes 0x90 p

def serializeUnsuback (hint : UInt8) (p : CodesPacket) : Checked Status Str :=
  if isLegacy hint then .ok (framed 0xB0 2 (put16 p.packetId)) else serializeCodes 0xB0 p

def serializeDisconnect (hint : UInt8) (p : ReasonPacket) : Checked Status Str :=
  if isLegacy hint then .ok [0xE0, 0x00]
  else do
    let properties ← serializeProperties p.properties
    .ok (framed 0xE0 (1 + properties.length) ([p.reasonCode] ++ properties))

/-- `SubscriptionOptions::encode`. -/
def encodeSubscriptionOptions (o : SubscriptionOptions) : UInt8 :=
  let retainHandling : UInt8 := (UInt8.ofNat o.retainHandling &&& 0x03) <<< 4
  (UInt8.ofNat o.qos &&& 0x03) ||| flagBit o.noLocal 0x04 ||| flagBit o.retainAsPublished 0x08 |||
    retainHandling

def serializeSubscriptions : List (Str × SubscriptionOptions) → Checked Status Str
  | [] => .ok []
  | (topicFilter, options) :: rest => do
    let topicFilter ← serializeMqttString topicFilter
    let rest ← serializeSubscriptions rest
    .ok (topicFilter ++ [encodeSubscriptionOptions options] ++ rest)

def serializeSubscribe (hint : UInt8) (p : SubscribePacket) : Checked Status Str := do
  let properties ← serializeIf (!isLegacy hint) (serializeProperties p.properties)
  let totalLength := 2 + properties.length +
    (p.subscriptions.map fun sub => 2 + sub.1.length + 1).sum
  let subscriptions ← serializeSubscriptions p.subscriptions
  .ok (framed 0x82 totalLength (put16 p.packetId ++ properties ++ subscriptions))

def serializeFilters : List Str → Checked Status Str
  | [] => .ok []
  | topicFilter :: rest => do
    let topicFilter ← serializeMqttString topicFilter
    let rest ← serializeFilters rest
    .ok (topicFilter ++ rest)

def serializeUnsubscribe (hint : UInt8) (p : UnsubscribePacket) : Checked Status Str := do
  let properties ← serializeIf (!isLegacy hint) (serializeProperties p.properties)
  let totalLength := 2 + properties.length + (p.topicFilters.map fun f => 2 + f.length).sum
  let topicFilters ← serializeFilters p.topicFilters
  .ok (framed 0xA2 totalLength (put16 p.packetId ++ properties ++ topicFilters))

end Mqtts.Protocol
