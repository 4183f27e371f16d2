import Mqtts.Protocol.Packet
import Mqtts.Protocol.Text

/-!
# The packet parser

`MQTTParser::parse_packet` and the functions under it. They share one cursor over the
buffer. A window of the buffer is a start and a length, as the pointer and the length that
the source passes on; reads and unsigned subtractions are those of `Checked`, so a read
outside of the buffer and a length below zero show as faults.

The protocol version hint is the parser's field of that name. `memory` says whether the
allocator of the connection has room for the packet that a parser begins; ten of the parsers
write to the packet without looking at the pointer (`beginPacket`). The containers of a packet
get their memory here. Where one does not, it throws `std::bad_alloc` and `parse_packet` returns
a status, so such a run is a run of the model that ends early.
-/

namespace Mqtts.Protocol

open Checked

/-! ## Variable-length integers -/

/-- The loop of `parse_remaining_length`; at most `left` more bytes belong to the number. -/
def remainingLengthLoop (buf : Str) (base length : Nat) :
    Nat → Nat → Nat → Nat → Checked Status (Nat × Nat)
  | 0, bytesRead, _, _ => if bytesRead ≥ length then fail .packetIncomplete else fail .packetInvalid
  | left + 1, bytesRead, remainingLength, multiplier =>
    if bytesRead ≥ length then fail .packetIncomplete
    else do
      let byte ← read buf (base + bytesRead)
      let remainingLength := remainingLength + (byte &&& 0x7F).toNat * multiplier
      if multiplier > 128 * 128 * 128 then fail .packetInvalid
      else if byte &&& 0x80 = 0 then .ok (remainingLength, bytesRead + 1)
      else
        remainingLengthLoop buf base length left (bytesRead + 1) remainingLength
          (multiplier * 128)

variable (buf : Str)

/-- `parse_remaining_length`: the number and the bytes it takes. -/
def parseRemainingLength (base length : Nat) : Checked Status (Nat × Nat) :=
  remainingLengthLoop buf base length 4 0 0 1

/-! ## Strings -/

def mapStringUtilError : StringStatus → Status
  | .bufferTooShort => .packetIncomplete
  | _ => .packetInvalid

def parseMqttString (base length : Nat) : Checked Status (Str × Nat) :=
  (parseString buf base length).mapError mapStringUtilError

def parseBinary (base length : Nat) : Checked Status (Str × Nat) :=
  (parseBinaryData buf base length).mapError mapStringUtilError

/-! ## Properties -/

section Properties

variable (buf : Str) (base length : Nat) (bytesRead : Nat)

def byteProperty (set : UInt8 → Properties) : Checked Status (Properties × Nat) := do
  let value ← read buf (base + bytesRead)
  .ok (set value, bytesRead + 1)

def shortProperty (set : Nat → Properties) : Checked Status (Properties × Nat) := do
  let value ← read16 buf (base + bytesRead)
  .ok (set value, bytesRead + 2)

def longProperty (set : Nat → Properties) : Checked Status (Properties × Nat) := do
  let value ← read32 buf (base + bytesRead)
  .ok (set value, bytesRead + 4)

def textProperty (set : Str → Properties) : Checked Status (Properties × Nat) := do
  let window ← sub length bytesRead
  let (value, localRead) ← parseMqttString buf (base + bytesRead) window
  .ok (set value, bytesRead + localRead)

def binaryProperty (set : Str → Properties) : Checked Status (Properties × Nat) := do
  let window ← sub length bytesRead
  let (value, localRead) ← parseBinary buf (base + bytesRead) window
  .ok (set value, bytesRead + localRead)

/-- The loop over the bytes of a subscription identifier, which goes on while the high bit
is set. It reads past the buffer at the latest when `rounds` is used up. -/
def subscriptionIdentifierLoop : Nat → Nat → Nat → Checked Status (Nat × Nat)
  | 0, bytesRead, _ => .error (.fault (.outOfBounds (base + bytesRead)))
  | rounds + 1, bytesRead, value => do
    let byte ← read buf (base + bytesRead)
    let value := (value * 128) % 2 ^ 32 + (byte &&& 0x7F).toNat
    if byte &&& 0x80 = 0 then .ok (value, bytesRead + 1)
    else subscriptionIdentifierLoop rounds (bytesRead + 1) value

/-- One case of the property switch: the value of a property of the given type. -/
def parseProperty (p : Properties) (bytesRead : Nat) :
    PropertyType → Checked Status (Properties × Nat)
  | .payloadFormatIndicator =>
    byteProperty buf base bytesRead fun v => { p with payloadFormatIndicator := v }
  | .messageExpiryInterval =>
    longProperty buf base bytesRead
      (fun v => { p with hasMessageExpiryInterval := true, messageExpiryInterval := v })
  | .contentType => textProperty buf base length bytesRead fun v => { p with contentType := v }
  | .responseTopic =>
    textProperty buf base length bytesRead fun v => { p with responseTopic := v }
  | .correlationData =>
    binaryProperty buf base length bytesRead fun v => { p with correlationData := v }
  | .subscriptionIdentifier => do
    let (value, bytesRead) ←
      subscriptionIdentifierLoop buf base (buf.length - (base + bytesRead) + 1) bytesRead 0
    .ok ({ p with subscriptionIdentifier := value }, bytesRead)
  | .sessionExpiryInterval =>
    longProperty buf base bytesRead
      (fun v => { p with hasSessionExpiryInterval := true, sessionExpiryInterval := v })
  | .assignedClientIdentifier =>
    textProperty buf base length bytesRead fun v => { p with assignedClientIdentifier := v }
  | .serverKeepAlive => shortProperty buf base bytesRead fun v => { p with serverKeepAlive := v }
  | .authenticationMethod =>
    textProperty buf base length bytesRead fun v => { p with authenticationMethod := v }
  | .authenticationData =>
    binaryProperty buf base length bytesRead fun v => { p with authenticationData := v }
  | .requestProblemInformation =>
    byteProperty buf base bytesRead fun v => { p with requestProblemInformation := v != 0 }
  | .willDelayInterval =>
    longProperty buf base bytesRead fun v => { p with willDelayInterval := v }
  | .requestResponseInformation =>
    byteProperty buf base bytesRead fun v => { p with requestResponseInformation := v != 0 }
  | .responseInformation =>
    textProperty buf base length bytesRead fun v => { p with responseInformation := v }
  | .serverReference =>
    textProperty buf base length bytesRead fun v => { p with serverReference := v }
  | .reasonString => textProperty buf base length bytesRead fun v => { p with reasonString := v }
  | .receiveMaximum =>
    shortProperty buf base bytesRead
      (fun v => { p with hasReceiveMaximum := true, receiveMaximum := v })
  | .topicAliasMaximum =>
    shortProperty buf base bytesRead fun v => { p with topicAliasMaximum := v }
  | .topicAlias =>
    -- the one property that the parser refuses to see twice
    if p.hasTopicAlias then fail .protocol
    else shortProperty buf base bytesRead
      (fun v => { p with hasTopicAlias := true, topicAlias := v })
  | .maximumQoS =>
    byteProperty buf base bytesRead fun v => { p with maximumQoS := v, hasMaximumQoS := true }
  | .retainAvailable =>
    byteProperty buf base bytesRead fun v => { p with retainAvailable := v != 0 }
  | .userProperty => do
    let window ← sub length bytesRead
    let (key, localRead) ← parseMqttString buf (base + bytesRead) window
    let bytesRead := bytesRead + localRead
    let window ← sub length bytesRead
    let (value, localRead) ← parseMqttString buf (base + bytesRead) window
    .ok ({ p with userProperties := p.userProperties ++ [(key, value)] }, bytesRead + localRead)
  | .maximumPacketSize =>
    longProperty buf base bytesRead
      (fun v => { p with hasMaximumPacketSize := true, maximumPacketSize := v })
  | .wildcardSubscriptionAvailable =>
    byteProperty buf base bytesRead fun v => { p with wildcardSubscriptionAvailable := v != 0 }
  | .subscriptionIdentifierAvailable =>
    byteProperty buf base bytesRead
      (fun v => { p with subscriptionIdentifierAvailable := v != 0 })
  | .sharedSubscriptionAvailable =>
    byteProperty buf base bytesRead fun v => { p with sharedSubscriptionAvailable := v != 0 }

/-- The loop of `parse_properties`. Every round reads the byte of a type, so `rounds` may be
the number of bytes up to `propertiesEnd`. -/
def propertiesLoop (propertiesEnd : Nat) : Nat → Properties → Nat → Checked Status
    (Properties × Nat)
  | 0, p, bytesRead => .ok (p, bytesRead)
  | rounds + 1, p, bytesRead =>
    if bytesRead < propertiesEnd then
      if bytesRead ≥ length then fail .packetInvalid
      else do
        let type ← read buf (base + bytesRead)
        match PropertyType.ofByte type with
        | none => fail .packetInvalid
        | some type => do
          let (p, bytesRead) ← parseProperty buf base length p (bytesRead + 1) type
          propertiesLoop propertiesEnd rounds p bytesRead
    else .ok (p, bytesRead)

def parseProperties : Checked Status (Properties × Nat) := do
  let (propertiesLength, bytesRead) ← parseRemainingLength buf base length
  propertiesLoop buf base length (bytesRead + propertiesLength) propertiesLength {} bytesRead

end Properties

/-! ## Steps of the packet parsers -/

def fixedHeader : Checked Status (Nat × Nat) := do
  let window ← sub buf.length 1
  let (remainingLength, bytesRead) ←
    (parseRemainingLength buf 1 window).mapError fun _ => .packetInvalid
  .ok (remainingLength, 1 + bytesRead)

def stringFrom (pos stop : Nat) (error : Status → Status) : Checked Status (Str × Nat) := do
  let window ← sub stop pos
  let (value, bytesRead) ← (parseMqttString buf pos window).mapError error
  .ok (value, pos + bytesRead)

def propertiesFrom (pos stop : Nat) (error : Status → Status) :
    Checked Status (Properties × Nat) := do
  let window ← sub stop pos
  let (value, bytesRead) ← (parseProperties buf pos window).mapError error
  .ok (value, pos + bytesRead)

def optional {α : Type} (c : Bool) (pos : Nat) (absent : α) (field : Checked Status (α × Nat)) :
    Checked Status (α × Nat) :=
  if c then field else .ok (absent, pos)

/-- `is_legacy_protocol_hint`. -/
def isLegacy (hint : UInt8) : Bool := hint < 5

def keepProtocol (e : Status) : Status := if e = .protocol then .protocol else .packetInvalid

def reasonAndProperties (pos payloadEnd : Nat) : Checked Status (UInt8 × Properties) :=
  if pos < payloadEnd then do
    let reasonCode ← read buf pos
    if pos + 1 < payloadEnd then do
      let (properties, _) ← propertiesFrom buf (pos + 1) payloadEnd id
      .ok (reasonCode, properties)
    else .ok (reasonCode, {})
  else .ok (0x00, {})

def reasonCodesLoop (buf : Str) (payloadEnd : Nat) : Nat → Nat → List UInt8 → Checked Status
    (List UInt8)
  | 0, _, codes => .ok codes
  | rounds + 1, pos, codes =>
    if pos < payloadEnd then do
      let code ← read buf pos
      reasonCodesLoop buf payloadEnd rounds (pos + 1) (codes ++ [code])
    else .ok codes

/-! ## Packets from clients -/

/-- `begin_packet` and the first write to the packet: without memory a parser that looks at the
pointer returns a status, and any other writes the type of the packet to a null pointer. -/
def beginPacket (memory checksPointer : Bool) : Checked Status Unit :=
  if memory then .ok () else if checksPointer then fail .memoryAlloc else nullWrite

@[simp] theorem beginPacket_memory (checksPointer : Bool) :
    beginPacket true checksPointer = .ok () := rfl

variable (memory : Bool) (buf : Str)

def connectFlagsOf (flags : UInt8) : ConnectFlags where
  cleanStart := flags &&& 0x02 != 0
  willFlag := flags &&& 0x04 != 0
  willQos := ((flags >>> 3) &&& 0x03).toNat
  willRetain := flags &&& 0x20 != 0
  passwordFlag := flags &&& 0x40 != 0
  usernameFlag := flags &&& 0x80 != 0

def parseConnect : Checked Status Packet := do
  refuse (buf.length < 10) .packetIncomplete
  beginPacket memory true
  let (_, pos) ← fixedHeader buf
  let (protocolName, pos) ← stringFrom buf pos buf.length fun _ => .packetInvalid
  refuse (pos + 1 > buf.length) .packetIncomplete
  let protocolVersion ← read buf pos
  refuse (pos + 2 > buf.length) .packetIncomplete
  let rawFlags ← read buf (pos + 1)
  let flags := connectFlagsOf rawFlags
  refuse (rawFlags &&& 0x01 ≠ 0) .packetInvalid
  refuse (pos + 4 > buf.length) .packetIncomplete
  let keepAlive ← read16 buf (pos + 2)
  let isV5 := protocolVersion == 5
  refuse (isV5 = false ∧ protocolVersion ≠ 3 ∧ protocolVersion ≠ 4) .connectProtocol
  let (properties, pos) ←
    optional isV5 (pos + 4) {} (propertiesFrom buf (pos + 4) buf.length keepProtocol)
  let (clientId, pos) ← stringFrom buf pos buf.length fun _ => .connectClientId
  let (willProperties, pos) ←
    optional (flags.willFlag && isV5) pos {}
      (propertiesFrom buf pos buf.length fun _ => .packetInvalid)
  let (willTopic, pos) ←
    optional flags.willFlag pos [] (stringFrom buf pos buf.length fun _ => .packetInvalid)
  let (willPayload, pos) ←
    optional flags.willFlag pos [] (stringFrom buf pos buf.length fun _ => .packetInvalid)
  let (username, pos) ←
    optional flags.usernameFlag pos [] (stringFrom buf pos buf.length fun _ => .packetInvalid)
  let (password, pos) ←
    optional flags.passwordFlag pos [] (stringFrom buf pos buf.length fun _ => .packetInvalid)
  refuse (pos > buf.length) .packetIncomplete
  .ok (.connect ⟨protocolName, protocolVersion, flags, keepAlive, clientId, willTopic,
    willPayload, username, password, properties, willProperties⟩)

/-- The QoS bits of a PUBLISH; the value 3 is taken as 2. -/
def publishQos (first : UInt8) : Nat := min ((first >>> 1) &&& 0x03).toNat 2

variable (hint : UInt8) (buf : Str)

def parsePublish : Checked Status Packet := do
  refuse (buf.length < 2) .packetIncomplete
  beginPacket memory true
  let first ← read buf 0
  let qos := publishQos first
  let (remainingLength, headerSize) ← fixedHeader buf
  let (topicName, pos) ← stringFrom buf headerSize buf.length fun _ => .publishTopic
  let (packetId, pos) ← optional (0 < qos) pos 0 (do
    refuse (pos + 2 > buf.length) .packetIncomplete
    let packetId ← read16 buf pos
    .ok (packetId, pos + 2))
  let (properties, pos) ←
    optional (!isLegacy hint) pos {} (propertiesFrom buf pos buf.length keepProtocol)
  let used ← sub pos headerSize
  let payloadLength ← sub remainingLength used
  let payload ← assign buf pos payloadLength
  .ok (.publish ⟨first &&& 0x08 != 0, qos, first &&& 0x01 != 0, topicName, packetId, properties,
    payload⟩)

def decodeSubscriptionOptions (raw : UInt8) (legacy : Bool) : Option SubscriptionOptions :=
  if (if legacy then raw &&& 0xFC ≠ 0 else raw &&& 0xC0 ≠ 0 ∨ (raw >>> 4) &&& 0x03 = 3) then none
  else some
    { qos := (raw &&& 0x03).toNat
      noLocal := !legacy && raw &&& 0x04 != 0
      retainAsPublished := !legacy && raw &&& 0x08 != 0
      retainHandling := if legacy then 0 else ((raw >>> 4) &&& 0x03).toNat }

/-- The loop over the subscriptions of a SUBSCRIBE; every round takes a byte at least. -/
def subscriptionsLoop (buf : Str) (legacy : Bool) (payloadEnd : Nat) :
    Nat → Nat → List (Str × SubscriptionOptions) → Checked Status (List (Str × SubscriptionOptions))
  | 0, _, subscriptions => .ok subscriptions
  | rounds + 1, pos, subscriptions =>
    if pos < payloadEnd then do
      let (topicFilter, pos) ← stringFrom buf pos payloadEnd fun _ => .subscribeTopic
      refuse (pos + 1 > payloadEnd) .packetIncomplete
      let raw ← read buf pos
      match decodeSubscriptionOptions raw legacy with
      | none => fail .packetInvalid
      | some options =>
        subscriptionsLoop buf legacy payloadEnd rounds (pos + 1)
          (subscriptions ++ [(topicFilter, options)])
    else .ok subscriptions

def topicFiltersLoop (buf : Str) (payloadEnd : Nat) : Nat → Nat → List Str → Checked Status
    (List Str)
  | 0, _, topicFilters => .ok topicFilters
  | rounds + 1, pos, topicFilters =>
    if pos < payloadEnd then do
      let (topicFilter, pos) ← stringFrom buf pos payloadEnd fun _ => .packetInvalid
      topicFiltersLoop buf payloadEnd rounds pos (topicFilters ++ [topicFilter])
    else .ok topicFilters

/-- The packet identifier and the properties at the start of SUBSCRIBE and UNSUBSCRIBE, with
the end of the packet and the position after them. -/
def filterHeader : Checked Status ((Nat × Properties × Nat) × Nat) := do
  refuse (buf.length < 5) .packetIncomplete
  beginPacket memory true
  let (remainingLength, headerSize) ← fixedHeader buf
  let payloadEnd := headerSize + remainingLength
  refuse (headerSize + 2 > buf.length) .packetIncomplete
  let packetId ← read16 buf headerSize
  let (properties, pos) ← optional (!isLegacy hint) (headerSize + 2) {}
    (propertiesFrom buf (headerSize + 2) payloadEnd fun _ => .packetInvalid)
  .ok ((packetId, properties, payloadEnd), pos)

def parseSubscribe : Checked Status Packet := do
  let ((packetId, properties, payloadEnd), pos) ← filterHeader memory hint buf
  let subscriptions ←
    subscriptionsLoop buf (isLegacy hint) payloadEnd (payloadEnd - pos) pos []
  .ok (.subscribe ⟨packetId, properties, subscriptions⟩)

def parseUnsubscribe : Checked Status Packet := do
  let ((packetId, properties, payloadEnd), pos) ← filterHeader memory hint buf
  let topicFilters ← topicFiltersLoop buf payloadEnd (payloadEnd - pos) pos []
  .ok (.unsubscribe ⟨packetId, properties, topicFilters⟩)

/-! ## Acknowledgements -/

def parseAckStrict : Checked Status AckPacket := do
  refuse (buf.length < 4) .packetInvalid
  beginPacket memory false
  let (remainingLength, pos) ← fixedHeader buf
  let payloadEnd := pos + remainingLength
  refuse (payloadEnd > buf.length) .packetIncomplete
  refuse (pos + 2 > payloadEnd) .packetInvalid
  let packetId ← read16 buf pos
  if isLegacy hint then do
    refuse (remainingLength ≠ 2) .packetInvalid
    .ok ⟨packetId, 0x00, {}⟩
  else do
    let (reasonCode, properties) ← reasonAndProperties buf (pos + 2) payloadEnd
    .ok ⟨packetId, reasonCode, properties⟩

/-- PUBREL and PUBCOMP, which check the packet identifier against the buffer and not against
the packet. -/
def parseAckLoose : Checked Status AckPacket := do
  refuse (buf.length < 4) .packetInvalid
  beginPacket memory false
  let (remainingLength, pos) ← fixedHeader buf
  refuse (pos + remainingLength > buf.length) .packetIncomplete
  refuse (pos + 2 > buf.length) .packetIncomplete
  let packetId ← read16 buf pos
  if isLegacy hint then do
    refuse (remainingLength ≠ 2) .packetInvalid
    .ok ⟨packetId, 0x00, {}⟩
  else do
    let payloadEnd ← sub (pos + 2 + remainingLength) 2
    let (reasonCode, properties) ← reasonAndProperties buf (pos + 2) payloadEnd
    .ok ⟨packetId, reasonCode, properties⟩

def parsePuback : Checked Status Packet := do
  let p ← parseAckStrict memory hint buf
  .ok (.puback p)

def parsePubrec : Checked Status Packet := do
  let p ← parseAckStrict memory hint buf
  .ok (.pubrec p)

def parsePubrel : Checked Status Packet := do
  let p ← parseAckLoose memory hint buf
  .ok (.pubrel p)

def parsePubcomp : Checked Status Packet := do
  let p ← parseAckLoose memory hint buf
  .ok (.pubcomp p)

def parseConnack : Checked Status Packet := do
  refuse (buf.length < 4) .packetInvalid
  beginPacket memory false
  let (remainingLength, pos) ← fixedHeader buf
  refuse (pos + remainingLength > buf.length) .packetIncomplete
  refuse (pos + 2 > buf.length) .packetIncomplete
  let ackFlags ← read buf pos
  refuse (ackFlags &&& 0xFE ≠ 0) .packetInvalid
  let sessionPresent := ackFlags &&& 0x01 != 0
  let reasonCode ← read buf (pos + 1)
  if isLegacy hint then do
    refuse (remainingLength ≠ 2) .packetInvalid
    .ok (.connack ⟨sessionPresent, reasonCode, {}⟩)
  else do
    let propertiesLength ← sub remainingLength 2
    if 0 < propertiesLength then do
      let (properties, bytesRead) ← parseProperties buf (pos + 2) propertiesLength
      refuse (bytesRead ≠ propertiesLength) .packetInvalid
      .ok (.connack ⟨sessionPresent, reasonCode, properties⟩)
    else .ok (.connack ⟨sessionPresent, reasonCode, {}⟩)

def codesHeader (minimum : Nat) (buf : Str) : Checked Status ((Nat × Nat) × Nat) := do
  refuse (buf.length < minimum) .packetInvalid
  beginPacket memory false
  let (remainingLength, pos) ← fixedHeader buf
  refuse (pos + remainingLength > buf.length) .packetIncomplete
  refuse (pos + 2 > buf.length) .packetIncomplete
  let packetId ← read16 buf pos
  .ok ((packetId, remainingLength), pos + 2)

def codesBody (withProperties : Bool) (buf : Str) (packetId pos payloadEnd : Nat) :
    Checked Status CodesPacket := do
  let (properties, pos) ← optional (withProperties && decide (pos < payloadEnd)) pos {}
    (propertiesFrom buf pos payloadEnd id)
  let reasonCodes ← reasonCodesLoop buf payloadEnd (payloadEnd - pos) pos []
  refuse (reasonCodes = []) .packetInvalid
  .ok ⟨packetId, properties, reasonCodes⟩

def parseSuback : Checked Status Packet := do
  let ((packetId, remainingLength), pos) ← codesHeader memory 5 buf
  let payloadEnd ← sub (pos + remainingLength) 2
  let p ← codesBody (!isLegacy hint) buf packetId pos payloadEnd
  .ok (.suback p)

def parseUnsuback : Checked Status Packet := do
  let ((packetId, remainingLength), pos) ← codesHeader memory 4 buf
  if isLegacy hint then do
    refuse (remainingLength ≠ 2) .packetInvalid
    .ok (.unsuback ⟨packetId, {}, []⟩)
  else do
    let payloadEnd ← sub (pos + remainingLength) 2
    let p ← codesBody true buf packetId pos payloadEnd
    .ok (.unsuback p)

/-! ## The other packets -/

def parseDisconnect : Checked Status Packet := do
  refuse (buf.length < 2) .packetIncomplete
  beginPacket memory false
  let (remainingLength, pos) ← fixedHeader buf
  let payloadEnd := pos + remainingLength
  refuse (payloadEnd > buf.length) .packetIncomplete
  if isLegacy hint then do
    refuse (remainingLength ≠ 0) .packetInvalid
    .ok (.disconnect ⟨0x00, {}⟩)
  else if 0 < remainingLength then do
    refuse (pos ≥ payloadEnd) .packetIncomplete
    let reasonCode ← read buf pos
    if pos + 1 < payloadEnd then do
      let (properties, _) ← propertiesFrom buf (pos + 1) payloadEnd id
      .ok (.disconnect ⟨reasonCode, properties⟩)
    else .ok (.disconnect ⟨reasonCode, {}⟩)
  else .ok (.disconnect ⟨0x00, {}⟩)

def parseAuth : Checked Status Packet := do
  refuse (isLegacy hint) .packetType
  refuse (buf.length < 2) .packetIncomplete
  beginPacket memory true
  let (remainingLength, pos) ← fixedHeader buf
  let (reasonCode, properties) ← reasonAndProperties buf pos (pos + remainingLength)
  .ok (.auth ⟨reasonCode, properties⟩)

/-- PINGREQ and PINGRESP, which have no fields. -/
def parsePing (packet : Packet) : Checked Status Packet := do
  beginPacket memory false
  .ok packet

/-! ## Dispatch -/

def parseTyped : PacketType → Checked Status Packet
  | .connect => parseConnect memory buf
  | .connack => parseConnack memory hint buf
  | .publish => parsePublish memory hint buf
  | .puback => parsePuback memory hint buf
  | .pubrec => parsePubrec memory hint buf
  | .pubrel => parsePubrel memory hint buf
  | .pubcomp => parsePubcomp memory hint buf
  | .subscribe => parseSubscribe memory hint buf
  | .suback => parseSuback memory hint buf
  | .unsubscribe => parseUnsubscribe memory hint buf
  | .unsuback => parseUnsuback memory hint buf
  | .pingreq => parsePing memory .pingreq
  | .pingresp => parsePing memory .pingresp
  | .disconnect => parseDisconnect memory hint buf
  | .auth => parseAuth memory hint buf

/-- `dispatch_packet`, which `parse_packet` calls. -/
def dispatchPacket : Checked Status Packet := do
  refuse (buf.length < 2) .packetIncomplete
  let first ← read buf 0
  let (remainingLength, headerSize) ← fixedHeader buf
  refuse (buf.length < headerSize + remainingLength) .packetIncomplete
  match PacketType.ofByte first with
  | none => fail .packetType
  | some type =>
    refuse (type.flags.any fun flags => first &&& 0x0F != flags) .packetType
    parseTyped memory hint buf type

/-- `parse_packet` as long as the connection has memory. -/
def parsePacket (hint : UInt8) (buf : Str) : Checked Status Packet := dispatchPacket true hint buf

end Mqtts.Protocol
