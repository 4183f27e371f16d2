import Mqtts.Protocol.PropertyTrip

/-!
# The round trip of CONNECT

The parser's steps on the parts of a packet that the serializer has written, and the round trip of
the packet with its optional fields.
-/

namespace Mqtts.Protocol

open List Checked ConnectPacket Properties

variable {buf : Str} {pos stop : Nat}

/-! ## Parts of a packet -/

theorem refuse_of_not {c : Prop} [Decidable c] {e : Status} (h : ¬ c) : refuse c e = .ok () :=
  if_neg h

def textBytes (s : Str) : Str := put16 s.length ++ s

@[simp] theorem length_textBytes (s : Str) : (textBytes s).length = 2 + s.length := by
  rw [textBytes, length_append, length_put16]

variable {s : Str} {error : Status → Status} {p : Properties} {c : Bool}

theorem stringFrom_placed (hs : ValidText s) (h : Placed buf pos (textBytes s))
    (hstop : pos + (textBytes s).length ≤ stop) :
    stringFrom buf pos stop error = .ok (s, pos + (textBytes s).length) := by
  rw [length_textBytes] at hstop ⊢
  rw [stringFrom, sub_eq (by omega), ok_bind, parseMqttString_placed hs h (by omega)]
  rfl

theorem propertiesFrom_placed (hshaped : AllShaped p.listed)
    (hfits : (blockBytes p).length ≤ 268435455) (h : Placed buf pos (blockBytes p))
    (hstop : pos + (blockBytes p).length ≤ stop) :
    propertiesFrom buf pos stop error =
      .ok (p.listed.foldl set {}, pos + (blockBytes p).length) := by
  have hlisted : (listedBytes p.listed).length ≤ 268435455 := by
    rw [blockBytes, length_append] at hfits
    omega
  rw [propertiesFrom, sub_eq (by omega), ok_bind,
    parseProperties_placed hshaped (aliasOnce_listed p) hlisted h (by omega)]
  rfl

def bytesIf (c : Bool) (bytes : Str) : Str := if c then bytes else []

/-- A string that may be missing. -/
theorem optional_text (hs : c → ValidText s) (h : Placed buf pos (bytesIf c (textBytes s)))
    (hstop : pos + (bytesIf c (textBytes s)).length ≤ stop) :
    optional c pos [] (stringFrom buf pos stop error) =
      .ok (if c then s else [], pos + (bytesIf c (textBytes s)).length) := by
  cases c with
  | false => rfl
  | true => exact stringFrom_placed (hs rfl) h hstop

/-- Properties that may be missing. -/
theorem optional_properties (hp : c → AllShaped p.listed)
    (h : Placed buf pos (bytesIf c (blockBytes p)))
    (hfits : (bytesIf c (blockBytes p)).length ≤ 268435455)
    (hstop : pos + (bytesIf c (blockBytes p)).length ≤ stop) :
    optional c pos {} (propertiesFrom buf pos stop error) =
      .ok (if c then p.listed.foldl set {} else {},
        pos + (bytesIf c (blockBytes p)).length) := by
  cases c with
  | false => rfl
  | true =>
    rw [bytesIf, if_pos rfl] at h hfits hstop ⊢
    exact propertiesFrom_placed (hp rfl) hfits h hstop

def headerLength (remainingLength : Nat) : Nat :=
  1 + (serializeRemainingLength remainingLength).length

theorem two_le_headerLength (n : Nat) : 2 ≤ headerLength n :=
  Nat.add_le_add_left (varint_pos 5 _ (by omega)) 1

theorem headerLength_eq_six (n : Nat) (h : 268435456 ≤ n) (h' : n ≤ 268435458) :
    headerLength n = 6 := by
  obtain rfl | rfl | rfl : n = 268435456 ∨ n = 268435457 ∨ n = 268435458 := by omega
  all_goals rfl

def whole (first : UInt8) (body : Str) : Str := framed first body.length body

section Whole

variable {first hint : UInt8} {body : Str}

theorem length_whole : (whole first body).length = headerLength body.length + body.length := by
  rw [whole, framed, length_append, length_cons, headerLength, Nat.add_comm 1]

variable (hfits : body.length ≤ 268435455)
include hfits

/-- The parser on the fixed header. -/
theorem whole_spec : fixedHeader (whole first body) = .ok (body.length, headerLength body.length) ∧
      (whole first body).length = headerLength body.length + body.length ∧
      2 ≤ headerLength body.length ∧ Placed (whole first body) (headerLength body.length) body := by
  have hlength : (whole first body).length = headerLength body.length + body.length := length_whole
  have hplaced : Placed (whole first body) 1 (serializeRemainingLength body.length) :=
    ⟨[first], body, rfl, rfl⟩
  refine ⟨?_, hlength, two_le_headerLength _, first :: serializeRemainingLength body.length, [],
    by rw [append_nil]; rfl, Nat.add_comm _ _⟩
  rw [headerLength] at hlength
  rw [fixedHeader, sub_eq (by omega), ok_bind, parseRemainingLength_placed hfits hplaced (by omega)]
  rfl

/-- What is left is the parser of the packet's type. -/
theorem parsePacket_whole {type : PacketType} (htype : PacketType.ofByte first = some type)
    (hflags : type.flags.any (fun flags => first &&& 0x0F != flags) = false) :
    parsePacket hint (whole first body) = parseTyped true hint (whole first body) type := by
  obtain ⟨hheader, hlength, htwo, -⟩ := @whole_spec first body hfits
  have hread : (Checked.read (whole first body) 0 : Checked Status UInt8) = .ok first := rfl
  simp only [parsePacket, dispatchPacket, refuse, hread, hheader, htype, hflags, ok_bind,
    if_neg (show ¬ (whole first body).length < 2 by omega),
    if_neg (show ¬ (whole first body).length < headerLength body.length + body.length by omega),
    if_neg Bool.false_ne_true]

end Whole

/-! ## What the serializer accepts -/

def AllWritten (listed : List (PropertyType × PropertyValue)) : Prop :=
  ∀ e ∈ listed, ∃ bytes, e.2.serialize = .ok bytes

theorem allWritten_append {as bs : List (PropertyType × PropertyValue)} :
    AllWritten (as ++ bs) ↔ AllWritten as ∧ AllWritten bs := forall_mem_append

theorem allWritten_of_serializeListed : ∀ {listed : List (PropertyType × PropertyValue)}
    {bytes : Str}, serializeListed listed = .ok bytes → AllWritten listed
  | [], _, _ => fun e he => absurd he not_mem_nil
  | (type, value) :: rest, bytes, h => by
    obtain ⟨b, hvalue, h⟩ := exists_of_bind_eq_ok h
    obtain ⟨r, hrest, -⟩ := exists_of_bind_eq_ok h
    exact forall_mem_cons.2 ⟨⟨b, hvalue⟩, allWritten_of_serializeListed hrest⟩

theorem validText_of_written {type : PropertyType}
    (h : AllWritten (listIf (s ≠ []) type (.text s))) : ValidText s := by
  by_cases hs : s = []
  · subst hs
    decide
  · obtain ⟨bytes, hbytes⟩ :=
      h (type, .text s) (by rw [listIf, if_pos hs]; exact mem_cons_self)
    exact (serializeMqttString_eq_ok hbytes).1

theorem length_le_of_written {type : PropertyType}
    (h : AllWritten (listIf (s ≠ []) type (.binary s))) : s.length ≤ 65535 := by
  by_cases hs : s = []
  · subst hs
    decide
  · obtain ⟨bytes, hbytes⟩ :=
      h (type, .binary s) (by rw [listIf, if_pos hs]; exact mem_cons_self)
    by_contra hlong
    rw [PropertyValue.serialize, serializeMqttBinaryData, refuse, if_pos (by omega)] at hbytes
    cases hbytes

theorem acceptable_of_serializeProperties {bytes : Str} (h : serializeProperties p = .ok bytes) :
    p.Acceptable := by
  obtain ⟨body, hbody, -⟩ := exists_of_bind_eq_ok h
  have hwritten : AllWritten p.listed := allWritten_of_serializeListed hbody
  delta listed at hwritten
  simp only [allWritten_append, and_assoc] at hwritten
  obtain ⟨-, -, hcontent, hresponse, hcorrelation, -, -, hassigned, -, hmethod, hdata, -, -, -,
    hinformation, hserver, hreason, -, -, -, -, -, huser, -⟩ := hwritten
  have hpair : ∀ s ∈ p.userProperties.flatMap fun e => [e.1, e.2], ValidText s := by
    intro s hs
    obtain ⟨e, he, hs⟩ := mem_flatMap.1 hs
    obtain ⟨b, hb⟩ := huser _ (mem_map.2 ⟨e, he, rfl⟩)
    obtain ⟨key, hkey, hb⟩ := exists_of_bind_eq_ok hb
    obtain ⟨value, hvalue, -⟩ := exists_of_bind_eq_ok hb
    rcases mem_cons.1 hs with rfl | hs
    · exact (serializeMqttString_eq_ok hkey).1
    · rw [mem_singleton.1 hs]
      exact (serializeMqttString_eq_ok hvalue).1
  refine ⟨?_, length_le_of_written hcorrelation, length_le_of_written hdata⟩
  simp only [texts, cons_append, nil_append, forall_mem_cons]
  exact ⟨validText_of_written hcontent, validText_of_written hresponse,
    validText_of_written hassigned, validText_of_written hmethod,
    validText_of_written hinformation, validText_of_written hserver,
    validText_of_written hreason, hpair⟩

theorem serializeIf_text {bytes : Str} (h : serializeIf c (serializeMqttString s) = .ok bytes) :
    (c → ValidText s) ∧ bytes = bytesIf c (textBytes s) := by
  cases c with
  | false =>
    cases h
    exact ⟨fun hc => absurd hc Bool.false_ne_true, rfl⟩
  | true => exact ⟨fun _ => (serializeMqttString_eq_ok h).1, (serializeMqttString_eq_ok h).2⟩

theorem serializeIf_properties {bytes : Str} (htyped : p.Typed)
    (h : serializeIf c (serializeProperties p) = .ok bytes) :
    (c → AllShaped p.listed) ∧ bytes = bytesIf c (blockBytes p) := by
  cases c with
  | false =>
    cases h
    exact ⟨fun hc => absurd hc Bool.false_ne_true, rfl⟩
  | true =>
    have hacceptable := acceptable_of_serializeProperties h
    have hblock := (serializeProperties_eq htyped hacceptable).symm.trans h
    exact ⟨fun _ => allShaped_listed htyped hacceptable, (Except.ok.inj hblock).symm⟩

/-! ## CONNECT -/

namespace ConnectPacket

structure Typed (p : ConnectPacket) : Prop where
  willQos : p.flags.willQos < 4
  keepAlive : p.keepAlive < 65536
  properties : p.properties.Typed
  willProperties : p.willProperties.Typed

def isV5 (p : ConnectPacket) : Bool := p.protocolVersion == 5

structure Writable (p : ConnectPacket) : Prop where
  protocolName : ValidText p.protocolName
  clientId : ValidText p.clientId
  willTopic : p.flags.willFlag → ValidText p.willTopic
  willPayload : p.flags.willFlag → ValidText p.willPayload
  username : p.flags.usernameFlag → ValidText p.username
  password : p.flags.passwordFlag → ValidText p.password
  properties : p.isV5 → AllShaped p.properties.listed
  willProperties : (p.flags.willFlag && p.isV5) → AllShaped p.willProperties.listed

def bytes (p : ConnectPacket) : Str :=
  textBytes p.protocolName ++ ([p.protocolVersion, p.flags.toByte] ++ put16 p.keepAlive) ++
    bytesIf p.isV5 (blockBytes p.properties) ++ textBytes p.clientId ++
    bytesIf (p.flags.willFlag && p.isV5) (blockBytes p.willProperties) ++
    bytesIf p.flags.willFlag (textBytes p.willTopic) ++
    bytesIf p.flags.willFlag (textBytes p.willPayload) ++
    bytesIf p.flags.usernameFlag (textBytes p.username) ++
    bytesIf p.flags.passwordFlag (textBytes p.password)

def carried (p : ConnectPacket) : ConnectPacket :=
  { p with
    willTopic := if p.flags.willFlag then p.willTopic else []
    willPayload := if p.flags.willFlag then p.willPayload else []
    username := if p.flags.usernameFlag then p.username else []
    password := if p.flags.passwordFlag then p.password else []
    properties := if p.isV5 then p.properties.listed.foldl set {} else {}
    willProperties := if p.flags.willFlag && p.isV5 then
      p.willProperties.listed.foldl set {} else {} }

end ConnectPacket

theorem isLegacy_connect {version : UInt8} (h : version = 3 ∨ version = 4 ∨ version = 5) :
    (!(version == 3 || version == 4)) = (version == 5) := by
  rcases h with rfl | rfl | rfl <;> rfl

/-- The bytes of the packets that `serialize_connect` accepts. -/
theorem serializeConnect_eq_ok {p : ConnectPacket} {bytes : Str}
    (hversion : p.protocolVersion = 3 ∨ p.protocolVersion = 4 ∨ p.protocolVersion = 5)
    (htyped : p.Typed) (h : serializeConnect p = .ok bytes) :
    p.Writable ∧ bytes = whole 0x10 p.bytes := by
  rw [serializeConnect, isLegacy_connect hversion] at h
  obtain ⟨willProperties, hwillProperties, h⟩ := exists_of_bind_eq_ok h
  obtain ⟨properties, hproperties, h⟩ := exists_of_bind_eq_ok h
  obtain ⟨protocolName, hprotocolName, h⟩ := exists_of_bind_eq_ok h
  obtain ⟨clientId, hclientId, h⟩ := exists_of_bind_eq_ok h
  obtain ⟨willTopic, hwillTopic, h⟩ := exists_of_bind_eq_ok h
  obtain ⟨willPayload, hwillPayload, h⟩ := exists_of_bind_eq_ok h
  obtain ⟨username, husername, h⟩ := exists_of_bind_eq_ok h
  obtain ⟨password, hpassword, h⟩ := exists_of_bind_eq_ok h
  obtain ⟨hwill, rfl⟩ := serializeIf_properties htyped.willProperties hwillProperties
  obtain ⟨hblock, rfl⟩ := serializeIf_properties htyped.properties hproperties
  obtain ⟨hname, rfl⟩ := serializeMqttString_eq_ok hprotocolName
  obtain ⟨hid, rfl⟩ := serializeMqttString_eq_ok hclientId
  obtain ⟨htopic, rfl⟩ := serializeIf_text hwillTopic
  obtain ⟨hpayload, rfl⟩ := serializeIf_text hwillPayload
  obtain ⟨huser, rfl⟩ := serializeIf_text husername
  obtain ⟨hpass, rfl⟩ := serializeIf_text hpassword
  refine ⟨⟨hname, hid, htopic, hpayload, huser, hpass, hblock, hwill⟩, ?_⟩
  rw [← Except.ok.inj h]
  refine congrArg₂ (framed 0x10) ?_ (by simp [ConnectPacket.bytes, ConnectPacket.isV5, textBytes])
  simp only [ConnectPacket.bytes, length_append, length_textBytes, length_put16,
    length_cons, length_nil]
  cases p.flags.willFlag <;> cases p.flags.usernameFlag <;> cases p.flags.passwordFlag <;>
    simp [sizeIf, bytesIf, isV5] <;> omega

theorem connectFlagsOf_toByte {f : ConnectFlags} (h : f.willQos < 4) :
    connectFlagsOf f.toByte = f ∧ f.toByte &&& 0x01 = 0 := by
  have hall : ∀ (clean will : Bool) (qos : Fin 4) (retain password username : Bool),
      connectFlagsOf (ConnectFlags.toByte ⟨clean, will, qos, retain, password, username⟩) =
        ⟨clean, will, qos, retain, password, username⟩ ∧
      ConnectFlags.toByte ⟨clean, will, qos, retain, password, username⟩ &&& 0x01 = 0 := by
    decide +kernel
  exact hall f.cleanStart f.willFlag ⟨f.willQos, h⟩ f.willRetain f.passwordFlag f.usernameFlag

theorem parseConnect_bytes {p : ConnectPacket}
    (hversion : p.protocolVersion = 3 ∨ p.protocolVersion = 4 ∨ p.protocolVersion = 5)
    (htyped : p.Typed) (h : p.Writable) (hfits : p.bytes.length ≤ 268435455) :
    parseConnect true (whole 0x10 p.bytes) = .ok (.connect p.carried) := by
  obtain ⟨hheader, hlength, htwo, hplaced⟩ := @whole_spec 0x10 p.bytes hfits
  generalize whole 0x10 p.bytes = buf at hlength hplaced hheader ⊢
  generalize hn : p.bytes.length = n at *
  have hfour : ∀ m, m + 2 + 2 = m + 4 := fun _ => rfl
  rw [bytes] at hn hplaced
  simp only [append_assoc, placed_append, length_append, length_cons,
    length_nil, length_put16, Nat.reduceAdd, hfour] at hn hplaced
  obtain ⟨hname, hfixed, hkeep, hblock, hid, hwill, htopic, hpayload, huser, hpass⟩ := hplaced
  obtain ⟨hversionByte, hflags⟩ := placed_cons.1 hfixed
  obtain ⟨hflagsOf, hreserved⟩ := connectFlagsOf_toByte htyped.willQos
  have hnameLength := length_textBytes p.protocolName
  have hidLength := length_textBytes p.clientId
  have hv5 : (p.protocolVersion == 5) = p.isV5 := rfl
  have hsupported : ¬ ((p.protocolVersion == 5) = false ∧ p.protocolVersion ≠ 3 ∧
      p.protocolVersion ≠ 4) := by
    rcases hversion with hv | hv | hv <;> simp [hv]
  rw [parseConnect, refuse_of_not (by omega)]
  simp only [ok_bind, hheader]
  rw [stringFrom_placed h.protocolName hname (by omega)]
  simp only [ok_bind]
  rw [refuse_of_not (by omega), ok_bind, hversionByte.read, ok_bind, refuse_of_not (by omega),
    ok_bind, hflags.read, ok_bind, refuse_of_not (not_not.2 hreserved), ok_bind,
    refuse_of_not (by omega), ok_bind, hkeep.read16 htyped.keepAlive, ok_bind,
    refuse_of_not hsupported, ok_bind, hflagsOf, hv5,
    optional_properties h.properties hblock (by omega) (by omega)]
  simp only [ok_bind]
  rw [stringFrom_placed h.clientId hid (by omega)]
  simp only [ok_bind]
  rw [optional_properties h.willProperties hwill (by omega) (by omega)]
  simp only [ok_bind]
  rw [optional_text h.willTopic htopic (by omega)]
  simp only [ok_bind]
  rw [optional_text h.willPayload hpayload (by omega)]
  simp only [ok_bind]
  rw [optional_text h.username huser (by omega)]
  simp only [ok_bind]
  rw [optional_text h.password hpass (by omega)]
  simp only [ok_bind]
  rw [refuse_of_not (by omega)]
  rfl

/-- The parser reads what the flags say is there. -/
theorem connect_round_trip (hint : UInt8) {p : ConnectPacket} {bytes : Str}
    (hversion : p.protocolVersion = 3 ∨ p.protocolVersion = 4 ∨ p.protocolVersion = 5)
    (htyped : p.Typed) (h : serializeConnect p = .ok bytes) (hfits : bytes.length ≤ 268435460) :
    ∃ q, parsePacket hint bytes = .ok (.connect q) ∧
      q.protocolVersion = p.protocolVersion ∧ q.flags = p.flags ∧ q.keepAlive = p.keepAlive ∧
      q.clientId = p.clientId ∧
      (p.flags.willFlag → q.willTopic = p.willTopic ∧ q.willPayload = p.willPayload) ∧
      (p.flags.usernameFlag → q.username = p.username) ∧
      (p.flags.passwordFlag → q.password = p.password) := by
  obtain ⟨hwritable, rfl⟩ := serializeConnect_eq_ok hversion htyped h
  have hlength : p.bytes.length ≤ 268435455 := by
    have hwhole : (whole 0x10 p.bytes).length = _ := length_whole
    by_contra hlong
    have htwo := two_le_headerLength p.bytes.length
    have hsix := headerLength_eq_six p.bytes.length (by omega) (by omega)
    omega
  refine ⟨p.carried, ?_, rfl, rfl, rfl, rfl, fun hf => ⟨if_pos hf, if_pos hf⟩,
    fun hf => if_pos hf, fun hf => if_pos hf⟩
  rw [parsePacket_whole hlength rfl rfl]
  exact parseConnect_bytes hversion htyped hwritable hlength

def sampleConnect (version : UInt8) : ConnectPacket where
  protocolName := []
  protocolVersion := version
  flags := ⟨true, true, 1, false, true, false⟩
  keepAlive := 60
  clientId := [0x61]
  willTopic := [0x62]
  willPayload := []
  username := [0x63]
  password := [0x64]
  properties := {}
  willProperties := {}

theorem sampleConnect_round_trip : ∃ q,
    parsePacket 4 [0x10, 19, 0, 0, 5, 0x4E, 0, 60, 0, 0, 1, 0x61, 0, 0, 1, 0x62, 0, 0, 0, 1, 0x64] =
      .ok (.connect q) ∧ q.willTopic = [0x62] ∧ q.password = [0x64] := by
  obtain ⟨q, hq, -, -, -, -, hwill, -, hpassword⟩ := connect_round_trip 4
    (.inr (.inr rfl) : (sampleConnect 5).protocolVersion = 3 ∨ _)
    ⟨by decide, by decide, by constructor <;> decide, by constructor <;> decide⟩ rfl (by decide)
  exact ⟨q, hq, (hwill rfl).1, hpassword rfl⟩

/-- A user name without its flag is not sent; a password that is not a string is refused; the
length of the packet is not checked. -/
theorem connect_not_round_trip : (serializeConnect (sampleConnect 4) =
      .ok [0x10, 17, 0, 0, 4, 0x4E, 0, 60, 0, 1, 0x61, 0, 1, 0x62, 0, 0, 0, 1, 0x64] ∧
      parsePacket 4 [0x10, 17, 0, 0, 4, 0x4E, 0, 60, 0, 1, 0x61, 0, 1, 0x62, 0, 0, 0, 1, 0x64] =
        .ok (.connect { sampleConnect 4 with username := [] })) ∧
    serializeConnect { sampleConnect 4 with password := [0xFF] } = fail .packetInvalid ∧
    ∃ bytes, serializeConnect { sampleConnect 5 with
        properties := { userProperties := .replicate 53687092 ([], []) } } = .ok bytes ∧
      parsePacket 5 bytes = fail .packetInvalid := by
  obtain ⟨body, hbody, hlength⟩ := serialize_replicate_userProperties
  refine ⟨by decide +kernel, rfl, ?_⟩
  have hserialize : ∃ tail, serializeConnect { sampleConnect 5 with
        properties := { userProperties := .replicate 53687092 ([], []) } } =
      .ok (framed 0x10 268435483 tail) := by
    have hwill : serializeProperties (sampleConnect 5).willProperties = .ok [0x00] := rfl
    have hname : serializeMqttString (sampleConnect 5).protocolName = .ok [0, 0] := rfl
    have hid : serializeMqttString (sampleConnect 5).clientId = .ok [0, 1, 0x61] := rfl
    have htopic : serializeMqttString (sampleConnect 5).willTopic = .ok [0, 1, 0x62] := rfl
    have hpayload : serializeMqttString (sampleConnect 5).willPayload = .ok [0, 0] := rfl
    have hpassword : serializeMqttString (sampleConnect 5).password = .ok [0, 1, 0x64] := rfl
    simp only [serializeConnect, serializeIf, hbody, hwill, hname, hid, htopic, hpayload, hpassword]
    refine ⟨_, congrArg Except.ok (congrArg₂ (framed 0x10) ?_ rfl)⟩
    simp [sampleConnect, sizeIf, hlength]
  obtain ⟨tail, htail⟩ := hserialize
  exact ⟨_, htail, rfl⟩

end Mqtts.Protocol
