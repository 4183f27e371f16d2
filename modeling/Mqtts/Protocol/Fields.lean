import Mqtts.Protocol.PropertyScan
import Mqtts.Protocol.Serializer
import Mathlib.Data.Nat.Digits.Defs

/-!
# What is written is read back

The parser's functions for the fields of a packet on the bytes that the serializer writes, at any
position of a buffer. A subscription identifier is written with its least significant digit first
and read with its most significant digit first.
-/

namespace Mqtts.Protocol

open List Checked Nat

variable {buf : Str} {pos : Nat}

/-! ## Strings -/

section Text

variable {ε : Type} {s : Str} (h : Placed buf pos s)
include h

theorem utf8Continuation_placed : ∀ n i bits, i + n ≤ s.length →
    (utf8Continuation buf n (pos + i) bits : Checked ε (Option Nat)) = utf8Continuation s n i bits
  | 0, _, _, _ => rfl
  | n + 1, i, bits, hi => by
    have hread : (Checked.read buf (pos + i) : Checked ε UInt8) = Checked.read s i :=
      h.read_eq (by omega)
    rw [utf8Continuation, utf8Continuation, hread, add_assoc]
    simp only [utf8Continuation_placed n (i + 1) _ (by omega)]

theorem validUtf8Loop_placed {stop} (hstop : stop ≤ s.length) : ∀ rounds i,
    (validUtf8Loop buf (pos + stop) rounds (pos + i) : Checked ε Bool) = validUtf8Loop s stop
    rounds i
  | 0, _ => rfl
  | rounds + 1, i => by
    rw [validUtf8Loop, validUtf8Loop]
    by_cases hi : i < stop
    · rw [if_pos (by omega), if_pos hi, h.read_eq (by omega)]
      cases Checked.read (ε := ε) s i with
      | error e => rfl
      | ok byte =>
        rw [ok_bind, ok_bind, add_assoc, validUtf8Loop_placed hstop rounds (i + 1)]
        split
        · rfl
        · cases utf8Lead byte with
          | none => rfl
          | some lead =>
            obtain ⟨n, bits⟩ := lead
            dsimp only
            by_cases hn : i + 1 + n > stop
            · rw [if_pos hn, if_pos (by omega)]
            · have hnext := validUtf8Loop_placed hstop rounds (i + 1 + n)
              rw [← add_assoc] at hnext
              rw [if_neg hn, if_neg (by omega),
                utf8Continuation_placed h n (i + 1) bits (by omega), hnext]
    · rw [if_neg (by omega), if_neg hi]

theorem controlLoop_placed : ∀ left i, i + left ≤ s.length →
    (controlLoop buf left (pos + i) : Checked ε Bool) = controlLoop s left i
  | 0, _, _ => rfl
  | left + 1, i, hi => by
    rw [controlLoop, controlLoop, h.read_eq (by omega), add_assoc,
      controlLoop_placed left (i + 1) (by omega)]
    cases left with
    | zero => simp only [lt_irrefl, and_false, if_false]
    | succ left => rw [h.read_eq (i := i + 1) (by omega)]

theorem validateMqttString_placed : (validateMqttString buf pos s.length : Checked ε StringStatus) =
      validateMqttString s 0 s.length := by
  have hutf8 : (isValidUtf8 buf pos s.length : Checked ε Bool) = isValidUtf8 s 0 s.length := by
    have hloop := validUtf8Loop_placed (ε := ε) h le_rfl s.length 0
    rw [add_zero] at hloop
    rw [isValidUtf8, isValidUtf8, zero_add, hloop]
  have hcontrol := controlLoop_placed (ε := ε) h s.length 0 (by omega)
  rw [add_zero] at hcontrol
  rw [validateMqttString, validateMqttString, hutf8, hasControlCharacters, hasControlCharacters,
    hcontrol]

end Text

/-- A string that `validate_mqtt_string` accepts. -/
def ValidText (s : Str) : Prop := acceptsText s 0 s.length

instance instDecidableValidText (s : Str) : Decidable (ValidText s) :=
  inferInstanceAs (Decidable (_ = true))

variable {s : Str} {length base : Nat}

theorem validText_iff : ValidText s ↔
    (validateMqttString s 0 s.length : Checked StringStatus StringStatus) = .ok .success := by
  simp [ValidText, acceptsText]

theorem ValidText.length_le (h : ValidText s) : s.length ≤ 65535 := by
  rw [validText_iff, validateMqttString] at h
  split at h
  · cases h
  · omega

theorem serializeMqttString_of_valid (h : ValidText s) :
    serializeMqttString s = .ok (put16 s.length ++ s) := by
  rw [serializeMqttString, refuse, if_neg (by have := h.length_le; omega), validText_iff.1 h]
  rfl

theorem serializeMqttString_eq_ok {bytes} (h : serializeMqttString s = .ok bytes) :
    ValidText s ∧ bytes = put16 s.length ++ s := by
  rw [serializeMqttString] at h
  obtain ⟨-, -, h⟩ := exists_of_bind_eq_ok h
  obtain ⟨status, hstatus, h⟩ := exists_of_bind_eq_ok h
  by_cases hs : status = .success
  · subst hs
    rw [if_neg (by simp)] at h
    refine ⟨validText_iff.2 ?_, (Except.ok.inj h).symm⟩
    cases hv : (validateMqttString s 0 s.length : Checked StringStatus StringStatus) with
    | error e =>
      rw [hv] at hstatus
      cases e <;> cases hstatus
    | ok a =>
      rw [hv] at hstatus
      rw [Except.ok.inj hstatus]
  · rw [if_pos hs] at h
    cases h

/-- A string is read back, -/
theorem parseMqttString_placed (hs : ValidText s) (h : Placed buf pos (put16 s.length ++ s))
    (hlength : 2 + s.length ≤ length) : parseMqttString buf pos length = .ok (s, 2 + s.length) := by
  obtain ⟨hsize, hbody⟩ := placed_append.1 h
  rw [length_put16] at hbody
  have hvalid := (validateMqttString_placed hbody).trans (validText_iff.1 hs)
  rw [parseMqttString, parseString, if_neg (by omega),
    hsize.read16 (by have := hs.length_le; omega), ok_bind, if_neg (by omega), hvalid, ok_bind,
    if_neg (by simp), hbody.assign, ok_bind]
  rfl

theorem parseBinary_placed {data : Str} (hdata : data.length ≤ 65535)
    (h : Placed buf pos (put16 data.length ++ data)) (hlength : 2 + data.length ≤ length) :
    parseBinary buf pos length = .ok (data, 2 + data.length) := by
  obtain ⟨hsize, hbody⟩ := placed_append.1 h
  rw [length_put16] at hbody
  rw [parseBinary, parseBinaryData, if_neg (by omega), hsize.read16 (by omega), ok_bind,
    if_neg (by omega), hbody.assign, ok_bind]
  rfl

/-! ## Lengths -/

theorem remainingLengthLoop_placed :
    ∀ left digits n bytesRead value multiplier, 0 < left → left ≤ digits → n < 128 ^ left →
      multiplier * 128 ^ left ≤ 128 ^ 4 → Placed buf (base + bytesRead) (varint digits n) →
      bytesRead + (varint digits n).length ≤ length →
      remainingLengthLoop buf base length left bytesRead value multiplier =
        .ok (value + n * multiplier, bytesRead + (varint digits n).length)
  | 0, _, _, _, _, _, hleft, _, _, _, _, _ => absurd hleft (lt_irrefl 0)
  | _ + 1, 0, _, _, _, _, _, hle, _, _, _, _ => absurd hle (not_succ_le_zero _)
  | left + 1, digits + 1, n, bytesRead, value, multiplier, _, hle, hn, hmul, h, hlength => by
    obtain ⟨⟨hlast, hstop⟩, hmore, hgo⟩ := varint_bytes (n % 128) (mod_lt n (by omega))
    have hsmall : ¬ multiplier > 128 * 128 * 128 := by
      rw [Nat.pow_succ] at hmul
      have : 0 < 128 ^ left := Nat.pow_pos (by omega)
      nlinarith
    rw [varint] at h hlength ⊢
    split at h
    · next hzero =>
        rw [if_pos hzero] at hlength ⊢
        rw [length_singleton] at hlength
        rw [remainingLengthLoop, if_neg (by omega), h.read, ok_bind, if_neg hsmall, if_pos hstop,
          hlast, mod_eq_of_lt (by omega), length_singleton]
    · next hzero =>
        rw [if_neg hzero] at hlength ⊢
        rw [length_cons] at hlength ⊢
        obtain ⟨hfirst, hrest⟩ := placed_cons.1 h
        have hleft : 0 < left := by
          by_contra hnot
          obtain rfl : left = 0 := by omega
          omega
        have hn' : n / 128 < 128 ^ left := Nat.div_lt_of_lt_mul (by rw [← Nat.pow_succ']; exact hn)
        rw [remainingLengthLoop, if_neg (by omega), hfirst.read, ok_bind, if_neg hsmall, if_neg hgo,
          hmore, remainingLengthLoop_placed left digits (n / 128) (bytesRead + 1) _ _ hleft
            (by omega) hn' (by rw [Nat.mul_assoc, ← Nat.pow_succ']; exact hmul) hrest (by omega)]
        have hvalue : value + n % 128 * multiplier + n / 128 * (multiplier * 128) =
            value + n * multiplier := by
          conv_rhs => rw [← mod_add_div n 128]
          ring
        rw [hvalue]
        congr 2
        omega

/-- so is a length, -/
theorem parseRemainingLength_placed {n} (hn : n ≤ 268435455)
    (h : Placed buf base (serializeRemainingLength n))
    (hlength : (serializeRemainingLength n).length ≤ length) :
    parseRemainingLength buf base length = .ok (n, (serializeRemainingLength n).length) := by
  have hmod : n % 2 ^ 32 = n := mod_eq_of_lt (by omega)
  rw [serializeRemainingLength, hmod] at h hlength ⊢
  have hloop := remainingLengthLoop_placed 4 5 n 0 0 1 (by omega) (by omega) (by omega) (by omega)
      (by simpa using h) (by simpa using hlength)
  simpa [parseRemainingLength] using hloop

/-! ## Properties -/

/-- The number that the parser makes of a subscription identifier. -/
def readBack (bytes : Str) : Nat :=
  bytes.foldl (fun value byte => (value * 128) % 2 ^ 32 + (byte &&& 0x7F).toNat) 0

theorem subscriptionIdentifierLoop_placed :
    ∀ digits n rounds bytesRead value, 0 < digits → n < 128 ^ digits →
      (varint digits n).length ≤ rounds → Placed buf (base + bytesRead) (varint digits n) →
      subscriptionIdentifierLoop buf base rounds bytesRead value = .ok ((varint digits n).foldl
          (fun value byte => (value * 128) % 2 ^ 32 + (byte &&& 0x7F).toNat) value,
          bytesRead + (varint digits n).length)
  | 0, _, _, _, _, hdigits, _, _, _ => absurd hdigits (lt_irrefl 0)
  | digits + 1, n, 0, _, _, hdigits, _, hrounds, _ => by
    have := varint_pos (digits + 1) n hdigits
    omega
  | digits + 1, n, rounds + 1, bytesRead, value, _, hn, hrounds, h => by
    obtain ⟨⟨-, hstop⟩, -, hgo⟩ := varint_bytes (n % 128) (mod_lt n (by omega))
    rw [varint] at h hrounds ⊢
    split at h
    · next hzero =>
        rw [if_pos hzero, subscriptionIdentifierLoop, h.read, ok_bind, if_pos hstop]
        rfl
    · next hzero =>
        rw [if_neg hzero] at hrounds ⊢
        obtain ⟨hfirst, hrest⟩ := placed_cons.1 h
        rw [length_cons] at hrounds ⊢
        have hdigits : 0 < digits := by
          by_contra hnot
          obtain rfl : digits = 0 := by omega
          omega
        have hn' : n / 128 < 128 ^ digits :=
          Nat.div_lt_of_lt_mul (by rw [← Nat.pow_succ']; exact hn)
        rw [subscriptionIdentifierLoop, hfirst.read, ok_bind, if_neg hgo,
          subscriptionIdentifierLoop_placed digits (n / 128) rounds (bytesRead + 1) _ hdigits hn'
            (by omega) hrest, foldl_cons, add_assoc, add_comm 1]

namespace PropertyValue

def Shaped : PropertyValue → Shape → Prop
  | .byte _, .fixed 1 => True
  | .short n, .fixed 2 => n < 65536
  | .long n, .fixed 4 => n < 4294967296
  | .varint n, .varint => n < 4294967296
  | .text s, .text => ValidText s
  | .binary data, .binary => data.length ≤ 65535
  | .pair key value, .textPair => ValidText key ∧ ValidText value
  | _, _ => False

def bytes : PropertyValue → Str
  | .byte b => [b]
  | .short n => put16 n
  | .long n => put32 n
  | .varint n => Checked.varint 5 n
  | .text s | .binary s => put16 s.length ++ s
  | .pair key value => (put16 key.length ++ key) ++ (put16 value.length ++ value)

theorem serialize_of_shaped {v : PropertyValue} {shape} (h : v.Shaped shape) :
    v.serialize = .ok v.bytes := by
  cases v with
  | byte | short | long | varint => rfl
  | text s => cases shape <;> first | exact h.elim | exact serializeMqttString_of_valid h
  | binary data =>
    cases shape <;> first | exact h.elim | skip
    have hdata : data.length ≤ 65535 := h
    rw [serialize, serializeMqttBinaryData, refuse, if_neg (by omega)]
    rfl
  | pair key value =>
    cases shape <;> first | exact h.elim | skip
    rw [serialize, serializeMqttString_of_valid h.1, serializeMqttString_of_valid h.2]
    rfl

def asByte : PropertyValue → UInt8
  | .byte b => b
  | _ => 0

def asNumber : PropertyValue → Nat
  | .short n | .long n | .varint n => n
  | _ => 0

def asText : PropertyValue → Str
  | .text s | .binary s => s
  | _ => []

def asPair : PropertyValue → Str × Str
  | .pair key value => (key, value)
  | _ => ([], [])

end PropertyValue

def Properties.set (p : Properties) (e : PropertyType × PropertyValue) : Properties :=
  match e.1 with
  | .payloadFormatIndicator => { p with payloadFormatIndicator := e.2.asByte }
  | .messageExpiryInterval =>
    { p with hasMessageExpiryInterval := true, messageExpiryInterval := e.2.asNumber }
  | .contentType => { p with contentType := e.2.asText }
  | .responseTopic => { p with responseTopic := e.2.asText }
  | .correlationData => { p with correlationData := e.2.asText }
  | .subscriptionIdentifier => { p with subscriptionIdentifier := readBack (varint 5 e.2.asNumber) }
  | .sessionExpiryInterval =>
    { p with hasSessionExpiryInterval := true, sessionExpiryInterval := e.2.asNumber }
  | .assignedClientIdentifier => { p with assignedClientIdentifier := e.2.asText }
  | .serverKeepAlive => { p with serverKeepAlive := e.2.asNumber }
  | .authenticationMethod => { p with authenticationMethod := e.2.asText }
  | .authenticationData => { p with authenticationData := e.2.asText }
  | .requestProblemInformation => { p with requestProblemInformation := e.2.asByte != 0 }
  | .willDelayInterval => { p with willDelayInterval := e.2.asNumber }
  | .requestResponseInformation => { p with requestResponseInformation := e.2.asByte != 0 }
  | .responseInformation => { p with responseInformation := e.2.asText }
  | .serverReference => { p with serverReference := e.2.asText }
  | .reasonString => { p with reasonString := e.2.asText }
  | .receiveMaximum => { p with hasReceiveMaximum := true, receiveMaximum := e.2.asNumber }
  | .topicAliasMaximum => { p with topicAliasMaximum := e.2.asNumber }
  | .topicAlias => { p with hasTopicAlias := true, topicAlias := e.2.asNumber }
  | .maximumQoS => { p with maximumQoS := e.2.asByte, hasMaximumQoS := true }
  | .retainAvailable => { p with retainAvailable := e.2.asByte != 0 }
  | .userProperty => { p with userProperties := p.userProperties ++ [e.2.asPair] }
  | .maximumPacketSize => { p with hasMaximumPacketSize := true, maximumPacketSize := e.2.asNumber }
  | .wildcardSubscriptionAvailable => { p with wildcardSubscriptionAvailable := e.2.asByte != 0 }
  | .subscriptionIdentifierAvailable =>
    { p with subscriptionIdentifierAvailable := e.2.asByte != 0 }
  | .sharedSubscriptionAvailable => { p with sharedSubscriptionAvailable := e.2.asByte != 0 }

section Values

variable {base length bytesRead : Nat} {v : PropertyValue}
  (h : Placed buf (base + bytesRead) v.bytes)
include h

theorem byteProperty_placed (hv : v.Shaped (.fixed 1)) (set : UInt8 → Properties) :
    byteProperty buf base bytesRead set = .ok (set v.asByte, bytesRead + v.bytes.length) := by
  cases v <;> first | exact hv.elim | skip
  rw [byteProperty, h.read]
  rfl

theorem shortProperty_placed (hv : v.Shaped (.fixed 2)) (set : Nat → Properties) :
    shortProperty buf base bytesRead set = .ok (set v.asNumber, bytesRead + v.bytes.length) := by
  cases v <;> first | exact hv.elim | skip
  rw [shortProperty, h.read16 hv]
  rfl

theorem longProperty_placed (hv : v.Shaped (.fixed 4)) (set : Nat → Properties) :
    longProperty buf base bytesRead set = .ok (set v.asNumber, bytesRead + v.bytes.length) := by
  cases v <;> first | exact hv.elim | skip
  rw [longProperty, h.read32 hv]
  rfl

variable (hlength : bytesRead + v.bytes.length ≤ length)
include hlength

theorem textProperty_placed (hv : v.Shaped .text) (set : Str → Properties) :
    textProperty buf base length bytesRead set =
      .ok (set v.asText, bytesRead + v.bytes.length) := by
  cases v <;> first | exact hv.elim | skip
  simp only [PropertyValue.bytes, length_append, length_put16] at hlength
  rw [textProperty, sub_eq (by omega), ok_bind, parseMqttString_placed hv h (by omega), ok_bind]
  simp [PropertyValue.bytes, PropertyValue.asText]

theorem binaryProperty_placed (hv : v.Shaped .binary) (set : Str → Properties) :
    binaryProperty buf base length bytesRead set =
      .ok (set v.asText, bytesRead + v.bytes.length) := by
  cases v <;> first | exact hv.elim | skip
  simp only [PropertyValue.bytes, length_append, length_put16] at hlength
  rw [binaryProperty, sub_eq (by omega), ok_bind, parseBinary_placed hv h (by omega), ok_bind]
  simp [PropertyValue.bytes, PropertyValue.asText]

theorem parseProperty_placed {p} {type : PropertyType} (hv : v.Shaped type.shape)
    (haliased : type = .topicAlias → p.hasTopicAlias = false) :
    parseProperty buf base length p bytesRead type =
      .ok (p.set (type, v), bytesRead + v.bytes.length) := by
  cases type with
  | payloadFormatIndicator | requestProblemInformation | requestResponseInformation | maximumQoS
  | retainAvailable | wildcardSubscriptionAvailable | subscriptionIdentifierAvailable
  | sharedSubscriptionAvailable => exact byteProperty_placed h hv _
  | serverKeepAlive | receiveMaximum | topicAliasMaximum => exact shortProperty_placed h hv _
  | topicAlias =>
    rw [parseProperty, haliased rfl, if_neg Bool.false_ne_true]
    exact shortProperty_placed h hv _
  | messageExpiryInterval | sessionExpiryInterval | willDelayInterval | maximumPacketSize =>
    exact longProperty_placed h hv _
  | contentType | responseTopic | assignedClientIdentifier | authenticationMethod
  | responseInformation | serverReference | reasonString =>
    rw [parseProperty, textProperty_placed h hlength hv]
    rfl
  | correlationData | authenticationData =>
    rw [parseProperty, binaryProperty_placed h hlength hv]
    rfl
  | subscriptionIdentifier =>
    cases v <;> first | exact hv.elim | skip
    next n =>
      have hn : n < 128 ^ 5 := lt_trans (lt_of_lt_of_eq hv rfl) (by decide)
      have hle := h.le
      rw [parseProperty, subscriptionIdentifierLoop_placed 5 n _ bytesRead 0 (by omega) hn ?_ h]
      · rfl
      · simp only [PropertyValue.bytes] at hle
        omega
  | userProperty =>
    cases v <;> first | exact hv.elim | skip
    next key value =>
      obtain ⟨hkey, hvalue⟩ := placed_append.1 h
      simp only [PropertyValue.bytes, length_append, length_put16] at hlength hvalue
      rw [parseProperty, sub_eq (by omega), ok_bind, parseMqttString_placed hv.1 hkey (by omega),
        ok_bind]
      dsimp only
      rw [sub_eq (by omega), ok_bind, ← add_assoc,
        parseMqttString_placed hv.2 hvalue (by omega), ok_bind]
      simp only [PropertyValue.bytes, length_append, length_put16, Properties.set,
        PropertyValue.asPair, add_assoc]

end Values

/-! ## Blocks of properties -/

theorem ofByte_toByte (type : PropertyType) : PropertyType.ofByte type.toByte = some type := by
  cases type <;> rfl

theorem hasTopicAlias_set (p : Properties) (e : PropertyType × PropertyValue) :
    (p.set e).hasTopicAlias = (p.hasTopicAlias || e.1 == .topicAlias) := by
  obtain ⟨type, v⟩ := e
  cases type <;> simp [Properties.set]

def AllShaped (listed : List (PropertyType × PropertyValue)) : Prop :=
  ∀ e ∈ listed, e.2.Shaped e.1.shape

def AliasOnce (aliased : Bool) (listed : List (PropertyType × PropertyValue)) : Prop :=
  aliased.toNat + listed.countP (fun e => e.1 == .topicAlias) ≤ 1

def listedBytes (listed : List (PropertyType × PropertyValue)) : Str :=
  listed.flatMap fun e => e.1.toByte :: e.2.bytes

theorem serializeListed_of_shaped : ∀ {listed : List (PropertyType × PropertyValue)},
    AllShaped listed → serializeListed listed = .ok (listedBytes listed)
  | [], _ => rfl
  | (type, v) :: rest, h => by
    obtain ⟨hv, hrest⟩ := forall_mem_cons.1 h
    rw [serializeListed, PropertyValue.serialize_of_shaped hv, ok_bind,
      serializeListed_of_shaped hrest, ok_bind]
    rfl

theorem propertiesLoop_placed {propertiesEnd} (hend : propertiesEnd ≤ length) :
    ∀ (listed : List (PropertyType × PropertyValue)) rounds p
      bytesRead, AllShaped listed → AliasOnce p.hasTopicAlias listed →
      Placed buf (base + bytesRead) (listedBytes listed) →
      bytesRead + (listedBytes listed).length = propertiesEnd →
      (listedBytes listed).length ≤ rounds →
      propertiesLoop buf base length propertiesEnd rounds p bytesRead =
        .ok (listed.foldl Properties.set p, propertiesEnd)
  | [], rounds, p, bytesRead, _, _, _, hstop, _ => by
    obtain rfl : bytesRead = propertiesEnd := hstop
    cases rounds with
    | zero => rfl
    | succ rounds => rw [propertiesLoop, if_neg (lt_irrefl _)]; rfl
  | (type, v) :: rest, 0, _, _, _, _, _, _, hrounds => by simp [listedBytes] at hrounds
  | (type, v) :: rest, rounds + 1, p, bytesRead, hshaped, honce, h, hstop, hrounds => by
    obtain ⟨hv, hrest⟩ := forall_mem_cons.1 hshaped
    have hbytes : listedBytes ((type, v) :: rest) = (type.toByte :: v.bytes) ++ listedBytes rest :=
      rfl
    rw [hbytes] at h hstop hrounds
    rw [length_append, length_cons] at hstop hrounds
    obtain ⟨hfirst, hnext⟩ := placed_append.1 h
    obtain ⟨htype, hvalue⟩ := placed_cons.1 hfirst
    rw [add_assoc] at hvalue
    rw [AliasOnce, countP_cons] at honce
    have haliased : type = .topicAlias → p.hasTopicAlias = false := by
      rintro rfl
      cases hp : p.hasTopicAlias with
      | false => rfl
      | true =>
        rw [hp] at honce
        simp at honce
    have honce' : AliasOnce (p.set (type, v)).hasTopicAlias rest := by
      rw [AliasOnce, hasTopicAlias_set]
      by_cases ht : type = .topicAlias
      · rw [haliased ht] at honce ⊢
        simp only [ht, beq_self_eq_true, if_true, Bool.or_true, Bool.toNat_true,
          Bool.toNat_false] at honce ⊢
        omega
      · have hfalse : (type == .topicAlias) = false := by simpa using ht
        simp only [hfalse, Bool.or_false, Bool.false_eq_true, if_false] at honce ⊢
        omega
    have hparse : parseProperty buf base length p (bytesRead + 1) type =
        .ok (p.set (type, v), bytesRead + 1 + v.bytes.length) :=
      parseProperty_placed hvalue (by omega) hv haliased
    rw [propertiesLoop, if_pos (by omega), if_neg (by omega), htype.read, ok_bind, ofByte_toByte]
    dsimp only
    rw [hparse, ok_bind]
    refine propertiesLoop_placed hend rest rounds (p.set (type, v)) (bytesRead + 1 + v.bytes.length)
      hrest honce' ?_ (by omega) (by omega)
    rw [length_cons] at hnext
    convert hnext using 1
    omega

def blockBytes (p : Properties) : Str :=
  serializeRemainingLength (listedBytes p.listed).length ++ listedBytes p.listed

/-- and so is a block of properties. -/
theorem parseProperties_placed {p} (hshaped : AllShaped p.listed)
    (honce : AliasOnce false p.listed) (hfits : (listedBytes p.listed).length ≤ 268435455)
    (h : Placed buf base (blockBytes p)) (hlength : (blockBytes p).length ≤ length) :
    parseProperties buf base length =
      .ok (p.listed.foldl Properties.set {}, (blockBytes p).length) := by
  obtain ⟨hsize, hbody⟩ := placed_append.1 h
  rw [blockBytes, length_append] at hlength ⊢
  rw [parseProperties, parseRemainingLength_placed hfits hsize (by omega), ok_bind]
  exact propertiesLoop_placed hlength p.listed _ {} _ hshaped honce hbody rfl le_rfl

end Mqtts.Protocol
