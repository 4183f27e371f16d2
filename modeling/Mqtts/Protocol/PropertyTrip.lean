import Mqtts.Protocol.Fields
import Mathlib.Data.Nat.Digits.Lemmas

/-!
# The round trip of properties

A block of properties, written and read again.
-/

namespace Mqtts.Protocol

open List Checked Properties Nat

/-! ## Both passes -/

structure Properties.Typed (p : Properties) : Prop where
  sessionExpiryInterval : p.sessionExpiryInterval < 4294967296
  receiveMaximum : p.receiveMaximum < 65536
  maximumPacketSize : p.maximumPacketSize < 4294967296
  topicAliasMaximum : p.topicAliasMaximum < 65536
  topicAlias : p.topicAlias < 65536
  serverKeepAlive : p.serverKeepAlive < 65536
  messageExpiryInterval : p.messageExpiryInterval < 4294967296
  subscriptionIdentifier : p.subscriptionIdentifier < 4294967296
  willDelayInterval : p.willDelayInterval < 4294967296

def Properties.texts (p : Properties) : List Str :=
  [p.contentType, p.responseTopic, p.assignedClientIdentifier, p.authenticationMethod,
    p.responseInformation, p.serverReference, p.reasonString] ++
    p.userProperties.flatMap fun e => [e.1, e.2]

/-- The properties whose strings and binary data can be written. -/
structure Properties.Acceptable (p : Properties) : Prop where
  texts : ∀ s ∈ p.texts, ValidText s
  correlationData : p.correlationData.length ≤ 65535
  authenticationData : p.authenticationData.length ≤ 65535

theorem allShaped_append {as bs : List (PropertyType × PropertyValue)} :
    AllShaped (as ++ bs) ↔ AllShaped as ∧ AllShaped bs := forall_mem_append

variable {c : Prop} {type : PropertyType} {v : PropertyValue} {p : Properties}

theorem allShaped_listIf [Decidable c] (h : v.Shaped type.shape) : AllShaped (listIf c type v) := by
  intro e he
  rw [listIf] at he
  split at he
  · rw [mem_singleton.1 he]
    exact h
  · exact absurd he not_mem_nil

theorem allShaped_listed (htyped : p.Typed) (h : p.Acceptable) : AllShaped p.listed := by
  obtain ⟨htexts, hcorrelation, hauthentication⟩ := h
  simp only [texts, cons_append, nil_append, forall_mem_cons] at htexts
  obtain ⟨hcontent, hresponse, hassigned, hmethod, hinformation, hserver, hreason, huser⟩ := htexts
  have hpairs : AllShaped (p.userProperties.map fun e => (.userProperty, .pair e.1 e.2)) := by
    intro e he
    obtain ⟨kv, hkv, rfl⟩ := mem_map.1 he
    exact ⟨huser _ (mem_flatMap.2 ⟨kv, hkv, by simp⟩), huser _ (mem_flatMap.2 ⟨kv, hkv, by simp⟩)⟩
  delta listed
  simp only [allShaped_append, and_assoc]
  exact ⟨allShaped_listIf trivial, allShaped_listIf htyped.messageExpiryInterval,
    allShaped_listIf hcontent, allShaped_listIf hresponse, allShaped_listIf hcorrelation,
    allShaped_listIf htyped.subscriptionIdentifier, allShaped_listIf htyped.sessionExpiryInterval,
    allShaped_listIf hassigned, allShaped_listIf htyped.serverKeepAlive, allShaped_listIf hmethod,
    allShaped_listIf hauthentication, allShaped_listIf trivial,
    allShaped_listIf htyped.willDelayInterval, allShaped_listIf trivial,
    allShaped_listIf hinformation, allShaped_listIf hserver, allShaped_listIf hreason,
    allShaped_listIf htyped.receiveMaximum, allShaped_listIf htyped.topicAliasMaximum,
    allShaped_listIf htyped.topicAlias, allShaped_listIf trivial, allShaped_listIf trivial, hpairs,
    allShaped_listIf htyped.maximumPacketSize, allShaped_listIf trivial, allShaped_listIf trivial,
    allShaped_listIf trivial⟩

theorem countP_listIf [Decidable c] : (listIf c type v).countP (fun e => e.1 == .topicAlias) =
      if c ∧ type = .topicAlias then 1 else 0 := by
  by_cases hc : c <;> by_cases ht : type = .topicAlias <;> simp [listIf, hc, ht]

theorem aliasOnce_listed (p : Properties) : AliasOnce false p.listed := by
  have huser : (p.userProperties.map fun e =>
      ((.userProperty, .pair e.1 e.2) : PropertyType × PropertyValue)).countP
        (fun e => e.1 == .topicAlias) = 0 := by
    rw [countP_eq_zero]
    intro e he
    obtain ⟨kv, -, rfl⟩ := mem_map.1 he
    simp
  delta listed
  simp only [AliasOnce, countP_append, countP_listIf, huser, reduceCtorEq,
    and_false, if_false, and_true, Bool.toNat_false, zero_add, add_zero]
  split <;> omega

theorem length_listedBytes_listIf [Decidable c] :
    (listedBytes (listIf c type v)).length = sizeIf c (1 + v.bytes.length) := by
  rw [listIf, sizeIf]
  split <;> simp [listedBytes, add_comm]

theorem digitCount_eq : ∀ digits n, digitCount digits n = (varint digits n).length
  | 0, _ => rfl
  | digits + 1, n => by
    rw [digitCount, varint]
    split
    · rfl
    · rw [length_cons, digitCount_eq digits, add_comm]

theorem propertiesTotalLength_eq (p : Properties) :
    propertiesTotalLength p = (listedBytes p.listed).length := by
  have happend : ∀ as bs : List (PropertyType × PropertyValue),
      (listedBytes (as ++ bs)).length = (listedBytes as).length + (listedBytes bs).length := by
    intro as bs
    rw [listedBytes, flatMap_append, length_append]
    rfl
  have huser : ∀ kvs : List (Str × Str),
      (listedBytes (kvs.map fun e => (.userProperty, .pair e.1 e.2))).length =
        (kvs.map fun e => 1 + (2 + e.1.length) + (2 + e.2.length)).sum := by
    intro kvs
    induction kvs with
    | nil => rfl
    | cons e kvs ih =>
      have hcons : listedBytes (List.map (fun e : Str × Str =>
          ((.userProperty, .pair e.1 e.2) : PropertyType × PropertyValue)) (e :: kvs)) =
          (PropertyType.userProperty.toByte :: (PropertyValue.pair e.1 e.2).bytes) ++
            listedBytes (kvs.map fun e => (.userProperty, .pair e.1 e.2)) := rfl
      rw [hcons, length_append, ih, map_cons, sum_cons]
      simp only [PropertyValue.bytes, length_cons, length_append, length_put16]
      omega
  delta listed
  simp only [propertiesTotalLength, happend, length_listedBytes_listIf, huser,
    digitCount_eq, PropertyValue.bytes, length_singleton, length_put16, length_put32,
    length_append, add_assoc]

/-- The first pass counts the bytes that the second pass writes. -/
theorem serializeProperties_eq (htyped : p.Typed) (h : p.Acceptable) :
    serializeProperties p = .ok (blockBytes p) := by
  rw [serializeProperties, serializeListed_of_shaped (allShaped_listed htyped h), ok_bind,
    propertiesTotalLength_eq]
  rfl

/-! ## Reading back -/

/-- The presence flags agree with the values beside them. -/
structure Properties.Agrees (p : Properties) : Prop where
  messageExpiryInterval : p.messageExpiryInterval ≠ 0 → p.hasMessageExpiryInterval
  sessionExpiryInterval : p.sessionExpiryInterval ≠ 0 → p.hasSessionExpiryInterval
  maximumQoS : p.maximumQoS ≠ 0 → p.hasMaximumQoS
  receiveMaximum : p.hasReceiveMaximum ↔ p.receiveMaximum ≠ 0
  maximumPacketSize : p.hasMaximumPacketSize ↔ p.maximumPacketSize ≠ 0
  topicAlias : p.hasTopicAlias ↔ p.topicAlias ≠ 0

/-- The base 128 digits of a number are the same in both directions. -/
def Mirrored (n : Nat) : Prop := (Nat.digits 128 n).reverse = Nat.digits 128 n

theorem lowBits_varint : ∀ digits n, 0 < n → n < 128 ^ digits →
    (varint digits n).map (fun b => (b &&& 0x7F).toNat) = Nat.digits 128 n
  | 0, n, hpos, hn => by
    rw [pow_zero] at hn
    omega
  | digits + 1, n, hpos, hn => by
    obtain ⟨⟨hlast, -⟩, hmore, -⟩ := varint_bytes (n % 128) (mod_lt n (by omega))
    have hn' : n / 128 < 128 ^ digits :=
      Nat.div_lt_of_lt_mul (by rw [← Nat.pow_succ']; exact hn)
    rw [varint, Nat.digits_def' (by omega) hpos]
    split
    · next hzero => rw [map_singleton, hlast, hzero, digits_zero]
    · next hzero =>
        rw [map_cons, hmore, lowBits_varint digits (n / 128) (by omega) hn']

theorem readBack_eq : ∀ (bytes : Str) k value, k + bytes.length ≤ 4 → value < 128 ^ k →
    bytes.foldl (fun value byte => (value * 128) % 2 ^ 32 + (byte &&& 0x7F).toNat) value =
      (bytes.map fun b => (b &&& 0x7F).toNat).foldl (fun value d => d + 128 * value) value
  | [], _, _, _, _ => rfl
  | b :: bytes, k, value, hk, hvalue => by
    rw [length_cons] at hk
    have hpow : 128 ^ k ≤ 128 ^ 3 := Nat.pow_le_pow_right (by omega) (by omega)
    have hbyte : (b &&& 0x7F).toNat < 128 := by
      rw [UInt8.toNat_and]
      exact lt_of_le_of_lt and_le_right (by decide)
    have hmod : (value * 128) % 2 ^ 32 = 128 * value := by
      rw [mod_eq_of_lt (by omega), mul_comm]
    rw [foldl_cons, map_cons, foldl_cons, hmod, add_comm (128 * value)]
    refine readBack_eq bytes (k + 1) _ (by omega) ?_
    rw [pow_succ]
    omega

theorem readBack_varint {n} (hn : n ≤ 268435455) (h : Mirrored n) : readBack (varint 5 n) = n := by
  rcases Nat.eq_zero_or_pos n with rfl | hpos
  · rfl
  have hbits := lowBits_varint 5 n hpos (by omega)
  have hlength : (varint 5 n).length ≤ 4 := by
    have hcount := congrArg List.length hbits
    rw [length_map] at hcount
    rw [hcount]
    exact digits_length_le_iff (by omega) n |>.2 (by omega)
  rw [readBack, readBack_eq _ 0 0 (by omega) (by decide), hbits, ← h, ← foldr_reverse,
    reverse_reverse]
  have hdigits := ofDigits_digits 128 n
  rw [ofDigits_eq_foldr] at hdigits
  exact hdigits

theorem foldl_listIf {listed : List (PropertyType × PropertyValue)} [Decidable c] {r}
    (reset : Properties → Properties) (hset : c → (reset r).set (type, v) = r)
    (hskip : ¬ c → reset r = r) (h : listed.foldl Properties.set {} = reset r) :
    (listed ++ listIf c type v).foldl Properties.set {} = r := by
  rw [foldl_append, h, listIf]
  split
  · next hc => exact hset hc
  · next hc => exact hskip hc

variable {listed : List (PropertyType × PropertyValue)} {α : Type} {n d : α} {r : Properties}

/-- A property that is listed where its value is not the default. -/
theorem foldl_listNe [Decidable (n ≠ d)] (reset : α → Properties → Properties)
    (hr : reset n r = r) (hset : (reset d r).set (type, v) = r)
    (h : listed.foldl Properties.set {} = reset d r) :
    (listed ++ listIf (n ≠ d) type v).foldl Properties.set {} = r := by
  refine foldl_listIf (reset d) (fun _ => hset) (fun hc => ?_) h
  rw [← not_not.1 hc, hr]

/-- A flag that is listed where it has the value `x`. -/
theorem foldl_listFlag {b x : Bool} (reset : Bool → Properties → Properties)
    (hr : reset b r = r) (hset : (reset (!x) r).set (type, v) = reset x r)
    (h : listed.foldl Properties.set {} = reset (!x) r) :
    (listed ++ listIf (b = x) type v).foldl Properties.set {} = r := by
  refine foldl_listIf (reset (!x)) (fun hc => ?_) (fun hc => ?_) h
  · rw [hset, ← hc, hr]
  · rw [← Bool.eq_not.2 hc, hr]

/-- A property with a flag of its own, which is set where the property is listed. -/
theorem foldl_listHas [Decidable c] {b : Bool} (reset : α → Bool → Properties → Properties)
    (hb : c ↔ b) (hskip : ¬ c → n = d) (hr : reset n b r = r)
    (hset : (reset d false r).set (type, v) = reset n true r)
    (h : listed.foldl Properties.set {} = reset d false r) :
    (listed ++ listIf c type v).foldl Properties.set {} = r := by
  refine foldl_listIf (reset d false) (fun hc => ?_) (fun hc => ?_) h
  · rw [hset, ← hb.1 hc, hr]
  · rw [← hskip hc, ← Bool.eq_false_iff.2 (mt hb.2 hc), hr]

theorem foldl_userProperties : ∀ kvs (q : Properties),
    (kvs.map fun e => ((.userProperty, .pair e.1 e.2) : PropertyType × PropertyValue)).foldl
      Properties.set q = { q with userProperties := q.userProperties ++ kvs }
  | [], q => by rw [append_nil]; rfl
  | e :: kvs, q => by
    rw [map_cons, foldl_cons, foldl_userProperties kvs]
    simp [Properties.set, PropertyValue.asPair]

theorem foldl_listed_userProperties {listed : List (PropertyType × PropertyValue)} {r kvs}
    (hr : r.userProperties = kvs)
    (h : listed.foldl Properties.set {} = { r with userProperties := [] }) :
    List.foldl Properties.set {} (listed ++ kvs.map fun e => (.userProperty, .pair e.1 e.2)) =
      r := by
  rw [foldl_append, h, foldl_userProperties, nil_append, ← hr]

/-- The parser's loop gives the properties back. The steps go over `listed` from its end and reset
one property each. -/
theorem foldl_listed (hagrees : p.Agrees)
    (hread : readBack (varint 5 p.subscriptionIdentifier) = p.subscriptionIdentifier) :
    p.listed.foldl Properties.set {} = p := by
  delta listed
  cases p
  dsimp only at hread ⊢
  refine foldl_listFlag (fun b r => { r with sharedSubscriptionAvailable := b }) rfl rfl ?_
  refine foldl_listFlag (fun b r => { r with subscriptionIdentifierAvailable := b }) rfl rfl ?_
  refine foldl_listFlag (fun b r => { r with wildcardSubscriptionAvailable := b }) rfl rfl ?_
  dsimp only
  refine foldl_listHas (fun x b r => { r with maximumPacketSize := x, hasMaximumPacketSize := b })
    hagrees.maximumPacketSize.symm not_not.1 rfl rfl ?_
  refine foldl_listed_userProperties rfl ?_
  refine foldl_listFlag (fun b r => { r with retainAvailable := b }) rfl rfl ?_
  dsimp only
  refine foldl_listHas (fun x b r => { r with maximumQoS := x, hasMaximumQoS := b })
    ⟨fun h => h.elim hagrees.maximumQoS id, .inr⟩ (fun h => not_not.1 (not_or.1 h).1) rfl rfl ?_
  refine foldl_listHas (fun x b r => { r with topicAlias := x, hasTopicAlias := b })
    hagrees.topicAlias.symm not_not.1 rfl rfl ?_
  refine foldl_listNe (fun x r => { r with topicAliasMaximum := x }) rfl rfl ?_
  dsimp only
  refine foldl_listHas (fun x b r => { r with receiveMaximum := x, hasReceiveMaximum := b })
    hagrees.receiveMaximum.symm not_not.1 rfl rfl ?_
  refine foldl_listNe (fun x r => { r with reasonString := x }) rfl rfl ?_
  refine foldl_listNe (fun x r => { r with serverReference := x }) rfl rfl ?_
  dsimp only
  refine foldl_listNe (fun x r => { r with responseInformation := x }) rfl rfl ?_
  refine foldl_listFlag (fun b r => { r with requestResponseInformation := b }) rfl rfl ?_
  refine foldl_listNe (fun x r => { r with willDelayInterval := x }) rfl rfl ?_
  dsimp only
  refine foldl_listFlag (fun b r => { r with requestProblemInformation := b }) rfl rfl ?_
  refine foldl_listNe (fun x r => { r with authenticationData := x }) rfl rfl ?_
  refine foldl_listNe (fun x r => { r with authenticationMethod := x }) rfl rfl ?_
  dsimp only
  refine foldl_listNe (fun x r => { r with serverKeepAlive := x }) rfl rfl ?_
  refine foldl_listNe (fun x r => { r with assignedClientIdentifier := x }) rfl rfl ?_
  refine foldl_listHas
    (fun x b r => { r with sessionExpiryInterval := x, hasSessionExpiryInterval := b })
    ⟨fun h => h.elim hagrees.sessionExpiryInterval id, .inr⟩ (fun h => not_not.1 (not_or.1 h).1)
    rfl rfl ?_
  dsimp only
  refine foldl_listIf (fun r => { r with subscriptionIdentifier := 0 })
    (fun _ => by rw [Properties.set, PropertyValue.asNumber, hread])
    (fun h => by cases not_not.1 h; rfl) ?_
  refine foldl_listNe (fun x r => { r with correlationData := x }) rfl rfl ?_
  refine foldl_listNe (fun x r => { r with responseTopic := x }) rfl rfl ?_
  dsimp only
  refine foldl_listNe (fun x r => { r with contentType := x }) rfl rfl ?_
  refine foldl_listHas
    (fun x b r => { r with messageExpiryInterval := x, hasMessageExpiryInterval := b })
    ⟨fun h => h.elim hagrees.messageExpiryInterval id, .inr⟩ (fun h => not_not.1 (not_or.1 h).1)
    rfl rfl ?_
  -- the first one has no properties before it
  rw [← nil_append (listIf _ _ _)]
  refine foldl_listNe (fun x r => { r with payloadFormatIndicator := x }) rfl rfl ?_
  rfl

/-! ## The round trip -/

/-- `parse_properties` reads back what `serialize_properties` writes when every presence flag agrees
with the value beside it and the subscription identifier has the same digits in both directions. -/
theorem properties_round_trip {p} (rest : Str) (htyped : p.Typed) (h : p.Acceptable)
    (hagrees : p.Agrees) (hidentifier : p.subscriptionIdentifier ≤ 268435455)
    (hmirrored : Mirrored p.subscriptionIdentifier) (hfits : propertiesTotalLength p ≤ 268435455) :
    ∃ bytes, serializeProperties p = .ok bytes ∧
      parseProperties (bytes ++ rest) 0 (bytes ++ rest).length = .ok (p, bytes.length) := by
  rw [propertiesTotalLength_eq] at hfits
  refine ⟨blockBytes p, serializeProperties_eq htyped h, ?_⟩
  rw [parseProperties_placed (allShaped_listed htyped h) (aliasOnce_listed p) hfits
    (placed_zero _ _) (by simp), foldl_listed hagrees (readBack_varint hidentifier hmirrored)]

def sampleProperties : Properties where
  hasSessionExpiryInterval := true
  receiveMaximum := 20
  hasReceiveMaximum := true
  userProperties := [([0x61], [0x62])]
  correlationData := [0x00, 0xFF]
  subscriptionIdentifier := 5
  sharedSubscriptionAvailable := false

theorem sampleProperties_round_trip : ∃ bytes, serializeProperties sampleProperties = .ok bytes ∧
    parseProperties (bytes ++ [0x00]) 0 (bytes ++ [0x00]).length =
      .ok (sampleProperties, bytes.length) :=
  properties_round_trip [0x00]
    (by constructor <;> decide) (by constructor <;> decide) (by constructor <;> decide)
    (by decide) (by simp [Mirrored, sampleProperties]) (by decide)

theorem serialize_userProperties {kvs : List (Str × Str)} (hkvs : ∀ e ∈ kvs, e = ([], []))
    (hcount : kvs.length = 53687092) :
    ∃ body, serializeProperties { userProperties := kvs } =
      .ok ([0x84, 0x80, 0x80, 0x80, 0x01] ++ body) ∧ body.length = 268435460 := by
  have htexts : ∀ s ∈ texts { userProperties := kvs }, ValidText s := by
    intro s hs
    have hnil : s = [] := by
      simp only [texts, mem_append, mem_flatMap] at hs
      rcases hs with hs | ⟨e, he, hs⟩
      · simpa using hs
      · rw [hkvs e he] at hs
        simpa using hs
    rw [hnil]
    decide
  have hsum : ∀ kvs : List (Str × Str), (∀ e ∈ kvs, e = ([], [])) →
      (kvs.map fun e => 1 + (2 + e.1.length) + (2 + e.2.length)).sum = 5 * kvs.length := by
    intro kvs hkvs
    induction kvs with
    | nil => rfl
    | cons e kvs ih =>
      rw [map_cons, sum_cons, ih fun e he => hkvs e (mem_cons_of_mem _ he),
        hkvs e mem_cons_self, length_cons, length_nil]
      omega
  have hlength : (listedBytes (listed { userProperties := kvs })).length =
      268435460 := by
    rw [← propertiesTotalLength_eq, propertiesTotalLength, hsum kvs hkvs, hcount]
    simp [sizeIf]
  have htyped : Properties.Typed { userProperties := kvs } := by constructor <;> simp
  refine ⟨_, ?_, hlength⟩
  rw [serializeProperties_eq htyped ⟨htexts, by simp, by simp⟩, blockBytes, hlength]
  rfl

theorem serialize_replicate_userProperties :
    ∃ body, serializeProperties { userProperties := .replicate 53687092 ([], []) } =
      .ok ([0x84, 0x80, 0x80, 0x80, 0x01] ++ body) ∧ body.length = 268435460 :=
  serialize_userProperties (fun _ he => (mem_replicate.1 he).2) length_replicate

/-- A tabulator is well-formed UTF-8 and is refused; a receive maximum of 0 that is there is left
out; the parser takes the digits of 128 in the other order. -/
theorem properties_not_round_trip : ((isValidUtf8 [0x09] 0 1 : Checked Status Bool) = .ok true ∧
      serializeProperties { contentType := [0x09] } = fail .packetInvalid) ∧
    ((serializeProperties { hasReceiveMaximum := true }).bind
      (fun bytes => parseProperties bytes 0 bytes.length) = .ok ({}, 1)) ∧
    ((serializeProperties { subscriptionIdentifier := 128 }).bind
      (fun bytes => parseProperties bytes 0 bytes.length) =
        .ok ({ subscriptionIdentifier := 1 }, 4)) ∧
    ∃ bytes, serializeProperties { userProperties := .replicate 53687092 ([], []) } = .ok bytes ∧
      parseProperties bytes 0 bytes.length = fail .packetInvalid := by
  obtain ⟨body, hbody, -⟩ := serialize_replicate_userProperties
  exact ⟨⟨rfl, rfl⟩, rfl, rfl, _, hbody, rfl⟩

end Mqtts.Protocol
