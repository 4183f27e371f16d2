import Mqtts.Protocol.ConnectTrip

/-!
# The round trip of the other packets

PUBLISH, the four acknowledgements, SUBSCRIBE, SUBACK, UNSUBSCRIBE, UNSUBACK and DISCONNECT with
empty properties.
-/

namespace Mqtts.Protocol

open List Checked

variable {buf : Str} {pos stop : Nat} {first hint : UInt8}

/-! ## Empty properties -/

theorem propertiesFrom_empty {error : Status → Status} (h : Placed buf pos [0x00])
    (hstop : pos + 1 ≤ stop) : propertiesFrom buf pos stop error = .ok ({}, pos + 1) := by
  have hlisted : Properties.listed {} = [] := rfl
  have hblock : blockBytes {} = [0x00] := rfl
  have hplaced : Placed buf pos (blockBytes {}) := by rw [hblock]; exact h
  rw [propertiesFrom_placed (by rw [hlisted]; exact fun _ he => absurd he not_mem_nil)
    (by rw [hblock]; decide) hplaced (by rw [hblock]; exact hstop), hlisted, hblock]
  rfl

theorem optional_empty {c} {error : Status → Status}
    (h : Placed buf pos (bytesIf c [0x00])) (hstop : pos + (bytesIf c [0x00]).length ≤ stop) :
    optional c pos {} (propertiesFrom buf pos stop error) =
      .ok ({}, pos + (bytesIf c [0x00]).length) := by
  cases c with
  | false => rfl
  | true => exact propertiesFrom_empty h hstop

theorem serializeIf_empty (c : Bool) :
    serializeIf c (serializeProperties {}) = .ok (bytesIf c [0x00]) := by
  cases c <;> rfl

/-! ## Acknowledgements -/

def AckPacket.carried (hint : UInt8) (p : AckPacket) : AckPacket :=
  if isLegacy hint then { p with reasonCode := 0x00 } else p

def ackBytes (hint : UInt8) (p : AckPacket) : Str :=
  put16 p.packetId ++ (if isLegacy hint then [] else [p.reasonCode, 0x00])

theorem serializeAck_eq {p} (hp : p.properties = {}) : serializeAck first hint p =
      .ok (whole first (ackBytes hint p)) := by
  have hempty : serializeProperties {} = .ok [0x00] := rfl
  rw [serializeAck, ackBytes, hp, hempty]
  split
  · rw [append_nil]
    rfl
  · rw [ok_bind, append_assoc]
    rfl

theorem length_ackBytes (hint : UInt8) (p : AckPacket) :
    (ackBytes hint p).length = if isLegacy hint then 2 else 4 := by
  rw [ackBytes]
  split <;> simp

theorem reasonAndProperties_placed {reasonCode} (h : Placed buf pos [reasonCode, 0x00])
    (hstop : stop = pos + 2) : reasonAndProperties buf pos stop = .ok (reasonCode, {}) := by
  obtain ⟨hcode, hproperties⟩ := placed_cons.1 h
  rw [reasonAndProperties, if_pos (by omega), hcode.read, ok_bind, if_pos (by omega),
    propertiesFrom_empty hproperties (by omega)]
  rfl

section Ack

variable {p : AckPacket} (hid : p.packetId < 65536) (hp : p.properties = {})
include hid hp

theorem parseAck_whole : parseAckStrict true hint (whole first (ackBytes hint p)) =
      .ok (p.carried hint) ∧
    parseAckLoose true hint (whole first (ackBytes hint p)) = .ok (p.carried hint) := by
  have hn := length_ackBytes hint p
  have hsmall : (ackBytes hint p).length ≤ 268435455 := by
    rw [hn]
    split <;> decide
  obtain ⟨hheader, hlength, htwo, hplaced⟩ := @whole_spec first _ hsmall
  generalize whole first (ackBytes hint p) = buf at *
  obtain ⟨hpacketId, hrest⟩ := placed_append.1 hplaced
  obtain ⟨packetId, reasonCode, properties⟩ := p
  cases hp
  rw [length_put16] at hrest
  rw [parseAckStrict, parseAckLoose, beginPacket_memory, hheader]
  simp only [ok_bind, AckPacket.carried]
  generalize headerLength (ackBytes hint ⟨packetId, reasonCode, {}⟩).length = pos at *
  by_cases hlegacy : isLegacy hint
  · rw [if_pos hlegacy] at hn
    rw [hn] at hlength
    simp only [hn, hlegacy, if_true, hpacketId.read16 hid, ok_bind]
    simp (disch := omega) only [refuse_of_not, ok_bind, and_self]
  · rw [if_neg hlegacy] at hn hrest
    rw [hn] at hlength
    simp only [hn, hlegacy, hpacketId.read16 hid, ok_bind]
    simp (disch := omega) only [refuse_of_not, sub_eq, ok_bind, Bool.false_eq_true, if_false,
      reasonAndProperties_placed hrest, and_self]

end Ack

theorem parseDisconnect_whole {p} (hp : p.properties = {}) :
    ∃ bytes, serializeDisconnect hint p = .ok bytes ∧ parsePacket hint bytes = .ok (.disconnect
        (if isLegacy hint then { p with reasonCode := 0x00 } else p)) := by
  obtain ⟨reasonCode, properties⟩ := p
  cases hp
  have hempty : serializeProperties {} = .ok [0x00] := rfl
  rw [serializeDisconnect]
  by_cases hlegacy : isLegacy hint
  · refine ⟨_, if_pos hlegacy, ?_⟩
    have hdispatch : parsePacket hint [0xE0, 0x00] = parseDisconnect true hint [0xE0, 0x00] := rfl
    have hheader : fixedHeader [0xE0, 0x00] = .ok (0, 2) := rfl
    rw [hdispatch, parseDisconnect, hheader]
    simp [refuse, hlegacy]
  · rw [if_neg hlegacy, hempty]
    refine ⟨_, rfl, ?_⟩
    have htwo : [reasonCode, 0x00].length = 2 := rfl
    have hfits : [reasonCode, 0x00].length ≤ 268435455 := by rw [htwo]; omega
    obtain ⟨hheader, hlength, -, hplaced⟩ := @whole_spec 0xE0 _ hfits
    rw [htwo] at hheader hlength hplaced
    obtain ⟨hcode, hproperties⟩ := placed_cons.1 hplaced
    refine (parsePacket_whole hfits rfl rfl).trans ?_
    rw [parseTyped, parseDisconnect, hheader]
    simp only [ok_bind, hlegacy, hcode.read, hlength,
      propertiesFrom_empty hproperties (Nat.le_refl (headerLength 2 + 1 + 1))]
    rfl

/-! ## PUBLISH -/

def publishBytes (hint : UInt8) (p : PublishPacket) : Str :=
  textBytes p.topicName ++ bytesIf (0 < p.qos) (put16 p.packetId) ++
    bytesIf (!isLegacy hint) [0x00] ++ p.payload

def publishFirst (dup : Bool) (qos : Nat) (retain : Bool) : UInt8 :=
  let qos : UInt8 := (UInt8.ofNat qos &&& 0x03) <<< 1
  0x30 ||| flagBit dup 0x08 ||| qos ||| flagBit retain 0x01

theorem publishFirst_fields : ∀ dup (qos : Fin 3) retain,
    PacketType.ofByte (publishFirst dup qos retain) = some .publish ∧
      publishQos (publishFirst dup qos retain) = qos ∧
      (publishFirst dup qos retain &&& 0x08 != 0) = dup ∧
      (publishFirst dup qos retain &&& 0x01 != 0) = retain := by
  decide

theorem serializePublish_eq {p} (hp : p.properties = {})
    (htopic : ValidText p.topicName) (hfits : (publishBytes hint p).length ≤ 268435455) :
    serializePublish hint p =
      .ok (whole (publishFirst p.dup p.qos p.retain) (publishBytes hint p)) := by
  have htotal : 2 + p.topicName.length + sizeIf (0 < p.qos) 2 +
      (bytesIf (!isLegacy hint) [0x00]).length + p.payload.length =
        (publishBytes hint p).length := by
    simp only [publishBytes, length_append, length_textBytes, bytesIf, sizeIf, decide_eq_true_eq]
    split <;> simp
  rw [serializePublish, hp, serializeIf_empty, ok_bind]
  simp only [htotal]
  rw [refuse_of_not (by omega), ok_bind, serializeMqttString_of_valid htopic, ok_bind]
  simp only [publishBytes, bytesIf, decide_eq_true_eq]
  rfl

theorem parsePublish_whole {p} (hp : p.properties = {}) (hqos : p.qos ≤ 2)
    (htopic : ValidText p.topicName) (hid : p.packetId < 65536)
    (hfits : (publishBytes hint p).length ≤ 268435455) :
    parsePublish true hint (whole (publishFirst p.dup p.qos p.retain) (publishBytes hint p)) =
      .ok (.publish { p with packetId := if 0 < p.qos then p.packetId else 0 }) := by
  obtain ⟨-, hqosOf, hdup, hretain⟩ := publishFirst_fields p.dup ⟨p.qos, by omega⟩ p.retain
  obtain ⟨hheader, hlength, htwo, hplaced⟩ :=
    @whole_spec (publishFirst p.dup p.qos p.retain) _ hfits
  have hread : (Checked.read (whole (publishFirst p.dup p.qos p.retain) (publishBytes hint p)) 0 :
    Checked Status UInt8) = .ok (publishFirst p.dup p.qos p.retain) := rfl
  generalize whole (publishFirst p.dup p.qos p.retain) (publishBytes hint p) = buf at *
  generalize hn : (publishBytes hint p).length = n at *
  rw [publishBytes] at hn hplaced
  simp only [append_assoc, placed_append, length_append] at hn hplaced
  obtain ⟨htopicName, hpacketId, hproperties, hpayload⟩ := hplaced
  have hoptional : optional (0 < p.qos) (headerLength n + (textBytes p.topicName).length) 0 (do
      refuse (headerLength n + (textBytes p.topicName).length + 2 > buf.length) .packetIncomplete
      let packetId ← read16 buf (headerLength n + (textBytes p.topicName).length)
      .ok (packetId, headerLength n + (textBytes p.topicName).length + 2)) =
      .ok (if 0 < p.qos then p.packetId else 0, headerLength n + (textBytes p.topicName).length +
        (bytesIf (0 < p.qos) (put16 p.packetId)).length) := by
    by_cases hpos : 0 < p.qos
    · simp only [hpos, bytesIf, decide_true, if_true, length_put16] at hpacketId hn ⊢
      rw [optional, if_pos rfl, refuse_of_not (by omega), hpacketId.read16 hid]
      rfl
    · simp only [hpos, bytesIf, decide_false, optional]
      rfl
  rw [parsePublish, refuse_of_not (by omega), ok_bind, beginPacket_memory, ok_bind, hread, ok_bind,
    hheader]
  simp only [ok_bind]
  rw [stringFrom_placed htopic htopicName (by omega)]
  simp only [ok_bind, hqosOf, hoptional]
  rw [optional_empty hproperties (by omega)]
  simp only [ok_bind]
  rw [sub_eq (by omega), ok_bind, sub_eq (by omega), ok_bind]
  have hleft : n - (headerLength n + (textBytes p.topicName).length +
      (bytesIf (0 < p.qos) (put16 p.packetId)).length + (bytesIf (!isLegacy hint) [0x00]).length -
        headerLength n) = p.payload.length := by
    omega
  rw [hleft, hpayload.assign, ok_bind, hdup, hretain, ← hp]

/-! ## SUBSCRIBE and UNSUBSCRIBE -/

structure ValidOptions (hint : UInt8) (o : SubscriptionOptions) : Prop where
  qos : o.qos ≤ 2
  retainHandling : o.retainHandling ≤ 2
  legacy : isLegacy hint →
    o.noLocal = false ∧ o.retainAsPublished = false ∧ o.retainHandling = 0

theorem decode_encode {o} (h : ValidOptions hint o) :
    decodeSubscriptionOptions (encodeSubscriptionOptions o) (isLegacy hint) = some o := by
  have hv5 : ∀ (qos retainHandling : Fin 3) (noLocal retainAsPublished : Bool),
      decodeSubscriptionOptions (encodeSubscriptionOptions
        ⟨qos, noLocal, retainAsPublished, retainHandling⟩) false =
          some ⟨qos, noLocal, retainAsPublished, retainHandling⟩ := by
    decide
  have hv4 : ∀ qos : Fin 3, decodeSubscriptionOptions (encodeSubscriptionOptions
      ⟨qos, false, false, 0⟩) true = some ⟨qos, false, false, 0⟩ := by
    decide
  obtain ⟨qos, noLocal, retainAsPublished, retainHandling⟩ := o
  have hqos : qos ≤ 2 := h.qos
  have hretain : retainHandling ≤ 2 := h.retainHandling
  by_cases hlegacy : isLegacy hint
  · obtain ⟨rfl, rfl, rfl⟩ := h.legacy hlegacy
    rw [hlegacy]
    exact hv4 ⟨qos, by omega⟩
  · rw [Bool.eq_false_iff.2 hlegacy]
    exact hv5 ⟨qos, by omega⟩ ⟨retainHandling, by omega⟩ noLocal retainAsPublished

def subscriptionBytes (sub : Str × SubscriptionOptions) : Str :=
  textBytes sub.1 ++ [encodeSubscriptionOptions sub.2]

theorem serializeSubscriptions_eq : ∀ {subs}, (∀ sub ∈ subs, ValidText sub.1) →
      serializeSubscriptions subs = .ok (subs.flatMap subscriptionBytes)
  | [], _ => rfl
  | sub :: subs, h => by
    obtain ⟨hsub, hsubs⟩ := forall_mem_cons.1 h
    rw [serializeSubscriptions, serializeMqttString_of_valid hsub, ok_bind,
      serializeSubscriptions_eq hsubs, ok_bind, flatMap_cons]
    rfl

variable {payloadEnd packetId : Nat} {p : CodesPacket}

section Loop

variable {α : Type} {bytes : α → Str} {xs : List α}

def TakesAll (buf : Str) (payloadEnd : Nat) (bytes : α → Str) (xs : List α)
    (loop : Nat → Nat → List α → Checked Status (List α)) : Prop :=
  ∀ rounds pos acc, Placed buf pos (xs.flatMap bytes) →
    pos + (xs.flatMap bytes).length = payloadEnd → payloadEnd - pos ≤ rounds →
    loop rounds pos acc = .ok (acc ++ xs)

/-- A loop over the payload that takes one element in a round takes all of them, by induction on
the list. -/
theorem takesAll {loop} (hend : ∀ rounds acc, loop rounds payloadEnd acc = .ok acc)
    (hround : ∀ x ∈ xs, 0 < (bytes x).length ∧ ∀ rounds pos acc, Placed buf pos (bytes x) →
      pos + (bytes x).length ≤ payloadEnd →
      loop (rounds + 1) pos acc = loop rounds (pos + (bytes x).length) (acc ++ [x])) :
    TakesAll buf payloadEnd bytes xs loop := by
  induction xs with
  | nil =>
    rintro rounds pos acc - rfl -
    rw [append_nil]
    exact hend rounds acc
  | cons x xs ih =>
    intro rounds pos acc hplaced hlength hrounds
    obtain ⟨⟨hpos, hx⟩, hxs⟩ := forall_mem_cons.1 hround
    rw [flatMap_cons, placed_append] at hplaced
    rw [flatMap_cons, length_append] at hlength
    obtain ⟨rounds, rfl⟩ : ∃ r, rounds = r + 1 := ⟨rounds - 1, by omega⟩
    rw [hx _ _ _ hplaced.1 (by omega), ih hxs _ _ _ hplaced.2 (by omega) (by omega), append_assoc]
    rfl

theorem flatMap_bytes_ne_nil (h : ∀ x, 0 < (bytes x).length) (hxs : xs ≠ []) :
    xs.flatMap bytes ≠ [] := by
  obtain ⟨x, hx⟩ := exists_mem_of_ne_nil _ hxs
  exact fun hnil => length_pos_iff.1 (h x) (flatMap_eq_nil_iff.1 hnil x hx)

end Loop

theorem length_subscriptionBytes (sub) : (subscriptionBytes sub).length = 2 + sub.1.length + 1 := by
  rw [subscriptionBytes, length_append, length_textBytes, length_singleton]

theorem subscriptionsLoop_placed {subs}
    (h : ∀ sub ∈ subs, ValidText sub.1 ∧ ValidOptions hint sub.2) :
    TakesAll buf payloadEnd subscriptionBytes subs
      (subscriptionsLoop buf (isLegacy hint) payloadEnd) := by
  refine takesAll (fun rounds acc => by cases rounds <;> simp [subscriptionsLoop]) ?_
  intro sub hsub
  have hlength := length_subscriptionBytes sub
  have htext := length_textBytes sub.1
  refine ⟨by omega, fun rounds pos acc hplaced hend => ?_⟩
  obtain ⟨hfilter, hbyte⟩ := placed_append.1 hplaced
  rw [subscriptionsLoop, if_pos (by omega), stringFrom_placed (h sub hsub).1 hfilter (by omega)]
  simp only [ok_bind]
  rw [refuse_of_not (by omega), ok_bind, hbyte.read, ok_bind, decode_encode (h sub hsub).2, hlength,
    htext]
  rfl

theorem serializeFilters_eq : ∀ {filters}, (∀ f ∈ filters, ValidText f) →
    serializeFilters filters = .ok (filters.flatMap textBytes)
  | [], _ => rfl
  | f :: filters, h => by
    obtain ⟨hf, hfilters⟩ := forall_mem_cons.1 h
    rw [serializeFilters, serializeMqttString_of_valid hf, ok_bind,
      serializeFilters_eq hfilters, ok_bind, flatMap_cons]
    rfl

theorem topicFiltersLoop_placed {filters} (h : ∀ f ∈ filters, ValidText f) :
    TakesAll buf payloadEnd textBytes filters (topicFiltersLoop buf payloadEnd) := by
  refine takesAll (fun rounds acc => by cases rounds <;> simp [topicFiltersLoop]) ?_
  intro f hf
  have hlength := length_textBytes f
  refine ⟨by omega, fun rounds pos acc hplaced hend => ?_⟩
  rw [topicFiltersLoop, if_pos (by omega), stringFrom_placed (h f hf) hplaced (by omega)]
  rfl

def filterBytes (hint : UInt8) (packetId : Nat) (body : Str) : Str :=
  put16 packetId ++ (bytesIf (!isLegacy hint) [0x00] ++ body)

theorem length_filterBytes {body} : (filterBytes hint packetId body).length =
      2 + ((bytesIf (!isLegacy hint) [0x00]).length + body.length) := by
  rw [filterBytes, length_append, length_append, length_put16]

theorem filterHeader_whole {body : Str} (hid : packetId < 65536) (hbody : isLegacy hint → body ≠ [])
    (hfits : (filterBytes hint packetId body).length ≤ 268435455) :
    ∃ pos payloadEnd, filterHeader true hint (whole first (filterBytes hint packetId body)) =
        .ok ((packetId, {}, payloadEnd), pos) ∧
      Placed (whole first (filterBytes hint packetId body)) pos body ∧
      pos + body.length = payloadEnd := by
  have hfive : 3 ≤ (filterBytes hint packetId body).length := by
    rw [length_filterBytes]
    by_cases hlegacy : isLegacy hint
    · have hpos := length_pos_iff.2 (hbody hlegacy)
      omega
    · rw [Bool.eq_false_iff.2 hlegacy, bytesIf, Bool.not_false, if_pos rfl, length_singleton]
      omega
  obtain ⟨hheader, hlength, htwo, hplaced⟩ := @whole_spec first _ hfits
  generalize whole first (filterBytes hint packetId body) = buf at *
  generalize hn : (filterBytes hint packetId body).length = n at *
  rw [filterBytes] at hn hplaced
  simp only [placed_append, length_append, length_put16] at hn hplaced
  obtain ⟨hpacketId, hproperties, hrest⟩ := hplaced
  refine ⟨_, headerLength n + n, ?_, hrest, by omega⟩
  rw [filterHeader, refuse_of_not (by omega), ok_bind, beginPacket_memory, ok_bind, hheader]
  simp only [ok_bind]
  rw [refuse_of_not (by omega), ok_bind, hpacketId.read16 hid, ok_bind,
    optional_empty hproperties (by omega)]
  rfl

theorem subscribe_whole {p} (hp : p.properties = {}) (hid : p.packetId < 65536)
    (hsubs : ∀ sub ∈ p.subscriptions, ValidText sub.1 ∧ ValidOptions hint sub.2)
    (hsome : isLegacy hint → p.subscriptions ≠ [])
    (hfits : (filterBytes hint p.packetId (p.subscriptions.flatMap subscriptionBytes)).length ≤
      268435455) :
    ∃ bytes, serializeSubscribe hint p = .ok bytes ∧
      parsePacket hint bytes = .ok (.subscribe p) := by
  have htotal : 2 + (bytesIf (!isLegacy hint) [0x00]).length +
      (p.subscriptions.map fun sub => 2 + sub.1.length + 1).sum =
        (filterBytes hint p.packetId (p.subscriptions.flatMap subscriptionBytes)).length := by
    rw [length_filterBytes, length_flatMap]
    simp [subscriptionBytes, Nat.add_assoc]
  have hbody := fun hlegacy => @flatMap_bytes_ne_nil _ subscriptionBytes _
    (fun sub => by rw [length_subscriptionBytes]; omega) (hsome hlegacy)
  refine ⟨whole 0x82 (filterBytes hint p.packetId (p.subscriptions.flatMap subscriptionBytes)),
    ?_, ?_⟩
  · rw [serializeSubscribe, hp, serializeIf_empty, ok_bind]
    simp only [htotal]
    rw [serializeSubscriptions_eq fun sub hsub => (hsubs sub hsub).1, ok_bind, append_assoc]
    rfl
  · obtain ⟨pos, payloadEnd, hheader, hplaced, hend⟩ := filterHeader_whole hid hbody hfits
    rw [parsePacket_whole hfits rfl rfl, parseTyped, parseSubscribe, hheader]
    simp only [ok_bind]
    rw [subscriptionsLoop_placed hsubs _ _ _ hplaced hend (Nat.le_refl _), ← hp]
    rfl

theorem unsubscribe_whole {p} (hp : p.properties = {})
    (hid : p.packetId < 65536) (hfilters : ∀ f ∈ p.topicFilters, ValidText f)
    (hsome : isLegacy hint → p.topicFilters ≠ [])
    (hfits : (filterBytes hint p.packetId (p.topicFilters.flatMap textBytes)).length ≤ 268435455) :
    ∃ bytes, serializeUnsubscribe hint p = .ok bytes ∧
      parsePacket hint bytes = .ok (.unsubscribe p) := by
  have htotal : 2 + (bytesIf (!isLegacy hint) [0x00]).length +
      (p.topicFilters.map fun f => 2 + f.length).sum =
        (filterBytes hint p.packetId (p.topicFilters.flatMap textBytes)).length := by
    rw [length_filterBytes, length_flatMap]
    simp [Nat.add_assoc]
  have hbody := fun hlegacy => @flatMap_bytes_ne_nil _ textBytes _
    (fun f => by rw [length_textBytes]; omega) (hsome hlegacy)
  refine ⟨whole 0xA2 (filterBytes hint p.packetId (p.topicFilters.flatMap textBytes)), ?_, ?_⟩
  · rw [serializeUnsubscribe, hp, serializeIf_empty, ok_bind]
    simp only [htotal]
    rw [serializeFilters_eq hfilters, ok_bind, append_assoc]
    rfl
  · obtain ⟨pos, payloadEnd, hheader, hplaced, hend⟩ := filterHeader_whole hid hbody hfits
    rw [parsePacket_whole hfits rfl rfl, parseTyped, parseUnsubscribe, hheader]
    simp only [ok_bind]
    rw [topicFiltersLoop_placed hfilters _ _ _ hplaced hend (Nat.le_refl _), ← hp]
    rfl

/-! ## SUBACK and UNSUBACK -/

theorem reasonCodesLoop_placed {codes} :
    TakesAll buf payloadEnd (fun code => [code]) codes (reasonCodesLoop buf payloadEnd) := by
  refine takesAll (fun rounds acc => by cases rounds <;> simp [reasonCodesLoop]) ?_
  refine fun code _ => ⟨Nat.one_pos, fun rounds pos acc hplaced hend => ?_⟩
  rw [reasonCodesLoop, if_pos (by exact hend), hplaced.read]
  rfl

theorem codesBody_placed {c : Bool} {codes : List UInt8} (hcodes : codes ≠ [])
    (h : Placed buf pos (bytesIf c [0x00] ++ codes))
    (hend : pos + (bytesIf c [0x00] ++ codes).length = payloadEnd) :
    codesBody c buf packetId pos payloadEnd = .ok ⟨packetId, {}, codes⟩ := by
  have hpos := length_pos_iff.2 hcodes
  obtain ⟨hproperties, hrest⟩ := placed_append.1 h
  rw [length_append] at hend
  rw [codesBody, decide_eq_true (by omega : pos < payloadEnd), Bool.and_true,
    optional_empty hproperties (by omega)]
  simp only [ok_bind]
  rw [reasonCodesLoop_placed _ _ _ (by rwa [flatMap_singleton']) (by rw [flatMap_singleton']; omega)
    (Nat.le_refl _), ok_bind, nil_append, refuse_of_not hcodes]
  rfl

theorem codesHeader_whole {minimum : Nat} {rest : Str} (hid : packetId < 65536)
    (hminimum : minimum ≤ 4 + rest.length) (hfits : (put16 packetId ++ rest).length ≤ 268435455) :
    ∃ pos, codesHeader true minimum (whole first (put16 packetId ++ rest)) =
        .ok ((packetId, 2 + rest.length), pos) ∧
      Placed (whole first (put16 packetId ++ rest)) pos rest := by
  obtain ⟨hheader, hlength, htwo, hplaced⟩ := @whole_spec first _ hfits
  have hn : (put16 packetId ++ rest).length = 2 + rest.length := by simp
  generalize whole first (put16 packetId ++ rest) = buf at *
  rw [hn] at hheader hlength hplaced htwo
  obtain ⟨hpacketId, hrest⟩ := placed_append.1 hplaced
  rw [length_put16] at hrest
  refine ⟨_, ?_, hrest⟩
  rw [codesHeader, refuse_of_not (by omega), ok_bind, beginPacket_memory, ok_bind, hheader]
  simp only [ok_bind]
  rw [refuse_of_not (by omega), ok_bind, refuse_of_not (by omega), ok_bind, hpacketId.read16 hid,
    ok_bind]

theorem serializeCodes_eq (hp : p.properties = {}) : serializeCodes first p =
      .ok (whole first (put16 p.packetId ++ ([0x00] ++ p.reasonCodes))) := by
  have hempty : serializeProperties {} = .ok [0x00] := rfl
  rw [serializeCodes, hp, hempty, ok_bind, whole, append_assoc]
  refine congrArg (fun n => Except.ok (framed first n _)) ?_
  simp only [length_append, length_put16, Nat.add_assoc]

def CodesPacket.sentCodes (hint : UInt8) (p : CodesPacket) : List UInt8 :=
  if isLegacy hint then p.reasonCodes.map legacySubackCode else p.reasonCodes

theorem CodesPacket.length_sentCodes (p : CodesPacket) :
    (p.sentCodes hint).length = p.reasonCodes.length := by
  rw [CodesPacket.sentCodes]
  split
  · exact length_map _
  · rfl

theorem serializeSuback_eq (hp : p.properties = {}) :
    serializeSuback hint p = .ok (whole 0x90 (filterBytes hint p.packetId (p.sentCodes hint))) := by
  rw [serializeSuback, filterBytes, CodesPacket.sentCodes]
  by_cases hlegacy : isLegacy hint
  · rw [if_pos hlegacy, if_pos hlegacy, hlegacy, whole]
    refine congrArg (fun n => Except.ok (framed 0x90 n _)) ?_
    rw [length_append, length_put16, length_append, length_map]
    exact congrArg (2 + ·) (Nat.zero_add _).symm
  · rw [if_neg hlegacy, if_neg hlegacy, Bool.eq_false_iff.2 hlegacy]
    exact serializeCodes_eq hp

theorem parseSuback_whole {codes} (hid : packetId < 65536) (hcodes : codes ≠ [])
    (hfits : (filterBytes hint packetId codes).length ≤ 268435455) :
    parsePacket hint (whole 0x90 (filterBytes hint packetId codes)) =
      .ok (.suback ⟨packetId, {}, codes⟩) := by
  have hpos := length_pos_iff.2 hcodes
  obtain ⟨pos, hheader, hplaced⟩ := codesHeader_whole hid
    (by rw [length_append]; omega : 5 ≤ 4 + (bytesIf (!isLegacy hint) [0x00] ++ codes).length)
    hfits
  rw [parsePacket_whole hfits rfl rfl, parseTyped, parseSuback, filterBytes, hheader]
  simp only [ok_bind]
  rw [sub_eq (by omega), ok_bind, codesBody_placed hcodes hplaced (by omega)]
  rfl

theorem unsuback_whole (hp : p.properties = {}) (hid : p.packetId < 65536)
    (hcodes : isLegacy hint = false → p.reasonCodes ≠ [])
    (hfits : (filterBytes hint p.packetId p.reasonCodes).length ≤ 268435455) :
    ∃ bytes, serializeUnsuback hint p = .ok bytes ∧ parsePacket hint bytes =
        .ok (.unsuback (if isLegacy hint then { p with reasonCodes := [] } else p)) := by
  obtain ⟨packetId, properties, codes⟩ := p
  cases hp
  rw [serializeUnsuback]
  by_cases hlegacy : isLegacy hint
  · have hshort : (put16 packetId ++ []).length ≤ 268435455 := by simp
    obtain ⟨pos, hheader, -⟩ := codesHeader_whole hid (Nat.le_refl 4) hshort
    refine ⟨whole 0xB0 (put16 packetId ++ []), by rw [if_pos hlegacy, append_nil]; rfl, ?_⟩
    rw [parsePacket_whole hshort rfl rfl, parseTyped, parseUnsuback, hheader]
    simp only [ok_bind, hlegacy, if_true]
    rfl
  · have hv5 := Bool.eq_false_iff.2 hlegacy
    refine ⟨_, by rw [if_neg hlegacy]; exact serializeCodes_eq rfl, ?_⟩
    rw [filterBytes, hv5, Bool.not_false] at hfits
    obtain ⟨pos, hheader, hplaced⟩ := codesHeader_whole hid (Nat.le_add_right 4 _) hfits
    refine (parsePacket_whole hfits rfl rfl).trans ?_
    rw [parseTyped, parseUnsuback, hheader]
    simp only [ok_bind, hv5, Bool.false_eq_true, if_false]
    rw [sub_eq (by omega), ok_bind]
    exact congrArg (· >>= _) (codesBody_placed (hcodes hv5) hplaced (by dsimp only; omega))

/-! ## The round trip -/

def serializePacket (hint : UInt8) : Packet → Option (Checked Status Str)
  | .publish p => some (serializePublish hint p)
  | .puback p => some (serializePuback hint p)
  | .pubrec p => some (serializePubrec hint p)
  | .pubrel p => some (serializePubrel hint p)
  | .pubcomp p => some (serializePubcomp hint p)
  | .subscribe p => some (serializeSubscribe hint p)
  | .suback p => some (serializeSuback hint p)
  | .unsubscribe p => some (serializeUnsubscribe hint p)
  | .unsuback p => some (serializeUnsuback hint p)
  | .disconnect p => some (serializeDisconnect hint p)
  | .connect _ | .connack _ | .pingreq | .pingresp | .auth _ => none

def AckPacket.Valid (p : AckPacket) : Prop := p.properties = {} ∧ p.packetId < 65536

/-- The packets that the serializer and the parser take. -/
def Packet.Valid (hint : UInt8) : Packet → Prop
  | .publish p => p.properties = {} ∧ p.qos ≤ 2 ∧ ValidText p.topicName ∧ p.packetId < 65536 ∧
      (publishBytes hint p).length ≤ 268435455
  | .puback p | .pubrec p | .pubrel p | .pubcomp p => p.Valid
  | .subscribe p => p.properties = {} ∧ p.packetId < 65536 ∧
      (∀ sub ∈ p.subscriptions, ValidText sub.1 ∧ ValidOptions hint sub.2) ∧
      (isLegacy hint → p.subscriptions ≠ []) ∧
      (filterBytes hint p.packetId (p.subscriptions.flatMap subscriptionBytes)).length ≤ 268435455
  | .unsubscribe p => p.properties = {} ∧ p.packetId < 65536 ∧
      (∀ f ∈ p.topicFilters, ValidText f) ∧ (isLegacy hint → p.topicFilters ≠ []) ∧
      (filterBytes hint p.packetId (p.topicFilters.flatMap textBytes)).length ≤ 268435455
  | .suback p => p.properties = {} ∧ p.packetId < 65536 ∧ p.reasonCodes ≠ [] ∧
      (filterBytes hint p.packetId (p.sentCodes hint)).length ≤ 268435455
  | .unsuback p => p.properties = {} ∧ p.packetId < 65536 ∧
      (isLegacy hint = false → p.reasonCodes ≠ []) ∧
      (filterBytes hint p.packetId p.reasonCodes).length ≤ 268435455
  | .disconnect p => p.properties = {}
  | .connect _ | .connack _ | .pingreq | .pingresp | .auth _ => False

/-- What the version of the protocol sends of a packet. -/
def Packet.carried (hint : UInt8) : Packet → Packet
  | .publish p => .publish { p with packetId := if 0 < p.qos then p.packetId else 0 }
  | .puback p => .puback (p.carried hint)
  | .pubrec p => .pubrec (p.carried hint)
  | .pubrel p => .pubrel (p.carried hint)
  | .pubcomp p => .pubcomp (p.carried hint)
  | .suback p => .suback { p with reasonCodes := p.sentCodes hint }
  | .unsuback p => .unsuback (if isLegacy hint then { p with reasonCodes := [] } else p)
  | .disconnect p => .disconnect (if isLegacy hint then { p with reasonCode := 0x00 } else p)
  | p => p

theorem ack_whole {p} (hp : p.properties = {}) {type : PacketType} {carried}
    (htype : PacketType.ofByte first = some type)
    (hflags : type.flags.any (fun flags => first &&& 0x0F != flags) = false)
    (hparsed : parseTyped true hint (whole first (ackBytes hint p)) type = .ok carried) :
    ∃ bytes, some (serializeAck first hint p) = some (.ok bytes) ∧
      parsePacket hint bytes = .ok carried := by
  have hsmall : (ackBytes hint p).length ≤ 268435455 := by
    rw [length_ackBytes]
    split <;> simp
  exact ⟨_, congrArg some (serializeAck_eq hp),
    (parsePacket_whole hsmall htype hflags).trans hparsed⟩

/-- A valid packet is read back as far as it is sent. -/
theorem packets_round_trip {hint packet} (h : packet.Valid hint) :
    ∃ bytes, serializePacket hint packet = some (.ok bytes) ∧
      parsePacket hint bytes = .ok (packet.carried hint) := by
  have hstrict : ∀ {first : UInt8} {p : AckPacket}, p.Valid →
      parseAckStrict true hint (whole first (ackBytes hint p)) = .ok (p.carried hint) :=
    fun hp => (parseAck_whole hp.2 hp.1).1
  have hloose : ∀ {first : UInt8} {p : AckPacket}, p.Valid →
      parseAckLoose true hint (whole first (ackBytes hint p)) = .ok (p.carried hint) :=
    fun hp => (parseAck_whole hp.2 hp.1).2
  cases packet with
  | connect | connack | pingreq | pingresp | auth => exact h.elim
  | publish p =>
    obtain ⟨hp, hqos, htopic, hid, hfits⟩ := h
    obtain ⟨htype, -⟩ := publishFirst_fields p.dup ⟨p.qos, by omega⟩ p.retain
    exact ⟨_, congrArg some (serializePublish_eq hp htopic hfits),
      (parsePacket_whole hfits htype rfl).trans (parsePublish_whole hp hqos htopic hid hfits)⟩
  | puback | pubrec => exact ack_whole h.1 rfl rfl (congrArg (· >>= _) (hstrict h))
  | pubrel | pubcomp => exact ack_whole h.1 rfl rfl (congrArg (· >>= _) (hloose h))
  | subscribe p =>
    obtain ⟨hp, hid, hsubs, hsome, hfits⟩ := h
    obtain ⟨bytes, hbytes, hparsed⟩ := subscribe_whole hp hid hsubs hsome hfits
    exact ⟨bytes, congrArg some hbytes, hparsed⟩
  | unsubscribe p =>
    obtain ⟨hp, hid, hfilters, hsome, hfits⟩ := h
    obtain ⟨bytes, hbytes, hparsed⟩ := unsubscribe_whole hp hid hfilters hsome hfits
    exact ⟨bytes, congrArg some hbytes, hparsed⟩
  | suback p =>
    obtain ⟨hp, hid, hcodes, hfits⟩ := h
    have hsent : p.sentCodes hint ≠ [] := by
      rw [← length_pos_iff, p.length_sentCodes]
      exact length_pos_iff.2 hcodes
    refine ⟨_, congrArg some (serializeSuback_eq hp), ?_⟩
    rw [parseSuback_whole hid hsent hfits, Packet.carried, hp]
  | unsuback p =>
    obtain ⟨hp, hid, hcodes, hfits⟩ := h
    obtain ⟨bytes, hbytes, hparsed⟩ := unsuback_whole hp hid hcodes hfits
    exact ⟨bytes, congrArg some hbytes, hparsed⟩
  | disconnect p =>
    obtain ⟨bytes, hbytes, hparsed⟩ := parseDisconnect_whole h
    exact ⟨bytes, congrArg some hbytes, hparsed⟩

theorem subscribe_round_trip : ∃ bytes,
    serializePacket 5 (.subscribe ⟨7, {}, [([0x61], ⟨1, true, false, 2⟩)]⟩) = some (.ok bytes) ∧
      parsePacket 5 bytes = .ok (.subscribe ⟨7, {}, [([0x61], ⟨1, true, false, 2⟩)]⟩) := by
  have hvalid : ∀ sub ∈ [(([0x61], ⟨1, true, false, 2⟩) : Str × SubscriptionOptions)],
      ValidText sub.1 ∧ ValidOptions 5 sub.2 := by
    intro sub hsub
    rw [mem_singleton.1 hsub]
    exact ⟨by decide, by simp, by simp, fun h => by cases h⟩
  have h : Packet.Valid 5 (.subscribe ⟨7, {}, [([0x61], ⟨1, true, false, 2⟩)]⟩) :=
    ⟨rfl, by decide, hvalid, fun _ => cons_ne_nil _ _, by decide⟩
  exact packets_round_trip h

/-- A tabulator in a topic is refused; so are packets without codes and, before MQTT 5, without
filters; before MQTT 5 the codes are mapped, and the serializer writes options that the parser
refuses. -/
theorem packets_not_round_trip :
    serializePublish 5 ⟨false, 0, false, [0x09], 0, {}, []⟩ = fail .packetInvalid ∧
    (serializeSuback 5 ⟨1, {}, []⟩ = .ok [0x90, 3, 0, 1, 0] ∧
      parsePacket 5 [0x90, 3, 0, 1, 0] = fail .packetInvalid) ∧
    (serializeUnsuback 5 ⟨1, {}, []⟩ = .ok [0xB0, 3, 0, 1, 0] ∧
      parsePacket 5 [0xB0, 3, 0, 1, 0] = fail .packetInvalid) ∧
    (serializeSubscribe 4 ⟨1, {}, []⟩ = .ok [0x82, 2, 0, 1] ∧
      parsePacket 4 [0x82, 2, 0, 1] = fail .packetIncomplete) ∧
    (serializeUnsubscribe 4 ⟨1, {}, []⟩ = .ok [0xA2, 2, 0, 1] ∧
      parsePacket 4 [0xA2, 2, 0, 1] = fail .packetIncomplete) ∧
    (serializeSuback 4 ⟨1, {}, [0x87]⟩ = .ok [0x90, 3, 0, 1, 0x80] ∧
      parsePacket 4 [0x90, 3, 0, 1, 0x80] = .ok (.suback ⟨1, {}, [0x80]⟩)) ∧
    (serializeSubscribe 4 ⟨1, {}, [([0x61], ⟨0, true, false, 0⟩)]⟩ =
        .ok [0x82, 6, 0, 1, 0, 1, 0x61, 0x04] ∧
      parsePacket 4 [0x82, 6, 0, 1, 0, 1, 0x61, 0x04] = fail .packetInvalid) := by
  decide +kernel

end Mqtts.Protocol
