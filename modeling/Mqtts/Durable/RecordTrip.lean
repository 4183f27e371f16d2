import Mqtts.Durable.RetainRecord

/-!
# Retain and subscription records read back

What the writers of the retain log put is taken by `read_retain_record` as a whole: neither a part
of it nor something longer is a record.
-/

namespace Mqtts.Durable

open Codec Codec.Decoder List

/-! ## What the writers take -/

/-- A text that `Encoder::text` does not refuse. -/
abbrev Writable (s : Str) : Prop := s.length < 2 ^ 32

structure StoredRetain.Storable (r : StoredRetain) : Prop where
  topic : retainTopicOk r.topic ∧ Writable r.topic
  qos : r.qos ≤ 2
  expiry : 0 ≤ r.expiresMs ∧ r.expiresMs < 2 ^ 63
  payload : r.payload ≠ [] ∧ Writable r.payload
  sender : Writable r.sender
  format : r.payloadFormat < 256 ∧ (r.hasPayloadFormat = false → r.payloadFormat = 0)
  texts : Writable r.contentType ∧ Writable r.responseTopic ∧ Writable r.correlationData
  properties : ∀ p ∈ r.userProperties, Writable p.1 ∧ Writable p.2

/-! ## Fields -/

theorem extends_signed : Extends (signed : Decode Int) :=
  (extends_word 8).bind fun _ => extends_pure _

theorem decodes_signed {z : Int} (h : 0 ≤ z ∧ z < 2 ^ 63) :
    Decodes (signed : Decode Int) (putWord 8 (ofInt64 z)) z := by
  have hof : ofInt64 z = z.toNat := by
    unfold ofInt64
    omega
  have hto : toInt64 (ofInt64 z) = z := by
    rw [hof, toInt64, if_pos (by omega)]
    omega
  have hz : Decodes (signed : Decode Int) (putWord 8 (ofInt64 z)) (toInt64 (ofInt64 z)) :=
    (decodes_word (by omega)).map toInt64
  rwa [hto] at hz

theorem extends_readTextPair : Extends readTextPair :=
  extends_text.bind fun _ => extends_text.bind fun _ => extends_pure _

theorem decodes_textPair {p : Str × Str} (h : Writable p.1 ∧ Writable p.2) :
    Decodes readTextPair (putTextPair p) p :=
  (decodes_text h.1).bind ((decodes_text h.2).map (p.1, ·))

section Flagged

variable {α : Type} {flags bit : Nat} {absent a : α} {field : Decode α}

theorem extends_flagged (h : Extends field) : Extends (flagged flags bit absent field) := by
  unfold flagged
  split
  · exact h
  · exact extends_pure absent

theorem decodes_flagged {c : Prop} [Decidable c] {bs : Str} (hbit : flags &&& bit ≠ 0 ↔ c)
    (h : c → Decodes field bs a) (habsent : ¬ c → a = absent) :
    Decodes (flagged flags bit absent field) (if c then bs else []) a := by
  unfold flagged
  by_cases hc : c
  · rw [if_pos (hbit.2 hc), if_pos hc]
    exact h hc
  · rw [if_neg (mt hbit.1 hc), if_neg hc, habsent hc]
    exact decodes_pure absent

end Flagged

/-! ## Properties -/

variable {r : StoredRetain}

theorem extends_readRetainProperties : Extends (readRetainProperties r) := by
  refine extends_byte.bind fun _ => (extends_flagged extends_byte).bind fun _ => ?_
  refine (extends_flagged extends_text).bind fun _ => ?_
  refine (extends_flagged extends_text).bind fun _ => ?_
  refine (extends_flagged extends_text).bind fun _ => ?_
  refine (extends_flagged ?_).bind fun _ => extends_pure _
  exact (extends_word 4).bind fun n => extends_times extends_readTextPair n

theorem retainPropertyFlags_bits (r : StoredRetain) : retainPropertyFlags r < 256 ∧
    (retainPropertyFlags r &&& 1 ≠ 0 ↔ r.hasPayloadFormat) ∧
    (retainPropertyFlags r &&& 2 ≠ 0 ↔ r.contentType ≠ []) ∧
    (retainPropertyFlags r &&& 4 ≠ 0 ↔ r.responseTopic ≠ []) ∧
    (retainPropertyFlags r &&& 8 ≠ 0 ↔ r.correlationData ≠ []) ∧
    (retainPropertyFlags r &&& 16 ≠ 0 ↔ r.userProperties ≠ []) := by
  unfold retainPropertyFlags
  split_ifs <;> simp_all

def readProperties (r : StoredRetain) : List (Str × Str) :=
  r.userProperties.take (r.userProperties.length % 2 ^ 32)

def unread (r : StoredRetain) : Str :=
  (r.userProperties.drop (r.userProperties.length % 2 ^ 32)).flatMap putTextPair

theorem unread_eq_nil : unread r = [] ↔ r.userProperties.length < 2 ^ 32 := by
  have hpair : ∀ p, putTextPair p ≠ [] := fun p h => by
    have := congrArg length h
    simp [putTextPair] at this
  have hmod := Nat.mod_lt r.userProperties.length (Nat.two_pow_pos 32)
  rw [unread, flatMap_eq_nil_iff]
  constructor
  · intro h
    have hdrop := eq_nil_iff_forall_not_mem.2 fun p hp => hpair p (h p hp)
    rw [drop_eq_nil_iff] at hdrop
    omega
  · intro h
    rw [Nat.mod_eq_of_lt h, drop_length]
    simp

theorem decodes_count {n} {ps : List (Str × Str)} (hlength : ps.length = n % 2 ^ 32)
    (h : ∀ p ∈ ps, Writable p.1 ∧ Writable p.2) :
    Decodes (do let count ← word 4; times readTextPair count)
      (putWord 4 n ++ ps.flatMap putTextPair) ps := by
  have hword : Decodes (word 4 : Decode Nat) (putWord 4 n) ps.length := by
    rw [hlength, ← putWord_mod]
    exact decodes_word (Nat.mod_lt n (by omega))
  exact hword.bind (decodes_times fun p hp => decodes_textPair (h p hp))

def putReadProperties (r : StoredRetain) : Str :=
  putByte (retainPropertyFlags r) ++
    ((if r.hasPayloadFormat then putByte r.payloadFormat else []) ++
    ((if r.contentType ≠ [] then putText r.contentType else []) ++
    ((if r.responseTopic ≠ [] then putText r.responseTopic else []) ++
    ((if r.correlationData ≠ [] then putText r.correlationData else []) ++
    (if r.userProperties ≠ [] then
      putWord 4 r.userProperties.length ++ (readProperties r).flatMap putTextPair
    else [])))))

theorem putRetainProperties_eq (r : StoredRetain) :
    putRetainProperties r = putReadProperties r ++ unread r := by
  have hsplit := congrArg (flatMap putTextPair)
    (take_append_drop (r.userProperties.length % 2 ^ 32) r.userProperties)
  rw [flatMap_append] at hsplit
  by_cases hne : r.userProperties = []
  · simp [putRetainProperties, putReadProperties, unread, hne]
  · simp [putRetainProperties, putReadProperties, unread, readProperties, hne, ← hsplit]

theorem decodes_retainProperties (h : r.Storable) :
    Decodes (readRetainProperties (plainRetain r.topic r.qos r.expiresMs r.payload r.sender))
      (putReadProperties r) { r with userProperties := readProperties r } := by
  obtain ⟨hflags, h1, h2, h4, h8, h16⟩ := retainPropertyFlags_bits r
  have hread : ∀ p ∈ readProperties r, Writable p.1 ∧ Writable p.2 := fun p hp =>
    h.properties p (mem_of_mem_take hp)
  have hlength : (readProperties r).length = r.userProperties.length % 2 ^ 32 :=
    length_take_of_le (Nat.mod_le _ _)
  have hnone : ¬ r.userProperties ≠ [] → readProperties r = [] := fun hc => by
    simp [readProperties, not_not.1 hc]
  have hformat : (retainPropertyFlags r &&& 1 != 0) = r.hasPayloadFormat := by
    rw [Bool.eq_iff_iff, ← h1]
    simp
  unfold readRetainProperties
  refine (decodes_byte hflags).bind ?_
  refine (decodes_flagged h1 (fun _ => decodes_byte h.format.1) fun hc =>
    h.format.2 (by simpa using hc)).bind ?_
  refine (decodes_flagged h2 (fun _ => decodes_text h.texts.1) not_not.1).bind ?_
  refine (decodes_flagged h4 (fun _ => decodes_text h.texts.2.1) not_not.1).bind ?_
  refine (decodes_flagged h8 (fun _ => decodes_text h.texts.2.2) not_not.1).bind ?_
  rw [hformat]
  exact (decodes_flagged h16 (fun _ => decodes_count hlength hread) hnone).map
    fun ps => { r with userProperties := ps }

/-! ## Records -/

def ReadsOnly (data : Str) (record : Str × Option StoredRetain) : Prop :=
  decodeRetainRecord data = .ok record ∧
    (∀ part, part <+: data → part ≠ data → ∃ e, decodeRetainRecord part = .error e) ∧
    ∀ more, more ≠ [] → ∃ e, decodeRetainRecord (data ++ more) = .error e

theorem readsOnly_of_only {d data record} (hd : decodeRetainRecord = run d)
    (h : DecodesOnly d data record) : ReadsOnly data record := by
  rw [ReadsOnly, hd]
  refine ⟨by rw [run, h.whole], fun part hpart hne => ?_, fun more hmore => ?_⟩
  · obtain ⟨e, he⟩ := h.cut hpart hne
    exact ⟨e, by rw [run, he]⟩
  · obtain ⟨e, he⟩ := h.longer hmore
    exact ⟨e, by rw [run, he]⟩

theorem readsOnly_clear {topic} (h : retainTopicOk topic ∧ Writable topic) :
    ReadsOnly (putRetainClear topic) (topic, none) := by
  rw [putRetainClear, ← append_nil (putText topic)]
  refine readsOnly_of_only rfl ?_
  refine (decodes_byte (by omega)).only extends_byte ?_
  refine (decodes_byte (by decide)).only extends_byte ?_
  refine (decodes_refuse (by decide)).only extends_refuse ?_
  refine (decodes_text h.2).only extends_text ?_
  refine (decodes_refuse (by simp [h.1])).only extends_refuse ?_
  exact decodesOnly_done _

theorem readsOnly_set (h : r.Storable) : ∃ data, putRetainSet r = data ++ unread r ∧
    ReadsOnly data (r.topic, some { r with userProperties := readProperties r }) := by
  refine ⟨putByte 1 ++ (putByte storedRetainVersion ++ (putText r.topic ++ (putByte r.qos ++
    (putWord 8 (ofInt64 r.expiresMs) ++ (putText r.payload ++ (putText r.sender ++
      (putReadProperties r ++ []))))))), ?_, readsOnly_of_only rfl ?_⟩
  · simp [putRetainSet, putRetainFields, putRetainProperties_eq]
  refine (decodes_byte (by omega)).only extends_byte ?_
  refine (decodes_byte (by decide)).only extends_byte ?_
  refine (decodes_refuse (by decide)).only extends_refuse ?_
  refine (decodes_text h.topic.2).only extends_text ?_
  refine (decodes_refuse (by simp [h.topic.1])).only extends_refuse ?_
  refine (decodes_refuse (by decide)).only extends_refuse ?_
  refine (decodes_byte (by have := h.qos; omega)).only extends_byte ?_
  refine (decodes_refuse (not_lt.2 h.qos)).only extends_refuse ?_
  refine (decodes_signed h.expiry).only extends_signed ?_
  refine (decodes_refuse (Int.not_lt.2 h.expiry.1)).only extends_refuse ?_
  refine (decodes_text h.payload.2).only extends_text ?_
  refine (decodes_refuse h.payload.1).only extends_refuse ?_
  refine (decodes_text h.sender).only extends_text ?_
  refine (decodes_retainProperties h).only extends_readRetainProperties ?_
  exact decodesOnly_done _

/-- The number of user properties is written in 32 bits, so a message with more of them is not read
back. -/
theorem readsOnly_set_iff (h : r.Storable) :
    ReadsOnly (putRetainSet r) (r.topic, some r) ↔ r.userProperties.length < 2 ^ 32 := by
  obtain ⟨data, hdata, hreads⟩ := readsOnly_set h
  constructor
  · intro hset
    refine unread_eq_nil.1 (by_contra fun hmore => ?_)
    obtain ⟨e, he⟩ := hreads.2.2 _ hmore
    rw [← hdata, hset.1] at he
    cases he
  · intro hlength
    have hread : readProperties r = r.userProperties := by
      rw [readProperties, Nat.mod_eq_of_lt hlength, take_length]
    rw [unread_eq_nil.2 hlength, append_nil] at hdata
    rwa [hread, ← hdata] at hreads

/-! ## Subscriptions -/

theorem subscriptionFlags_spec : ∀ qos < 3, ∀ noLocal asPublished, ∀ handling < 3,
    let flags := subscriptionFlags ⟨qos, noLocal, asPublished, handling⟩
    flags < 256 ∧ ¬ (flags &&& 0xC0 ≠ 0 ∨ (flags >>> 4) &&& 0x03 = 3) ∧
      ¬ flags &&& 0x03 ≠ qos &&& 0x03 ∧ (flags &&& 0x04 != 0) = noLocal ∧
      (flags &&& 0x08 != 0) = asPublished ∧ (flags >>> 4) &&& 0x03 = handling := by
  decide

variable {sub : StoredSubscription} (hqos : sub.qos ≤ 2) (hhandling : sub.retainHandling ≤ 2)

include hqos hhandling

theorem decodes_subscriptionOptions :
    Decodes (readSubscriptionOptions sub.qos)
      (putByte storedSubscriptionVersion ++ putByte (subscriptionFlags sub)) sub := by
  obtain ⟨hlt, hvalid, hmatch, hlocal, hpublished, hretain⟩ :=
    subscriptionFlags_spec sub.qos (by omega) sub.noLocal sub.retainAsPublished sub.retainHandling
      (by omega)
  rw [← append_nil (putByte (subscriptionFlags sub))]
  refine (decodes_byte (by decide)).bind ((decodes_refuse (by decide)).bind ?_)
  refine (decodes_byte hlt).bind ((decodes_refuse hvalid).bind ((decodes_refuse hmatch).bind ?_))
  rw [hlocal, hpublished, hretain]
  exact decodes_pure sub

theorem decodes_readSubscription :
    Decodes readSubscription (putByte sub.qos ++
      (putByte storedSubscriptionVersion ++ putByte (subscriptionFlags sub))) sub := by
  refine (decodes_byte (by omega)).bind ((decodes_refuse (by omega)).bind fun rest => ?_)
  exact decodes_subscriptionOptions hqos hhandling rest

def readLoggedSubscription : Decode (Str × StoredSubscription) := do
  let filter ← text
  let sub ← readSubscription
  pure (filter, sub)

theorem decodes_putSubscription {filter} (hfilter : Writable filter) :
    Decodes readLoggedSubscription (putSubscription filter sub) (filter, sub) ∧
      Decodes (readCheckpointSubscription true) (putSubscription filter sub) (filter, sub) := by
  constructor
  · exact (decodes_text hfilter).bind ((decodes_readSubscription hqos hhandling).map (filter, ·))
  · refine (decodes_text hfilter).bind ((decodes_byte (by omega)).bind ?_)
    refine (decodes_refuse (not_lt.2 hqos)).bind ?_
    exact (decodes_subscriptionOptions hqos hhandling).map (filter, ·)

/-! ## All records -/

/-- What is read back of a message and of a subscription. -/
structure Unambiguous (r : StoredRetain) (filter : Str) (sub : StoredSubscription) : Prop where
  set : ReadsOnly (putRetainSet r) (r.topic, some r)
  clear : ReadsOnly (putRetainClear r.topic) (r.topic, none)
  logged : Decodes readLoggedSubscription (putSubscription filter sub) (filter, sub)
  checkpoint : Decodes (readCheckpointSubscription true) (putSubscription filter sub) (filter, sub)

/-- `write_retain_properties` casts the number of user properties to 32 bits, unlike the length of a
text, which it checks; so the reader of a message with more of them stops early. -/
theorem unambiguous_iff {filter} (h : r.Storable) (hfilter : Writable filter) :
    Unambiguous r filter sub ↔ r.userProperties.length < 2 ^ 32 := by
  obtain ⟨hlogged, hcheckpoint⟩ := decodes_putSubscription hqos hhandling hfilter
  rw [← readsOnly_set_iff h]
  exact ⟨fun hall => hall.set, fun hset => ⟨hset, readsOnly_clear h.topic, hlogged, hcheckpoint⟩⟩

omit hqos hhandling

def crowded (n : Nat) : StoredRetain :=
  ⟨[0x61], 0, 0, [0x62], [], false, 0, [], [], [], replicate n ([], [])⟩

theorem storable_crowded (n : Nat) : (crowded n).Storable := by
  constructor <;> simp [crowded, retainTopicOk, Writable]

theorem unambiguous_crowded : Unambiguous (crowded 1) [] ⟨1, true, false, 2⟩ :=
  (unambiguous_iff (by decide) (by decide) (storable_crowded 1) (by decide)).2 (by decide)

theorem crowded_not_read : (crowded (2 ^ 32)).Storable ∧
    ¬ ReadsOnly (putRetainSet (crowded (2 ^ 32))) ([0x61], some (crowded (2 ^ 32))) := by
  have hfew : ∀ n, ReadsOnly (putRetainSet (crowded n)) ([0x61], some (crowded n)) → n < 2 ^ 32 :=
    fun n h => by simpa [crowded] using (readsOnly_set_iff (storable_crowded n)).1 h
  exact ⟨storable_crowded _, fun h => lt_irrefl _ (hfew _ h)⟩

end Mqtts.Durable
