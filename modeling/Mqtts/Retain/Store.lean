import Mqtts.Durable.Retained
import Mqtts.Lib.Trie

/-!
# The retained store in memory

The calls of the store are atomic (each holds its lock). Contents are shared objects. Code outside
the store compares them by address, so a content carries its address; nothing here needs the
addresses to be distinct. Times are nanoseconds of the steady clock, and an absent expiry time is
`none`.
-/

namespace Mqtts.Retain

open Std
open Mqtts.Durable (RetainedProperties)

/-! ## Data -/

structure RetainConfig where
  maxMessages : Nat
  maxTotalBytes : Nat
  maxPayloadBytes : Nat

/-- The payload limit in force; 0 stands for 1 MiB. -/
def RetainConfig.payloadLimit (limits : RetainConfig) : Nat :=
  if limits.maxPayloadBytes = 0 then 1024 * 1024 else limits.maxPayloadBytes

structure RetainPacket where
  topicName : Str
  payload : Str
  qos : Nat
  messageExpiryInterval : Option Nat
  properties : RetainedProperties

/-- `SharedMessageContent`, with the address of the object. -/
structure Content where
  address : Nat
  topicName : Str
  payload : Str
  qos : Nat
  messageExpiryInterval : Option Nat
  properties : RetainedProperties
  sender : Str
  deriving DecidableEq

structure RetainedCopy where
  topic : Str
  content : Content
  expiresAt : Option Int
  deriving DecidableEq

structure NodeMessage where
  content : Content
  expiresAt : Option Int
  payloadBytes : Nat

inductive RejectReason where
  | payloadLimit
  | countLimit
  | byteLimit

inductive WriteKind where
  | stored
  | replaced
  | removed
  | absent
  | rejected (reason : RejectReason)

structure RetainWriteResult where
  kind : WriteKind := .absent
  messageDelta : Int := 0
  byteDelta : Int := 0

/-- The retained messages of a broker process in a trie over topic levels, with an index of the
messages that expire, a message count and a byte total. -/
structure RetainStore where
  root : Trie Str NodeMessage
  expiry : ExtTreeSet (Int × Str)
  messageCount : Nat
  totalBytes : Nat

def reached (expiresAt : Option Int) (now : Int) : Bool := expiresAt.any fun e => e ≤ now

theorem reached_mono {e now now'} (h : now ≤ now') (he : reached e now) : reached e now' := by
  cases e with
  | none => simp [reached] at he
  | some t =>
    simp only [reached, Option.any_some, decide_eq_true_eq] at he ⊢
    omega

namespace RetainStore

variable (s : RetainStore)

def empty : RetainStore := { root := .empty, expiry := ∅, messageCount := 0, totalBytes := 0 }

variable (now : Int) (topic : Str)

/-- The message stored for a topic. -/
def slot : Option NodeMessage := s.root.find (topicLevels topic)

/-! ## Calls -/

def peek (now : Int) : Option RetainedCopy :=
  if topic = [] then none
  else
    match s.slot topic with
    | none => none
    | some m =>
      if reached m.expiresAt now then none
      else some { topic, content := m.content, expiresAt := m.expiresAt }

variable (packet : RetainPacket) (expiry : ExtTreeSet (Int × Str))

def unindex (m : NodeMessage) (topic : Str) : ExtTreeSet (Int × Str) :=
  match m.expiresAt with
  | some e => expiry.erase (e, topic)
  | none => expiry

def index (expiresAt : Option Int) (topic : Str) : ExtTreeSet (Int × Str) :=
  match expiresAt with
  | some e => expiry.insert (e, topic)
  | none => expiry

/-- The index as `install` updates it: the new pair goes in first, and the pair of the
message that is replaced goes out unless it is the same. -/
def installIndex (existing : Option NodeMessage) (expiresAt : Option Int) (topic : Str) :
    ExtTreeSet (Int × Str) :=
  let expiry := index expiry expiresAt topic
  match existing with
  | some m => if expiresAt.isSome ∧ m.expiresAt = expiresAt then expiry else unindex expiry m topic
  | none => expiry

/-- The index as `store` updates it, which leaves it alone when the pair stays the same. -/
def storeIndex (existing : Option NodeMessage) (expiresAt : Option Int) (topic : Str) :
    ExtTreeSet (Int × Str) :=
  let sameKey := existing.any (fun m => m.expiresAt == expiresAt) && expiresAt.isSome
  let expiry := if sameKey then expiry else index expiry expiresAt topic
  match existing with
  | some m => if sameKey then expiry else unindex expiry m topic
  | none => expiry

/-- `erase_at` from the root: the size of the message that was there, and the store
without it. -/
def eraseAt (topic : Str) : Option (Nat × RetainStore) :=
  (s.root.eraseAt (topicLevels topic)).map fun r =>
    (r.1.payloadBytes, { s with root := r.2, expiry := unindex s.expiry r.1 topic })

def accountRemoved (bytes : Nat) : RetainStore :=
  { s with
    messageCount := s.messageCount - 1
    totalBytes := if s.totalBytes ≥ bytes then s.totalBytes - bytes else 0 }

def remove : RetainWriteResult × RetainStore :=
  if topic = [] then ({}, s)
  else
    match s.eraseAt topic with
    | none => ({}, s)
    | some (bytes, s) =>
      ({ kind := .removed, messageDelta := -1, byteDelta := -bytes }, s.accountRemoved bytes)

def install (copy : RetainedCopy) : RetainWriteResult × RetainStore :=
  if copy.topic = [] then ({}, s)
  else
    let payloadBytes := copy.content.payload.length
    let existing := s.slot copy.topic
    let oldBytes : Nat := (existing.map (·.payloadBytes)).getD 0
    ({ kind := if existing.isSome then .replaced else .stored
       messageDelta := if existing.isSome then 0 else 1
       byteDelta := (payloadBytes : Int) - oldBytes },
      { root := s.root.set ⟨copy.content, copy.expiresAt, payloadBytes⟩ (topicLevels copy.topic)
        expiry := installIndex s.expiry existing copy.expiresAt copy.topic
        messageCount := s.messageCount - (if existing.isSome then 1 else 0) + 1
        totalBytes :=
          if s.totalBytes ≥ oldBytes then s.totalBytes - oldBytes + payloadBytes
          else payloadBytes })

/-- The loop of `reclaim_expired`, with the deltas it adds up. A round takes a pair from
the index or a message from the trie. -/
def reclaimLoop (now : Int) : Nat → RetainStore → Int → Int → RetainStore × Int × Int
  | 0, s, messages, bytes => (s, messages, bytes)
  | rounds + 1, s, messages, bytes =>
    match s.expiry.min? with
    | none => (s, messages, bytes)
    | some (expires, topic) =>
      if expires ≤ now then
        match s.eraseAt topic with
        | none =>
          reclaimLoop now rounds { s with expiry := s.expiry.erase (expires, topic) }
            messages bytes
        | some (removed, s) =>
          reclaimLoop now rounds (s.accountRemoved removed) (messages - 1) (bytes - removed)
      else (s, messages, bytes)

/-- `reclaim_expired`: a pair of the index takes two rounds at most. -/
def reclaimExpired : RetainStore × Int × Int :=
  reclaimLoop now (2 * s.expiry.size) s 0 0

/-- The content that `store` makes of a packet, at the address it is allocated at. -/
def contentOf (sender : Str) (address : Nat) : Content where
  address := address
  topicName := packet.topicName
  payload := packet.payload
  qos := packet.qos
  messageExpiryInterval := packet.messageExpiryInterval
  properties := packet.properties
  sender := sender

def expiryOf (now : Int) : Option Int :=
  packet.messageExpiryInterval.map fun interval => now + interval * 1000000000

def deletes : Bool :=
  packet.payload.isEmpty || packet.messageExpiryInterval == some 0

/-- The part of `store` after the expired messages have been reclaimed, with the deltas
of that. -/
def storeReclaimed (sender : Str) (limits : RetainConfig) (address : Nat) (now : Int)
    (reclaimedMessages reclaimedBytes : Int) : RetainWriteResult × RetainStore :=
  let topic := packet.topicName
  let payloadBytes := packet.payload.length
  let expiresAt := expiryOf packet now
  let existing := s.slot topic
  let oldBytes : Nat := (existing.map (·.payloadBytes)).getD 0
  let newCount := s.messageCount - (if existing.isSome then 1 else 0) + 1
  let newBytes := s.totalBytes - oldBytes + payloadBytes
  if newCount > limits.maxMessages then
    ({ kind := .rejected .countLimit, messageDelta := reclaimedMessages,
       byteDelta := reclaimedBytes }, s)
  else if newBytes > limits.maxTotalBytes then
    ({ kind := .rejected .byteLimit, messageDelta := reclaimedMessages,
       byteDelta := reclaimedBytes }, s)
  else
    ({ kind := if existing.isSome then .replaced else .stored
       messageDelta := reclaimedMessages + (if existing.isSome then 0 else 1)
       byteDelta := reclaimedBytes + payloadBytes - oldBytes },
      { root := s.root.set ⟨contentOf packet sender address, expiresAt, payloadBytes⟩
          (topicLevels topic)
        expiry := storeIndex s.expiry existing expiresAt topic
        messageCount := newCount
        totalBytes := newBytes })

/-- `store`, with the address at which the new content is allocated. -/
def store (sender : Str) (limits : RetainConfig) (address : Nat) (now : Int) :
    RetainWriteResult × RetainStore :=
  let topic := packet.topicName
  if topic = [] ∨ 0x2b ∈ topic ∨ 0x23 ∈ topic then ({}, s)
  else if packet.payload = [] then s.remove topic
  else if packet.messageExpiryInterval = some 0 then s.remove topic
  else if packet.payload.length > limits.payloadLimit then
    ({ kind := .rejected .payloadLimit }, s)
  else
    let (s, reclaimedMessages, reclaimedBytes) := s.reclaimExpired now
    s.storeReclaimed packet sender limits address now reclaimedMessages reclaimedBytes

/-- One topic of `purge`. -/
def purgeTopic : RetainStore :=
  match s.slot topic with
  | none => s
  | some m =>
    if reached m.expiresAt now then
      match s.eraseAt topic with
      | none => s
      | some (bytes, s) => s.accountRemoved bytes
    else s

/-- All that `match` does to the store. -/
def purge (topics : List Str) (now : Int) : RetainStore :=
  topics.foldl (fun s topic => s.purgeTopic now topic) s

end RetainStore

end Mqtts.Retain
