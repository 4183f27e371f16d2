import Mqtts.Lib.Codec
import Mqtts.Topic.Levels

/-!
# Journal records and the checkpoint file

The journal is two families of logs. A session log holds control records, which name a
client and the generation of its session; a message log holds the publications with their
recipients. `CHECKPOINT` holds the whole state of the sessions at a cut of every log.
Each kind of record has an encoder and a decoder, in the order of the source's fields.
-/

namespace Mqtts.Durable

open Codec Codec.Decoder

/-! ## Configuration -/

inductive OverflowPolicy where
  | reject
  | isolate
  deriving DecidableEq

/-- `PersistenceConfig`, with the defaults of the source. -/
structure Config where
  partitions : Nat := 4
  segmentBytes : Nat := 16 * 1024 * 1024
  maxDiskBytes : Nat := 4 * 1024 * 1024 * 1024
  checkpointIntervalMs : Nat := 30000
  maxSessionExpirySeconds : Nat := 86400
  maxSessions : Nat := 10000
  maxSubscriptionsPerSession : Nat := 128
  maxMessages : Nat := 100000
  maxMessagesPerSession : Nat := 10000
  maxBytesPerSession : Nat := 32 * 1024 * 1024
  overflowPolicy : OverflowPolicy := .reject
  maxBytes : Nat := 256 * 1024 * 1024
  maxRequests : Nat := 1024
  maxRequestBytes : Nat := 16 * 1024 * 1024
  maxInflight : Nat := 32

variable (cfg : Config) (data : Str)

def Config.Accepted : Prop :=
  cfg.partitions ≠ 0 ∧ cfg.partitions ≤ 32 ∧ 4096 ≤ cfg.segmentBytes ∧
    cfg.segmentBytes ≤ cfg.maxDiskBytes / (cfg.partitions * 4) ∧
    cfg.segmentBytes ≤ cfg.maxDiskBytes / 32 ∧ 100 ≤ cfg.checkpointIntervalMs ∧
    cfg.maxBytesPerSession ≠ 0

instance (cfg : Config) : Decidable cfg.Accepted := by
  unfold Config.Accepted
  infer_instance

/-- `topic_hash`, which chooses the partition. -/
def topicHash (s : Str) : UInt64 :=
  s.foldl (fun value c => (value ^^^ c.toUInt64) * 1099511628211) 14695981039346656037

def Config.partitionOf (s : Str) : Nat := (topicHash s).toNat % cfg.partitions

/-! ## Errors of reopening -/

inductive JournalError where
  | truncatedRecord | trailingFields | fileSize | checksumMismatch
  | invalidSessionRecord | invalidSessionGeneration
  | invalidSubscriptionQos | invalidSubscriptionOptions | subscriptionQosMismatch
  | unsupportedSubscriptionVersion
  | invalidAckPacket | ackDifferentPacket | invalidPacketClaim
  | invalidMessageRecord | invalidMessageSequence | invalidPacketIdentifier
  | duplicateMessageIdentity | invalidOverflowCount
  | checkpointMismatch | checkpointMessageLimit | invalidCheckpointPartition
  | checkpointIdentityMismatch | checkpointSessionLimit | invalidPacketCursor
  | invalidOverflowSequence | checkpointSubscriptionLimit | checkpointBacklogLimit
  | invalidCheckpointDelivery | duplicateCheckpointDelivery | duplicateCheckpointSession
  | metadataExhausted | metadataMemoryLimit | capacityExceeded | invalidRecoveredSession
  | duplicateLivePacket | missingRecords
  | unsupportedRetainVersion | invalidRetainedTopic | invalidRetainRecord | invalidRetainedQos
  | invalidRetainedExpiry | emptyRetainedPayload | retainSnapshotMismatch | invalidRetainSnapshot

instance : Malformed JournalError where
  truncated := .truncatedRecord
  trailing := .trailingFields

abbrev Decode (α : Type) : Type := Decoder JournalError α

/-! ## Subscriptions -/

structure StoredSubscription where
  qos : Nat
  noLocal : Bool := false
  retainAsPublished : Bool := false
  retainHandling : Nat := 0
  deriving DecidableEq

def subscriptionFlags (sub : StoredSubscription) : Nat :=
  (sub.qos &&& 0x03) ||| (if sub.noLocal then 0x04 else 0) |||
    (if sub.retainAsPublished then 0x08 else 0) ||| ((sub.retainHandling &&& 0x03) <<< 4)

/-- `apply_subscription_flags`, on a subscription whose QoS has been read. -/
def applySubscriptionFlags (qos flags : Nat) : Decode StoredSubscription := do
  refuse (flags &&& 0xC0 ≠ 0 ∨ (flags >>> 4) &&& 0x03 = 3) .invalidSubscriptionOptions
  refuse (flags &&& 0x03 ≠ qos &&& 0x03) .subscriptionQosMismatch
  pure
    { qos := qos
      noLocal := flags &&& 0x04 != 0
      retainAsPublished := flags &&& 0x08 != 0
      retainHandling := (flags >>> 4) &&& 0x03 }

def storedSubscriptionVersion : Nat := 1

def putSubscription (filter : Str) (sub : StoredSubscription) : Str :=
  putText filter ++ (putByte sub.qos ++
    (putByte storedSubscriptionVersion ++ putByte (subscriptionFlags sub)))

def readSubscriptionOptions (qos : Nat) : Decode StoredSubscription := do
  let version ← byte
  refuse (version ≠ storedSubscriptionVersion) .unsupportedSubscriptionVersion
  let flags ← byte
  applySubscriptionFlags qos flags

/-- The QoS and the options of a subscription. A record that ends after the QoS is of the
time before there were options. -/
def readSubscription : Decode StoredSubscription := do
  let qos ← byte
  refuse (qos > 2) .invalidSubscriptionQos
  let left ← remaining
  if left = 0 then pure { qos := qos } else readSubscriptionOptions qos

/-! ## Control records -/

structure HeartbeatEntry where
  client : Str
  generation : Nat
  epoch : Nat
  deadline : Int

inductive ControlRecord where
  | connect (client owner : Str) (generation epoch expiry : Nat) (deadline : Int) (clean : Bool)
  | disconnect (client : Str) (generation epoch expiry : Nat) (deadline : Int)
  | subscribe (client : Str) (generation : Nat) (filter : Str) (sub : StoredSubscription)
  | unsubscribe (client : Str) (generation : Nat) (filter : Str)
  | ack (client : Str) (generation id packet : Nat)
  | claim (client : Str) (generation : Nat) (claims : List (Nat × Nat))
  | heartbeat (entries : List HeartbeatEntry)

def putHeartbeatEntry (e : HeartbeatEntry) : Str :=
  putText e.client ++ (putWord 8 e.generation ++ (putWord 8 e.epoch ++ putWord 8
    (ofInt64 e.deadline)))

def putClaim (claim : Nat × Nat) : Str := putWord 8 claim.1 ++ putWord 4 claim.2

namespace ControlRecord

def body : ControlRecord → Str
  | connect client owner generation epoch expiry deadline clean =>
    putText client ++ (putText owner ++ (putWord 8 generation ++ (putWord 8 epoch ++
      (putWord 4 expiry ++ (putWord 8 (ofInt64 deadline) ++ putByte clean.toNat)))))
  | disconnect client generation epoch expiry deadline =>
    putText client ++ (putWord 8 generation ++ (putWord 8 epoch ++ (putWord 4 expiry ++
      putWord 8 (ofInt64 deadline))))
  | subscribe client generation filter sub =>
    putText client ++ (putWord 8 generation ++ putSubscription filter sub)
  | unsubscribe client generation filter =>
    putText client ++ (putWord 8 generation ++ putText filter)
  | ack client generation id packet =>
    putText client ++ (putWord 8 generation ++ (putWord 8 id ++ putWord 4 packet))
  | claim client generation claims =>
    putText client ++ (putWord 8 generation ++ (putWord 4 claims.length ++ claims.flatMap putClaim))
  | heartbeat entries => putWord 4 entries.length ++ entries.flatMap putHeartbeatEntry

def kind : ControlRecord → Nat
  | connect .. => 1
  | disconnect .. => 2
  | subscribe .. => 3
  | unsubscribe .. => 4
  | ack .. => 5
  | claim .. => 6
  | heartbeat .. => 7

def encode (r : ControlRecord) : Str := putByte r.kind ++ r.body

def isAcknowledgement (kind : Nat) : Bool := kind == 5 || kind == 6

end ControlRecord

def readHeartbeatEntry : Decode HeartbeatEntry := do
  let client ← text
  let generation ← word 8
  let epoch ← word 8
  let deadline ← signed
  pure ⟨client, generation, epoch, deadline⟩

def readClaim : Decode (Nat × Nat) := do
  let id ← word 8
  let packet ← word 4
  refuse (packet = 0 ∨ packet > 65535) .invalidPacketClaim
  pure (id, packet)

def readControlBody (kind : Nat) : Decode ControlRecord :=
  if kind = 7 then do
    let count ← word 4
    let entries ← times readHeartbeatEntry count
    pure (.heartbeat entries)
  else do
    let client ← text
    if kind = 1 then do
      let owner ← text
      let generation ← word 8
      let epoch ← word 8
      let expiry ← word 4
      let deadline ← signed
      let clean ← byte
      pure (.connect client owner generation epoch expiry deadline (clean != 0))
    else do
      let generation ← word 8
      if kind = 2 then do
        let epoch ← word 8
        let expiry ← word 4
        let deadline ← signed
        pure (.disconnect client generation epoch expiry deadline)
      else if kind = 3 then do
        let filter ← text
        let sub ← readSubscription
        pure (.subscribe client generation filter sub)
      else if kind = 4 then do
        let filter ← text
        pure (.unsubscribe client generation filter)
      else if kind = 5 then do
        let id ← word 8
        let packet ← word 4
        refuse (packet = 0 ∨ packet > 65535) .invalidAckPacket
        pure (.ack client generation id packet)
      else do
        let count ← word 4
        let claims ← times readClaim count
        pure (.claim client generation claims)

def decodeControl (acknowledgements : Bool) (data : Str) : Except JournalError
    (Option ControlRecord) :=
  run (do
    let kind ← byte
    refuse (kind < 1 ∨ kind > 7) .invalidSessionRecord
    if acknowledgements != ControlRecord.isAcknowledgement kind then pure none
    else do
      let r ← readControlBody kind
      done
      pure (some r)) data

/-! ## Message records -/

structure Recipient where
  client : Str
  generation : Nat
  packet : Nat

structure MessageRecord where
  id : Nat
  expires : Int
  wire : Str
  recipients : List Recipient
  gaps : List (Str × Nat)

def putRecipient (r : Recipient) : Str :=
  putText r.client ++ (putWord 8 r.generation ++ putWord 4 r.packet)

def putGap (gap : Str × Nat) : Str := putText gap.1 ++ putWord 8 gap.2

namespace MessageRecord

def encode (r : MessageRecord) : Str :=
  putByte (if r.gaps = [] then 8 else 9) ++ (putWord 8 r.id ++ (putWord 8 (ofInt64 r.expires) ++
    (putText r.wire ++ (putWord 4 r.recipients.length ++ (r.recipients.flatMap putRecipient ++
      (if r.gaps = [] then [] else putWord 4 r.gaps.length ++ r.gaps.flatMap putGap))))))

end MessageRecord

def readRecipient : Decode Recipient := do
  let client ← text
  let generation ← word 8
  let packet ← word 4
  refuse (packet > 65535) .invalidPacketIdentifier
  pure ⟨client, generation, packet⟩

def readGap : Decode (Str × Nat) := do
  let client ← text
  let generation ← word 8
  pure (client, generation)

def decodeMessageRecord (maxSessions : Nat) (data : Str) : Except JournalError MessageRecord :=
  run (do
    let kind ← byte
    refuse (kind ≠ 8 ∧ kind ≠ 9) .invalidMessageRecord
    let id ← word 8
    let expires ← signed
    let wire ← text
    refuse (toInt64 id ≤ 0) .invalidMessageSequence
    let count ← word 4
    let recipients ← times readRecipient count
    if kind = 9 then do
      let gapCount ← word 4
      refuse (gapCount > maxSessions) .invalidOverflowCount
      let gaps ← times readGap gapCount
      done
      pure ⟨id, expires, wire, recipients, gaps⟩
    else do
      done
      pure ⟨id, expires, wire, recipients, []⟩) data

/-! ## The checkpoint file -/

structure CheckpointMessage where
  id : Nat
  partition : Nat
  expires : Int
  wire : Str
  deriving DecidableEq

structure CheckpointSession where
  client : Str
  owner : Str
  generation : Nat
  epoch : Nat
  expiry : Nat
  deadline : Int
  online : Bool
  nextPacket : Nat
  overflowSequence : Nat
  subscriptions : List (Str × StoredSubscription)
  pending : List (Nat × Nat)
  deriving DecidableEq

/-- The contents of `CHECKPOINT`; the cuts are those of the message and the session log of
each partition. -/
structure Checkpoint where
  nextId : Nat
  cuts : List (Nat × Nat)
  messages : List CheckpointMessage
  sessions : List CheckpointSession
  deriving DecidableEq

/-- `MQTTS-CHECKPOINT-`; the version digit follows. -/
def checkpointMagic : Str :=
  [0x4d, 0x51, 0x54, 0x54, 0x53, 0x2d, 0x43, 0x48, 0x45, 0x43, 0x4b, 0x50, 0x4f, 0x49, 0x4e,
    0x54, 0x2d]

def putCut (cut : Nat × Nat) : Str := putWord 8 cut.1 ++ putWord 8 cut.2

def putCheckpointMessage (m : CheckpointMessage) : Str :=
  putWord 8 m.id ++ (putWord 4 m.partition ++ (putWord 8 (ofInt64 m.expires) ++ putText m.wire))

def putDelivery (delivery : Nat × Nat) : Str := putWord 8 delivery.1 ++ putWord 4 delivery.2

def putCheckpointSession (s : CheckpointSession) : Str :=
  putText s.client ++ (putText s.owner ++ (putWord 8 s.generation ++ (putWord 8 s.epoch ++
    (putWord 4 s.expiry ++ (putWord 8 (ofInt64 s.deadline) ++ (putByte s.online.toNat ++
      (putWord 4 s.nextPacket ++ (putWord 8 s.overflowSequence ++
        (putWord 4 s.subscriptions.length ++
          (s.subscriptions.flatMap (fun sub => putSubscription sub.1 sub.2) ++
            (putWord 4 s.pending.length ++ s.pending.flatMap putDelivery)))))))))))

def Checkpoint.encode (c : Checkpoint) : Str :=
  putText (checkpointMagic ++ [0x35]) ++ (putWord 4 c.cuts.length ++ (putWord 8 c.nextId ++
    (c.cuts.flatMap putCut ++ (putWord 4 c.messages.length ++
      (c.messages.flatMap putCheckpointMessage ++ (putWord 4 c.sessions.length ++
        c.sessions.flatMap putCheckpointSession))))))

def checksumBit (c : UInt32) : UInt32 := (c >>> 1) ^^^ (0xedb88320 &&& (0 - (c &&& 1)))

def checksumEntry (c : UInt32) : UInt32 :=
  checksumBit (checksumBit (checksumBit (checksumBit
    (checksumBit (checksumBit (checksumBit (checksumBit c)))))))

def checksum : UInt32 :=
  (data.foldl (fun c b => checksumEntry ((c ^^^ b.toUInt32) &&& 255) ^^^ (c >>> 8)) 0xffffffff)
    ^^^ 0xffffffff

def checked (value : Str) : Str := putWord 4 (checksum value).toNat ++ value

def unchecked (value : Str) : Except JournalError Str :=
  match (word 4 : Decode Nat) value with
  | .error e => .error e
  | .ok (crc, body) => if (checksum body).toNat = crc then .ok body else .error .checksumMismatch

def readCut : Decode (Nat × Nat) := do
  let message ← word 8
  let state ← word 8
  pure (message, state)

def readCheckpointMessage (nextId : Nat) : Decode CheckpointMessage := do
  let id ← word 8
  let partition ← word 4
  refuse (partition ≥ cfg.partitions ∨ toInt64 id ≤ 0 ∨ id > nextId) .invalidCheckpointPartition
  let expires ← signed
  let wire ← text
  pure ⟨id, partition, expires, wire⟩

def readCheckpointSubscription (withOptions : Bool) : Decode (Str × StoredSubscription) := do
  let filter ← text
  let qos ← byte
  refuse (qos > 2) .invalidSubscriptionQos
  if withOptions then do
    let sub ← readSubscriptionOptions qos
    pure (filter, sub)
  else pure (filter, { qos := qos })

def readDelivery : Decode (Nat × Nat) := do
  let id ← word 8
  let packet ← word 4
  refuse (packet > 65535) .invalidCheckpointDelivery
  pure (id, packet)

def readOverflow (version nextId : Nat) : Decode Nat :=
  if version = 3 then pure 0
  else do
    let sequence ← word 8
    refuse (toInt64 sequence < 0 ∨ sequence > nextId) .invalidOverflowSequence
    pure sequence

def readCheckpointSession (version nextId : Nat) : Decode CheckpointSession := do
  let client ← text
  let owner ← text
  let generation ← word 8
  let epoch ← word 8
  let expiry ← word 4
  let deadline ← signed
  let online ← byte
  let nextPacket ← word 4
  refuse (nextPacket = 0 ∨ nextPacket > 65535) .invalidPacketCursor
  let overflowSequence ← readOverflow version nextId
  let subs ← word 4
  refuse (subs > cfg.maxSubscriptionsPerSession) .checkpointSubscriptionLimit
  let subscriptions ← times (readCheckpointSubscription (version == 5)) subs
  let entries ← word 4
  refuse (entries > cfg.maxMessagesPerSession) .checkpointBacklogLimit
  let pending ← times readDelivery entries
  pure ⟨client, owner, generation, epoch, expiry, deadline, online != 0, nextPacket,
    overflowSequence, subscriptions, pending⟩

def checkpointVersion (magic : Str) : Option Nat :=
  if magic = checkpointMagic ++ [0x35] then some 5
  else if magic = checkpointMagic ++ [0x34] then some 4
  else if magic = checkpointMagic ++ [0x33] then some 3
  else none

def decodeCheckpoint : Except JournalError Checkpoint :=
  run (do
    let magic ← text
    match checkpointVersion magic with
    | none => fail .checkpointMismatch
    | some version => do
      let partitions ← word 4
      refuse (partitions ≠ cfg.partitions) .checkpointMismatch
      let nextId ← word 8
      let cuts ← times readCut cfg.partitions
      let messageCount ← word 4
      refuse (messageCount > cfg.maxMessages) .checkpointMessageLimit
      let messages ← times (readCheckpointMessage cfg nextId) messageCount
      let sessionCount ← word 4
      refuse (sessionCount > cfg.maxSessions) .checkpointSessionLimit
      let sessions ← times (readCheckpointSession cfg version nextId) sessionCount
      done
      pure ⟨nextId, cuts, messages, sessions⟩) data

end Mqtts.Durable
