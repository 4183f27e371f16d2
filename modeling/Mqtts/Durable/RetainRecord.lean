import Mqtts.Durable.Record
import Mqtts.Durable.Retained

/-!
# Retained messages on disk

The retain log holds a record for every mutation of the retained map, and `RETAIN` a
snapshot of the committed entries with the cut of the log it stands for. `restoreRetained`
reads both when the store opens.
-/

namespace Mqtts.Durable

open Codec Codec.Decoder

/-! ## Records -/

def storedRetainVersion : Nat := 2

variable (r : StoredRetain)

def retainPropertyFlags : Nat :=
  (if r.hasPayloadFormat then 1 else 0) ||| (if r.contentType ≠ [] then 2 else 0) |||
    (if r.responseTopic ≠ [] then 4 else 0) ||| (if r.correlationData ≠ [] then 8 else 0) |||
    (if r.userProperties ≠ [] then 16 else 0)

def putTextPair (p : Str × Str) : Str := putText p.1 ++ putText p.2

/-- `write_retain_properties`. -/
def putRetainProperties : Str :=
  putByte (retainPropertyFlags r) ++
    ((if r.hasPayloadFormat then putByte r.payloadFormat else []) ++
    ((if r.contentType ≠ [] then putText r.contentType else []) ++
    ((if r.responseTopic ≠ [] then putText r.responseTopic else []) ++
    ((if r.correlationData ≠ [] then putText r.correlationData else []) ++
    (if r.userProperties ≠ [] then
      putWord 4 r.userProperties.length ++ r.userProperties.flatMap putTextPair
    else [])))))

def putRetainFields : Str :=
  putByte r.qos ++ (putWord 8 (ofInt64 r.expiresMs) ++ (putText r.payload ++ (putText r.sender ++
    putRetainProperties r)))

/-- `write_retain_set`. -/
def putRetainSet : Str :=
  putByte 1 ++ (putByte storedRetainVersion ++ (putText r.topic ++ putRetainFields r))

/-- `write_retain_clear`. -/
def putRetainClear (topic : Str) : Str :=
  putByte 2 ++ (putByte storedRetainVersion ++ putText topic)

def readTextPair : Decode (Str × Str) := do
  let key ← text
  let value ← text
  pure (key, value)

def flagged {α : Type} (flags bit : Nat) (absent : α) (field : Decode α) : Decode α :=
  if flags &&& bit ≠ 0 then field else pure absent

/-- `read_retain_properties`, on a record that has the fields before them. -/
def readRetainProperties : Decode StoredRetain := do
  let flags ← byte
  let payloadFormat ← flagged flags 1 0 byte
  let contentType ← flagged flags 2 [] text
  let responseTopic ← flagged flags 4 [] text
  let correlationData ← flagged flags 8 [] text
  let userProperties ← flagged flags 16 [] (do
    let count ← word 4
    times readTextPair count)
  pure { r with
    hasPayloadFormat := flags &&& 1 != 0
    payloadFormat := payloadFormat
    contentType := contentType
    responseTopic := responseTopic
    correlationData := correlationData
    userProperties := userProperties }

def plainRetain (topic : Str) (qos : Nat) (expiresMs : Int) (payload sender : Str) : StoredRetain :=
  ⟨topic, qos, expiresMs, payload, sender, false, 0, [], [], [], []⟩

/-- `read_retain_record`: the message of a set, the topic of a clear. -/
def decodeRetainRecord (data : Str) : Except JournalError (Str × Option StoredRetain) :=
  run (do
    let kind ← byte
    let version ← byte
    refuse (version ≠ 1 ∧ version ≠ storedRetainVersion) .unsupportedRetainVersion
    let topic ← text
    refuse (retainTopicOk topic = false) .invalidRetainedTopic
    if kind = 2 then do
      done
      pure (topic, none)
    else do
      refuse (kind ≠ 1) .invalidRetainRecord
      let qos ← byte
      refuse (qos > 2) .invalidRetainedQos
      let expiresMs ← signed
      refuse (expiresMs < 0) .invalidRetainedExpiry
      let payload ← text
      refuse (payload = []) .emptyRetainedPayload
      let sender ← text
      let r := plainRetain topic qos expiresMs payload sender
      let r ← if version ≥ 2 then readRetainProperties r else pure r
      done
      pure (topic, some r)) data

/-! ## The snapshot -/

def retainMagic : Str :=
  [0x4d, 0x51, 0x54, 0x54, 0x53, 0x2d, 0x52, 0x45, 0x54, 0x41, 0x49, 0x4e, 0x2d]

structure RetainSnapshot where
  cut : Nat
  items : List StoredRetain
  deriving DecidableEq

def RetainSnapshot.encode (c : RetainSnapshot) : Str :=
  putText (retainMagic ++ [0x32]) ++ (putWord 8 c.cut ++ (putWord 4 c.items.length ++
    c.items.flatMap fun r => putText r.topic ++ putRetainFields r))

def readSnapshotItem (withProperties : Bool) : Decode StoredRetain := do
  let topic ← text
  let qos ← byte
  let expiresMs ← signed
  let payload ← text
  let sender ← text
  let r := plainRetain topic qos expiresMs payload sender
  let r ← if withProperties then readRetainProperties r else pure r
  refuse (retainTopicOk topic = false ∨ qos > 2 ∨ expiresMs < 0 ∨ payload = [])
    .invalidRetainSnapshot
  pure r

def decodeRetainSnapshot (data : Str) : Except JournalError RetainSnapshot :=
  run (do
    let magic ← text
    refuse (magic ≠ retainMagic ++ [0x31] ∧ magic ≠ retainMagic ++ [0x32]) .retainSnapshotMismatch
    let cut ← word 8
    let count ← word 4
    let items ← times (readSnapshotItem (magic == retainMagic ++ [0x32])) count
    done
    pure ⟨cut, items⟩) data

/-! ## Reopening -/

structure LogFile where
  pruned : Nat := 0
  records : List Str := []

/-- `AppendLog::replay`: the records behind a cut, none of which may be missing. -/
def LogFile.behind (log : LogFile) (cut : Nat) : Except JournalError (List Str) :=
  if log.records ≠ [] ∧ cut < log.pruned then .error .missingRecords
  else .ok (log.records.drop (cut - log.pruned))

namespace RetainState

def empty : RetainState where
  retained := ∅
  retainBytes := 0
  retainExpiry := ∅
  retainEpoch := ∅
  nextRetainGeneration := 1
  flags := [0]

def load (s : RetainState) (r : StoredRetain) : RetainState :=
  s.setRetained r.topic { record := r, width := 0, generation := 0 }

/-- `apply_retain_record`. -/
def applyRecord (now : Int) (s : RetainState) (record : Str × Option StoredRetain) : RetainState :=
  match record.2.filter (fun r => !expiredAt r.expiresMs now) with
  | some r => s.load r
  | none => (s.retained[record.1]?).elim s (s.eraseRetained record.1)

/-- `restore_retained`, on the snapshot file and the log. -/
def restoreRetained (now : Int) (limit : Nat) (file : Str) (log : LogFile) :
    Except JournalError (Nat × RetainState) := do
  let (cut, s) ←
    if file = [] then .ok (0, empty)
    else if file.length > limit then .error .fileSize
    else do
      let body ← unchecked file
      let snapshot ← decodeRetainSnapshot body
      .ok (snapshot.cut,
        (snapshot.items.filter fun r => !expiredAt r.expiresMs now).foldl load empty)
  let records ← log.behind cut
  let s ← records.foldlM (fun s data => do
    let record ← decodeRetainRecord data
    .ok (s.applyRecord now record)) s
  .ok (cut, s)

end RetainState

end Mqtts.Durable
