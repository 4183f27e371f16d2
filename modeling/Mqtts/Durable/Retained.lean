import Mqtts.Lib.Map
import Mqtts.Topic.Levels

/-!
# The durable store's retained messages

`put_retained` and `clear_retained` change the map of retained messages when they are admitted,
before their log record is written. Each keeps what it removed, and puts it back when the write
fails. A mutation is told apart from later ones on the same topic by its generation, which
`retain_epoch` holds while the mutation is the latest one.

The flag that an item shares with its copies is named by the generation of the mutation that made
the item (0 for an item that was loaded from disk), and `flags` lists the flags that are set. One
operation reads the clock once.
-/

namespace Mqtts.Durable

open Std

instance deadlineTransOrd : TransOrd (Int × Str) := pairTransOrd

/-! ## Messages and records -/

structure RetainedProperties where
  payloadFormatIndicator : Nat := 0
  contentType : Str := []
  responseTopic : Str := []
  correlationData : Str := []
  userProperties : List (Str × Str) := []
  deriving DecidableEq

structure RetainedMessage where
  topic : Str
  qos : Nat
  payload : Str
  sender : Str
  expiresMs : Int
  properties : RetainedProperties
  deriving DecidableEq

/-- A retained message as the journal stores it (`journal::StoredRetain`). -/
structure StoredRetain where
  topic : Str
  qos : Nat
  expiresMs : Int
  payload : Str
  sender : Str
  hasPayloadFormat : Bool
  payloadFormat : Nat
  contentType : Str
  responseTopic : Str
  correlationData : Str
  userProperties : List (Str × Str)
  deriving DecidableEq

/-- The record of a message, with `fill_retain_record`. -/
def RetainedMessage.toRecord (m : RetainedMessage) : StoredRetain where
  topic := m.topic
  qos := m.qos
  expiresMs := m.expiresMs
  payload := m.payload
  sender := m.sender
  hasPayloadFormat := m.properties.payloadFormatIndicator ≠ 0
  payloadFormat := m.properties.payloadFormatIndicator
  contentType := m.properties.contentType
  responseTopic := m.properties.responseTopic
  correlationData := m.properties.correlationData
  userProperties := m.properties.userProperties

variable (r : StoredRetain)

/-- The message of a record, with `properties_from_record`. -/
def StoredRetain.toMessage : RetainedMessage where
  topic := r.topic
  qos := r.qos
  payload := r.payload
  sender := r.sender
  expiresMs := r.expiresMs
  properties :=
    { payloadFormatIndicator := if r.hasPayloadFormat then r.payloadFormat else 0
      contentType := r.contentType
      responseTopic := r.responseTopic
      correlationData := r.correlationData
      userProperties := r.userProperties }

@[simp] theorem toMessage_toRecord (m : RetainedMessage) : m.toRecord.toMessage = m := by
  obtain ⟨topic, qos, payload, sender, expires, ⟨format, _, _, _, _⟩⟩ := m
  by_cases h : format = 0 <;> simp [RetainedMessage.toRecord, StoredRetain.toMessage, h]

@[simp] theorem expiresMs_toMessage : r.toMessage.expiresMs = r.expiresMs := rfl

/-- The expiry time has passed; 0 means that there is none. -/
def expiredAt (expiresMs now : Int) : Bool := decide (expiresMs > 0) && decide (expiresMs ≤ now)

theorem expiredAt_mono {e now now'} (h : now ≤ now') (he : expiredAt e now) : expiredAt e now' := by
  simp only [expiredAt, Bool.and_eq_true, decide_eq_true_eq] at he ⊢
  omega

/-! ## Record widths -/

def journalTextWidth (s : Str) : Nat := 4 + s.length

def retainPropertyWidth : Nat :=
  1 + (if r.hasPayloadFormat then 1 else 0)
    + (if r.contentType ≠ [] then journalTextWidth r.contentType else 0)
    + (if r.responseTopic ≠ [] then journalTextWidth r.responseTopic else 0)
    + (if r.correlationData ≠ [] then journalTextWidth r.correlationData else 0)
    + (if r.userProperties ≠ [] then
        4 + (r.userProperties.map fun p => journalTextWidth p.1 + journalTextWidth p.2).sum
      else 0)

def retainRecordWidth : Nat :=
  journalTextWidth r.topic + 1 + 8 + journalTextWidth r.payload + journalTextWidth r.sender
    + retainPropertyWidth r

/-! ## The map -/

structure RetainedItem where
  record : StoredRetain
  width : Nat
  generation : Nat

structure RetainState where
  retained : ExtTreeMap Str RetainedItem
  retainBytes : Nat
  retainExpiry : ExtTreeSet (Int × Str)
  retainEpoch : ExtTreeMap Str Nat
  nextRetainGeneration : Nat
  flags : List Nat

namespace RetainState

variable (s : RetainState)

def eraseRetained (topic : Str) (item : RetainedItem) : RetainState :=
  { s with
    retainBytes := s.retainBytes - item.width
    retainExpiry :=
      if item.record.expiresMs > 0 then s.retainExpiry.erase (item.record.expiresMs, topic)
      else s.retainExpiry
    retained := s.retained.erase topic }

def setRetained (topic : Str) (item : RetainedItem) : RetainState :=
  let item := { item with width := retainRecordWidth item.record }
  let s := match s.retained[topic]? with
    | some found => s.eraseRetained topic found
    | none => s
  { s with
    retainExpiry :=
      if item.record.expiresMs > 0 then s.retainExpiry.insert (item.record.expiresMs, topic)
      else s.retainExpiry
    retainBytes := s.retainBytes + item.width
    retained := s.retained.insert topic item }

/-- `take_retained`: the item that was there, and the state without it. -/
def takeRetained (topic : Str) : Option RetainedItem × RetainState :=
  match s.retained[topic]? with
  | some found => (some found, s.eraseRetained topic found)
  | none => (none, s)

/-- The branch of the callback for a write that failed. -/
def restoreRetainedItem (now : Int) (topic : Str) (generation previousEpoch : Nat)
    (previous : Option RetainedItem) : RetainState :=
  if s.retainEpoch[topic]? ≠ some generation then s
  else
    let s := match s.retained[topic]? with
      | some found => if found.generation = generation then s.eraseRetained topic found else s
      | none => s
    let s := { s with
      retainEpoch :=
        if previousEpoch ≠ 0 then s.retainEpoch.insert topic previousEpoch
        else s.retainEpoch.erase topic }
    match previous with
    | some item => if expiredAt item.record.expiresMs now then s else s.setRetained topic item
    | none => s

/-- The loop of `erase_expired_retained`; each round takes one pair from `retain_expiry`,
so its size bounds the rounds. -/
def eraseExpiredLoop (now : Int) : Nat → RetainState → RetainState
  | 0, s => s
  | rounds + 1, s =>
    match s.retainExpiry.min? with
    | none => s
    | some (expires, topic) =>
      if expires ≤ now then
        match s.retained[topic]? with
        | none => eraseExpiredLoop now rounds
            { s with retainExpiry := s.retainExpiry.erase (expires, topic) }
        | some found => eraseExpiredLoop now rounds (s.eraseRetained topic found)
      else s

def eraseExpiredRetained (now : Int) : RetainState := s.eraseExpiredLoop now s.retainExpiry.size

/-- The messages that `retained_messages` returns: committed and not expired. -/
def retainedMessages (now : Int) : List RetainedMessage :=
  s.retained.toList.filterMap fun e =>
    if e.2.generation ∈ s.flags ∧ expiredAt e.2.record.expiresMs now = false then
      some { e.2.record.toMessage with topic := e.1 }
    else none

end RetainState

/-! ## Mutations -/

/-- What the callback of a mutation captures. -/
structure Mutation where
  topic : Str
  generation : Nat
  previousEpoch : Nat
  previous : Option RetainedItem
  value : Option RetainedMessage

def retainTopicOk (topic : Str) : Bool :=
  !topic.isEmpty && topic.all fun b => b ≠ 0x2b && b ≠ 0x23 && b ≠ 0

namespace RetainState

variable (s : RetainState)

def begin (topic : Str) (value : Option RetainedMessage) : Mutation × RetainState :=
  let generation := s.nextRetainGeneration + 1
  let taken := s.takeRetained topic
  ({ topic, generation, previousEpoch := (s.retainEpoch[topic]?).getD 0, previous := taken.1,
     value },
    { taken.2 with
      nextRetainGeneration := generation
      retainEpoch := taken.2.retainEpoch.insert topic generation })

/-- The failure branch of a mutation's callback, and the handler of a refused append. -/
def rollBack (now : Int) (m : Mutation) : RetainState :=
  s.restoreRetainedItem now m.topic m.generation m.previousEpoch m.previous

/-- `put_retained`. The log takes the record or refuses it (`accepted`); a refused put is
rolled back at once. `limit` is the reserved size of the retained snapshot. -/
def putRetained (limit : Nat) (now : Int) (m : RetainedMessage) (accepted : Bool) :
    Option Mutation × RetainState :=
  if !retainTopicOk m.topic ∨ m.payload = [] ∨ m.qos > 2 ∨ m.expiresMs < 0 then (none, s)
  else
    let expired := expiredAt m.expiresMs now
    let s := s.eraseExpiredRetained now
    let replaced := ((s.retained[m.topic]?).map (·.width)).getD 0
    let snapshotBytes := 18 + 8 + 4 + 4 + s.retainBytes - replaced + retainRecordWidth m.toRecord
    if !expired ∧ snapshotBytes > limit then (none, s)
    else
      let (mutation, s) := s.begin m.topic (some m)
      let s :=
        if expired then s
        else s.setRetained m.topic
          { record := m.toRecord, width := 0, generation := mutation.generation }
      if accepted then (some mutation, s) else (none, s.rollBack now mutation)

def clearRetained (now : Int) (topic : Str) (accepted : Bool) : Option Mutation × RetainState :=
  if !retainTopicOk topic then (none, s)
  else
    let (mutation, s) := s.begin topic none
    if accepted then (some mutation, s) else (none, s.rollBack now mutation)

/-- The success branch of a mutation's callback: a put sets its flag, and the epoch of a
topic that has no entry is dropped when the mutation is still the latest one. -/
def commit (m : Mutation) : RetainState :=
  let s := if m.value.isSome then { s with flags := m.generation :: s.flags } else s
  if s.retainEpoch[m.topic]? = some m.generation ∧ (m.value = none ∨ s.retained[m.topic]? = none)
  then { s with retainEpoch := s.retainEpoch.erase m.topic }
  else s

def loaded (records : List StoredRetain) : RetainState :=
  records.foldl
    (fun s r => s.setRetained r.topic { record := r, width := 0, generation := 0 })
    { retained := ∅, retainBytes := 0, retainExpiry := ∅, retainEpoch := ∅,
      nextRetainGeneration := 1, flags := [0] }

end RetainState

/-! ## Runs -/

inductive RetainEvent where
  | put (m : RetainedMessage) (accepted : Bool)
  | clear (topic : Str) (accepted : Bool)
  | callback (ok : Bool)
  | tick (ms : Nat)

structure RetainRun where
  store : RetainState
  queue : List Mutation
  failed : Bool
  now : Int
  outcomes : List (Mutation × Bool)

namespace RetainRun

def enlist (r : RetainRun) (result : Option Mutation × RetainState) : RetainRun :=
  if r.failed then r
  else { r with store := result.2, queue := r.queue ++ result.1.toList }

def complete (r : RetainRun) (ok : Bool) : RetainRun :=
  match r.queue with
  | [] => r
  | m :: rest =>
    let good := ok && !r.failed
    { r with
      store := if good then r.store.commit m else r.store.rollBack r.now m
      queue := rest
      failed := r.failed || !good
      outcomes := r.outcomes ++ [(m, good)] }

def step (limit : Nat) (r : RetainRun) : RetainEvent → RetainRun
  | .put m accepted => r.enlist (r.store.putRetained limit r.now m accepted)
  | .clear topic accepted => r.enlist (r.store.clearRetained r.now topic accepted)
  | .callback ok => r.complete ok
  | .tick ms => { r with now := r.now + ms }

/-- A run of the retained map that was loaded from `records` at the time `start`. -/
def run (limit : Nat) (records : List StoredRetain) (start : Int) (events : List RetainEvent) :
    RetainRun :=
  events.foldl (step limit)
    { store := .loaded records, queue := [], failed := false, now := start, outcomes := [] }

end RetainRun

end Mqtts.Durable
