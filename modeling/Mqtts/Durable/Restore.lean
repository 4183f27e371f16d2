import Mqtts.Durable.Expiry

/-!
# Reopening the store

`restore` builds the state from the checkpoint and the records behind its cuts: the
sessions of the checkpoint, then the control records, then the acknowledgements and claims,
and at last the messages, each delivery with what the records before said about it. Expired
sessions and deliveries go twice on the way. `validateState` checks the result against the
configuration and builds the maps of packet identifiers.
-/

namespace Mqtts.Durable

open Std

namespace Store

/-! ## Deliveries that come back -/

def restoreDelivery (s : Store) (client : Str) (t : Session) (id r packet : Nat) : Store :=
  let size := (s.messages r).wire.length
  { s.reference r t.ref with
    pending := s.pending + 1
    bytes := s.bytes + size
    sessions := s.sessions.insert client
      { t with
        pending := t.pending.insert id
          { message := r, packet := packet, attempted := packet ≠ 0, started := packet ≠ 0 }
        bytes := t.bytes + size } }

/-! ## The checkpoint -/

def loadMessage (acc : Store × ExtTreeMap Nat Nat) (m : CheckpointMessage) :
    Except JournalError (Store × ExtTreeMap Nat Nat) :=
  let s := acc.1
  if acc.2.contains m.id then .error .checkpointIdentityMismatch
  else
    .ok ({ s.setMessage s.objects
            { id := m.id, expires := m.expires, partition := m.partition, wire := m.wire
              committed := true } with objects := s.objects + 1 },
      acc.2.insert m.id s.objects)

def loadDelivery (referenced : ExtTreeMap Nat Nat) (client : Str) (s : Store)
    (delivery : Nat × Nat) : Except JournalError Store :=
  match referenced[delivery.1]?, s.sessions[client]? with
  | some r, some t =>
    if t.pending.contains delivery.1 then .error .duplicateCheckpointDelivery
    else .ok (s.restoreDelivery client t delivery.1 r delivery.2)
  | _, _ => .error .invalidCheckpointDelivery

def storedSession (object : Nat) (c : CheckpointSession) : Session where
  object := object
  client := c.client
  owner := c.owner
  generation := c.generation
  epoch := c.epoch
  expiry := c.expiry
  deadline := c.deadline
  overflowSequence := c.overflowSequence
  online := c.online
  nextPacket := c.nextPacket
  subscriptions := c.subscriptions.foldl (fun subs sub => subs.insert sub.1 sub.2) ∅

def loadSession (referenced : ExtTreeMap Nat Nat) (s : Store) (c : CheckpointSession) :
    Except JournalError Store :=
  if s.sessions.contains c.client then .error .duplicateCheckpointSession
  else
    c.pending.foldlM (loadDelivery referenced c.client)
      { s.put c.client (storedSession s.objects c) with objects := s.objects + 1 }

def loadCheckpoint (s : Store) (c : Checkpoint) : Except JournalError Store := do
  let (s, referenced) ← c.messages.foldlM loadMessage ({ s with nextId := c.nextId }, ∅)
  c.sessions.foldlM (loadSession referenced) s

/-! ## Control records -/

/-- CONNECT in `replay_control`. -/
def replayConnect (s : Store) (client owner : Str) (generation epoch expiry : Nat) (deadline : Int)
    (clean : Bool) : Store :=
  let s := { s with nextId := max s.nextId (max generation epoch) }
  let found := s.sessions[client]?
  let kept := found.filter fun t => !clean && t.generation == generation
  let s := if found.isSome ∧ kept.isNone then s.eraseSession client else s
  if clean ∧ expiry = 0 then s
  else
    let t := kept.getD { object := s.objects, client := client, owner := owner }
    { s.put client { t with
        client := client, owner := owner, generation := generation, epoch := epoch
        expiry := expiry, deadline := deadline, online := true } with
      objects := if kept.isSome then s.objects else s.objects + 1 }

def named (s : Store) (client : Str) (generation : Nat) : Option Session :=
  (s.sessions[client]?).filter fun t => t.generation == generation

def replayDisconnect (s : Store) (client : Str) (generation epoch expiry : Nat) (deadline : Int) :
    Store :=
  match (s.named client generation).filter (fun t => t.epoch == epoch) with
  | none => s
  | some t =>
    let s := s.put client { t with expiry := expiry, deadline := deadline, online := false }
    if expiry = 0 then s.eraseSession client else s

def replayAck (s : Store) (client : Str) (generation id packet : Nat) : Except JournalError Store :=
  match s.named client generation with
  | none => .ok s
  | some t =>
    match t.pending[id]? with
    | some d =>
      if d.packet ≠ packet then .error .ackDifferentPacket
      else
        .ok ((s.put client { t with recoveryClaims := t.recoveryClaims.erase id }).drop client id)
    | none =>
      .ok (s.put client
        { t with
          recoveryAcks := t.recoveryAcks ++ [id]
          recoveryClaims := t.recoveryClaims.erase id })

def replayClaim (client : Str) (generation : Nat) (s : Store) (claim : Nat × Nat) : Store :=
  match s.named client generation with
  | none => s
  | some t =>
    match t.pending[claim.1]? with
    | some d => s.put client
        { t with pending := t.pending.insert claim.1 { d with packet := claim.2 } }
    | none => s.put client
        { t with recoveryClaims := t.recoveryClaims.insert claim.1 claim.2 }

def replayHeartbeat (s : Store) (e : HeartbeatEntry) : Store :=
  match s.named e.client e.generation with
  | none => s
  | some t =>
    if t.epoch = e.epoch ∧ t.online then s.put e.client { t with deadline := e.deadline } else s

/-- `replay_control` on a decoded record. -/
def replayControl (s : Store) : ControlRecord → Except JournalError Store
  | .connect client owner generation epoch expiry deadline clean =>
    if generation = 0 ∨ epoch = 0 then .error .invalidSessionGeneration
    else .ok (s.replayConnect client owner generation epoch expiry deadline clean)
  | .disconnect client generation epoch expiry deadline =>
    .ok (s.replayDisconnect client generation epoch expiry deadline)
  | .subscribe client generation filter sub =>
    .ok ((s.named client generation).elim s fun t =>
      s.put client { t with subscriptions := t.subscriptions.insert filter sub })
  | .unsubscribe client generation filter =>
    .ok ((s.named client generation).elim s fun t =>
      s.put client { t with subscriptions := t.subscriptions.erase filter })
  | .ack client generation id packet => s.replayAck client generation id packet
  | .claim client generation claims => .ok (claims.foldl (replayClaim client generation) s)
  | .heartbeat entries => .ok (entries.foldl replayHeartbeat s)

/-- One pass of `replay_control` over the records of a log. -/
def replayStates (acknowledgements : Bool) (s : Store) (log : List Str) :
    Except JournalError Store :=
  log.foldlM (fun s data => do
    match ← decodeControl acknowledgements data with
    | none => .ok s
    | some record => s.replayControl record) s

/-! ## Message records -/

variable (cfg : Config) (now : Int)

/-- A recipient in `decode_message`. -/
def replayRecipient (r : Nat) (s : Store) (recipient : Recipient) : Except JournalError Store :=
  match s.named recipient.client recipient.generation with
  | none => .ok s
  | some t =>
    let m := s.messages r
    let packet := (t.recoveryClaims[m.id]?).getD recipient.packet
    if m.id ∈ t.recoveryAcks then .ok s
    else if packet = 0 ∧ expiredAt m.expires now then .ok s
    else if t.pending.contains m.id then .error .duplicateMessageIdentity
    else .ok (s.restoreDelivery recipient.client t m.id r packet)

def replayGap (id : Nat) (s : Store) (gap : Str × Nat) : Store :=
  (s.named gap.1 gap.2).elim s fun t => s.markOverflow ⟨gap.1, t.object⟩ id

/-- `decode_message` with `attach`, on a decoded record. -/
def replayMessage (partition : Nat) (s : Store) (record : MessageRecord) :
    Except JournalError Store := do
  let r := s.objects
  let s := { s.setMessage r
      { id := record.id, expires := record.expires, partition := partition, wire := record.wire
        committed := true } with
    objects := r + 1
    nextId := max s.nextId record.id }
  let s ← record.recipients.foldlM (replayRecipient now r) s
  .ok (record.gaps.foldl (replayGap record.id) s)

def replayMessages (partition : Nat) (s : Store) (log : List Str) : Except JournalError Store :=
  log.foldlM (fun s data => do
    let record ← decodeMessageRecord cfg.maxSessions data
    s.replayMessage now partition record) s

/-! ## Indexes and the last check -/

/-- One session in `rebuild_indexes`. -/
def rebuildSession (s : Store) (client : Str) (t : Session) : Store :=
  let s := { s with
    isolatedSessions := if t.overflowSequence ≠ 0 then s.isolatedSessions + 1 else
      s.isolatedSessions
    metadataBytes := s.metadataBytes + sessionCost t.client t.owner
    sessions := s.sessions.insert client { t with scheduledExpiry := 0 } }
  let s := t.subscriptions.toList.foldl (fun s sub =>
    let s := { s with metadataBytes := s.metadataBytes + subscriptionCost sub.1 }
    if sub.2.qos ≠ 0 then
      { s.addIndex client t.object sub.1 with subscriptions := s.subscriptions + 1 }
    else s) s
  let s := if t.online then s else s.scheduleSession client t.deadline
  t.pending.toList.foldl (fun s d => s.scheduleMessage d.2.message) s

def rebuildIndexes (s : Store) : Store :=
  let s := { s with
    metadataBytes := 0, index := {}, messageExpiry := ∅, sessionExpiry := ∅
    isolatedSessions := 0, subscriptions := 0 }
  { s.sessions.toList.foldl (fun s e => s.rebuildSession e.1 e.2) s with indexing := true }

def rebuildPackets : List (Nat × DeliveryState) → ExtTreeMap Nat Nat →
    Except JournalError (ExtTreeMap Nat Nat)
  | [], packets => .ok packets
  | (id, d) :: rest, packets =>
    if d.packet = 0 then rebuildPackets rest packets
    else if packets.contains d.packet then .error .duplicateLivePacket
    else rebuildPackets rest (packets.insert d.packet id)

/-- One session in `validate_state`. -/
def validateSession (s : Store) (e : Str × Session) : Except JournalError Store :=
  let t := e.2
  if t.generation = 0 ∨ t.epoch = 0 ∨ t.subscriptions.size > cfg.maxSubscriptionsPerSession ∨
      t.pending.size > cfg.maxMessagesPerSession ∨ t.bytes > cfg.maxBytesPerSession then
    .error .invalidRecoveredSession
  else do
    let packets ← rebuildPackets t.pending.toList ∅
    .ok (s.put e.1 { t with packets := packets })

def MetadataLimit.journalError : MetadataLimit → JournalError
  | .exhausted => .metadataExhausted
  | .memory => .metadataMemoryLimit

def validateState (s : Store) : Except JournalError Store :=
  match s.checkMetadata cfg 0 s.pending 0 with
  | some limit => .error limit.journalError
  | none =>
    if s.sessions.size > cfg.maxSessions ∨ s.pending > cfg.maxMessages ∨ s.bytes > cfg.maxBytes then
      .error .capacityExceeded
    else s.sessions.toList.foldlM (validateSession cfg) s

/-! ## Restore -/

/-- What the store finds in its directory: the checkpoint and the retained snapshot (empty
when there is none), and the logs, two for each partition. -/
structure Files where
  checkpoint : Str := []
  messageLogs : List LogFile
  stateLogs : List LogFile
  retainSnapshot : Str := []
  retainLog : LogFile := {}

def openCheckpoint (file : Str) : Except JournalError (Store × List (Nat × Nat)) :=
  if file = [] then .ok ({}, List.replicate cfg.partitions (0, 0))
  else if file.length > cfg.maxDiskBytes / 8 then .error .fileSize
  else do
    let body ← unchecked file
    let checkpoint ← decodeCheckpoint cfg body
    let s ← loadCheckpoint {} checkpoint
    .ok (s, checkpoint.cuts)

def behind (cuts : List Nat) (logs : List LogFile) : Except JournalError (List (List Str)) :=
  (cuts.zip logs).mapM fun e => e.2.behind e.1

def clearRecovery (s : Store) : Store :=
  { s with sessions := s.sessions.map (fun _ t => { t with recoveryAcks := [], recoveryClaims := ∅
    }) }

def replayLogs (s : Store) (states messages : List (List Str)) : Except JournalError Store := do
  let s ← states.foldlM (replayStates false) s
  let s := s.expireStartup now
  let s ← states.foldlM (replayStates true) s
  let s ← messages.zipIdx.foldlM (fun s log => s.replayMessages cfg now log.2 log.1) s
  .ok (s.clearRecovery.expireStartup now)

/-- `restore`: the state, and the cuts of the checkpoint and of the retained snapshot. -/
def restore (files : Files) : Except JournalError (Store × List (Nat × Nat) × Nat) := do
  let (s, cuts) ← openCheckpoint cfg files.checkpoint
  let states ← behind (cuts.map (·.2)) files.stateLogs
  let messages ← behind (cuts.map (·.1)) files.messageLogs
  let s ← s.replayLogs cfg now states messages
  let s := s.rebuildIndexes
  let (retainCut, retain) ← RetainState.restoreRetained now (cfg.maxDiskBytes / 32)
    files.retainSnapshot files.retainLog
  let s ← { s with retain := retain }.validateState cfg
  .ok (s, cuts, retainCut)

end Store

end Mqtts.Durable
