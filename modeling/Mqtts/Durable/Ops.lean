import Mqtts.Durable.State

/-!
# Operations of the durable store

Each operation is a function on the state under the mutex, and reads the clock once. What it changed
before it was put off or refused stays changed. Callbacks are values.
-/

namespace Mqtts.Durable

/-! ## Answers -/

inductive StoreError where
  | journalUnavailable | stalePersistentConnection | commitFailed
  | requestExceedsByteLimit | diskAdmissionFull | journalWriterUnavailable
  | metadataExhausted | metadataMemoryLimit
  | sessionLimit | otherIdentity
  | invalidSubscriptionOptions | subscriptionLimit | isolatedRequiresCleanStart
  | isolatedRequiresGapRecovery | clientBacklogExhausted | messageCapacityExhausted
  | emptyDirectedPublish | deliveryBufferFull
  | invalidRetainedMessage | invalidRetainedTopic | retainSnapshotLimit

def Store.MetadataLimit.error : Store.MetadataLimit → StoreError
  | .exhausted => .metadataExhausted
  | .memory => .metadataMemoryLimit

structure Delivery where
  sequence : Nat
  packetId : Nat
  dup : Bool
  expires : Int
  wire : Str

/-- `DurableStore::Result`. -/
structure Reply where
  ok : Bool := false
  present : Bool := false
  stale : Bool := false
  notAuthorized : Bool := false
  quotaExceeded : Bool := false
  epoch : Nat := 0
  overflowSequence : Nat := 0
  acceptedTargets : Nat := 0
  error : Option StoreError := none
  subscriptions : List (Str × StoredSubscription) := []
  targets : List Str := []
  deliveries : List Delivery := []
  reservation : Nat := 0

def success : Reply := { ok := true }

def staleReply : Reply := { stale := true, error := some .stalePersistentConnection }

inductive LogName where
  | message (partition : Nat)
  | state (partition : Nat)
  | retain
  deriving DecidableEq

/-- One constructor per lambda of the source, with what the lambda captures. -/
inductive Callback where
  | connect (client owner : Str) (old : Option Nat) (object generation epoch expiry : Nat)
      (deadline : Int) (clean : Bool)
  | disconnect (ref : SessionRef) (expiry : Nat) (deadline : Int)
  | subscribe (ref : SessionRef) (filter : Str) (sub : StoredSubscription) (reservation : Nat)
  | unsubscribe (ref : SessionRef) (filter : Str)
  | message (object : Nat) (overflows : List SessionRef) (skipped : Nat)
  | claim (ref : SessionRef) (epoch : Nat) (claims : List (Nat × Nat))
  | ack (ref : SessionRef) (id : Nat)
  | heartbeat (live : List (SessionRef × Nat × Int))
  | retained (mutation : Mutation)

inductive Record where
  | control (r : ControlRecord)
  | message (r : MessageRecord)
  | retainSet (r : StoredRetain)
  | retainClear (topic : Str)

def Record.encode : Record → Str
  | control r => r.encode
  | message r => r.encode
  | retainSet r => putRetainSet r
  | retainClear topic => putRetainClear topic

structure Job where
  record : Record
  callback : Callback
  reply : Reply

def Job.size (j : Job) : Nat := j.record.encode.length + 256

/-- An operation is put off, refused, answered at once, or a record goes to a log and the rest of
the operation is the callback of that record. -/
inductive Answer where
  /-- `Deferred` or `MaintenancePause` was thrown: the call tries again. -/
  | deferred
  /-- `AdmissionFull` was thrown. -/
  | full (e : StoreError)
  /-- Another exception was thrown. -/
  | error (e : StoreError)
  | replied (r : Reply)
  | queued (log : LogName) (job : Job)

/-- What `AppendLog::append` does. -/
inductive Append where
  | taken
  | full
  | unavailable

namespace Store

variable (cfg : Config) (now : Int) (append : Append) (s : Store)

/-- The checks of `call` for the operations that need a working journal. -/
def guarded (op : Answer × Store) : Answer × Store :=
  if s.failed then
    (.replied { error := some .journalUnavailable, stale := true }, s)
  else if s.frozen then (.deferred, s)
  else op

/-- What keeps `enqueue` from taking a record of this size. -/
def admission (size : Nat) : Option Answer :=
  if size > cfg.maxRequestBytes then some (.full .requestExceedsByteLimit)
  else if s.requests ≥ cfg.maxRequests ∨ s.requestBytes > cfg.maxRequestBytes - size ∨
      s.deliveryBytes > cfg.maxRequestBytes - size - s.requestBytes then some .deferred
  else
    match append with
    | .unavailable => some (.error .journalWriterUnavailable)
    | .full => some (.full .diskAdmissionFull)
    | .taken => none

def countRequest (job : Job) : Store :=
  { s with requests := s.requests + 1, requestBytes := s.requestBytes + job.size }

/-- `enqueue`; `install` is what the operation does once the log has taken the record. -/
def enqueue (log : LogName) (job : Job) (install : Store → Store) : Answer × Store :=
  match s.admission cfg append job.size with
  | some answer => (answer, s)
  | none => (.queued log job, install (s.countRequest job))

variable (client : Str) (epoch : Nat)

def stateLog : LogName := .state (cfg.partitionOf client)

inductive Lookup where
  | stale
  | busy
  | found (t : Session)

def current : Lookup :=
  match s.sessions[client]? with
  | none => .stale
  | some t =>
    if t.epoch ≠ epoch ∨ t.online = false then .stale
    else if t.busy then .busy
    else .found t

def withCurrent (op : Session → Answer × Store) : Answer × Store :=
  s.guarded <|
    match s.current client epoch with
    | .stale => (.replied staleReply, s)
    | .busy => (.deferred, s)
    | .found t => op t

def setBusy (t : Session) (busy : Bool) : Store := s.put client { t with busy := busy }

/-! ## Connections -/

/-- The end of `connect`: `old` is the session that is still there. -/
def connectAdmit (owner : Str) (clean : Bool) (expiry : Nat) (old : Option Session) :
    Answer × Store :=
  let epoch := s.nextId + 1
  let reused := old.filter fun _ => !clean
  let object := (reused.map (·.object)).getD s.objects
  let generation := (reused.map (·.generation)).getD epoch
  let deadline := now + expiry * 1000
  let s := { s with
    nextId := epoch
    objects := if reused.isSome then s.objects else s.objects + 1 }
  s.enqueue cfg append (stateLog cfg client)
    { record := .control (.connect client owner generation epoch expiry deadline clean)
      callback := .connect client owner (old.map (·.object)) object generation epoch expiry deadline
        clean
      reply := {} }
    (fun s =>
      match old with
      | some t => s.setBusy client t true
      | none =>
        { s.put client { object := object, client := client, owner := owner, busy := true } with
          metadataBytes := s.metadataBytes + sessionCost client owner })

/-- `connect` from the check of the owner on. -/
def connectOwned (owner : Str) (clean : Bool) (expiry : Nat) (old : Option Session) :
    Answer × Store :=
  if old.any (fun t => t.owner ≠ owner) then
    (.replied { notAuthorized := true, error := some .otherIdentity }, s)
  else if old.isSome then s.connectAdmit cfg now append client owner clean expiry old
  else if expiry = 0 then (.replied success, s)
  else if s.sessions.size ≥ cfg.maxSessions then (.full .sessionLimit, s)
  else
    match s.checkMetadata cfg (sessionCost client owner) s.pending 0 with
    | some limit => (.full limit.error, s)
    | none => s.connectAdmit cfg now append client owner clean expiry none

def connect (owner : Str) (clean : Bool) (expiry : Nat) : Answer × Store :=
  let expiry := min expiry cfg.maxSessionExpirySeconds
  let old := s.sessions[client]?
  if old.isNone ∧ expiry = 0 then (.replied success, s)
  else if s.failed then (.replied { error := some .journalUnavailable }, s)
  else if s.frozen then (.deferred, s)
  else if old.any (·.busy) then (.deferred, s)
  else if old.any (fun t => !t.online && decide (t.deadline ≤ now)) then
    (s.eraseSession client).connectOwned cfg now append client owner clean expiry none
  else s.connectOwned cfg now append client owner clean expiry old

def disconnect (expiryOverride : Int) : Answer × Store :=
  s.withCurrent client epoch fun t =>
    let expiry :=
      if expiryOverride < 0 then t.expiry
      else min expiryOverride.toNat cfg.maxSessionExpirySeconds
    let deadline := now + expiry * 1000
    s.enqueue cfg append (stateLog cfg client)
      { record := .control (.disconnect client t.generation epoch expiry deadline)
        callback := .disconnect t.ref expiry deadline
        reply := {} }
      (fun s => s.setBusy client t true)

/-! ## Subscriptions -/

def subscribe (filter : Str) (sub : StoredSubscription) : Answer × Store :=
  s.withCurrent client epoch fun t =>
    let previous := t.subscriptions[filter]?
    let reservation := if previous.isSome then 0 else subscriptionCost filter
    if sub.qos > 2 ∨ sub.retainHandling > 2 then (.error .invalidSubscriptionOptions, s)
    else if previous.isNone ∧ t.subscriptions.size ≥ cfg.maxSubscriptionsPerSession then
      (.full .subscriptionLimit, s)
    else if t.overflowSequence ≠ 0 then (.full .isolatedRequiresCleanStart, s)
    else
      match if previous.isNone then s.checkMetadata cfg (subscriptionCost filter) s.pending 0
        else none with
      | some limit => (.full limit.error, s)
      | none =>
        s.enqueue cfg append (stateLog cfg client)
          { record := .control (.subscribe client t.generation filter sub)
            callback := .subscribe t.ref filter sub reservation
            reply := { success with
              present := previous.isSome
              subscriptions := (previous.map fun p => (filter, p)).toList } }
          (fun s =>
            { s.setBusy client t true with
              metadataReserved := s.metadataReserved + reservation })

def unsubscribe (filter : Str) : Answer × Store :=
  s.withCurrent client epoch fun t =>
    s.enqueue cfg append (stateLog cfg client)
      { record := .control (.unsubscribe client t.generation filter)
        callback := .unsubscribe t.ref filter
        reply := {} }
      (fun s => s.setBusy client t true)

/-! ## Publications -/

/-- One round of the loop over the hits of `publish`: the sessions selected so far, each with
whether it is to get the message, or nothing when the call is put off. -/
def selectHit (now : Int) (sender : Str) (selected : List (Session × Bool))
    (hit : Session × StoredSubscription) : Option (List (Session × Bool)) :=
  let known := selected.any fun e => e.1.client == hit.1.client
  if known = false ∧ hit.1.busy then none
  else if known = false ∧ hit.1.online = false ∧ hit.1.deadline ≤ now then some selected
  else
    let selected := if known then selected else selected ++ [(hit.1, false)]
    some (if hit.1.client = sender ∧ hit.2.noLocal then selected
      else selected.map fun e => if e.1.client = hit.1.client then (e.1, true) else e)

def selectTargets (topic sender : Str) (implicitNoLocal : Bool) : Option (List Session) :=
  ((s.matchTopic topic).foldlM (selectHit now sender) []).map fun selected =>
    (selected.filter fun e => !(decide (e.1.client = sender) && (implicitNoLocal || !e.2))).map
      (·.1)

def backlogFull (size : Nat) (t : Session) : Bool :=
  decide (t.pending.size ≥ cfg.maxMessagesPerSession) || decide (size > cfg.maxBytesPerSession) ||
    decide (t.bytes > cfg.maxBytesPerSession - size)

/-- The loop of `publish` over its targets: those that take the message and those that it
overflows. -/
def partitionTargets (size : Nat) : List Session → Except StoreError (List Session × List Session)
  | [] => .ok ([], [])
  | t :: rest =>
    if t.overflowSequence ≠ 0 then
      if cfg.overflowPolicy = .reject then .error .isolatedRequiresGapRecovery
      else partitionTargets size rest
    else if backlogFull cfg size t then
      if cfg.overflowPolicy = .reject then .error .clientBacklogExhausted
      else (partitionTargets size rest).map fun r => (r.1, t :: r.2)
    else (partitionTargets size rest).map fun r => (t :: r.1, r.2)

/-- The check of the global limits in `publish`. -/
def capacityExceeded (count size : Nat) : Bool :=
  decide (count > cfg.maxMessages) || decide (s.pending > cfg.maxMessages - count) ||
    decide (size > cfg.maxBytes / count) || decide (s.bytes > cfg.maxBytes - size * count)

/-- The end of `publish`: the message object, its record and its deliveries. -/
def publishAdmit (topic wire : Str) (expires : Int) (targets overflows : List Session)
    (skipped : Nat) (reply : Reply) : Answer × Store :=
  let id := s.nextId + 1
  let object := s.objects
  let message : Message :=
    { id := id, expires := expires, partition := cfg.partitionOf topic, wire := wire }
  let s := { s.setMessage object message with nextId := id, objects := object + 1 }
  let packets := targets.map fun t => (t, t.packetForNew)
  s.enqueue cfg append (.message message.partition)
    { record := .message
        { id := id, expires := expires, wire := wire
          recipients := packets.map fun e => ⟨e.1.client, e.1.generation, e.2⟩
          gaps := overflows.map (fun t => (t.client, t.generation)) }
      callback := .message object (overflows.map (·.ref)) skipped
      reply := reply }
    (fun s =>
      let s := overflows.foldl (fun s t => s.modify t.ref fun t => { t with busy := true }) s
      packets.foldl (fun s e => s.attach e.1.client id object e.2) s)

def publish (topic wire sender : Str) (expires : Int) (implicitNoLocal : Bool) : Answer × Store :=
  s.guarded <|
    if expiredAt expires now then (.replied success, s)
    else
      match s.selectTargets now topic sender implicitNoLocal with
      | none => (.deferred, s)
      | some targets =>
        if targets = [] then (.replied success, s)
        else
          match partitionTargets cfg wire.length targets with
          | .error e => (.full e, s)
          | .ok (active, overflows) =>
            let skipped := targets.length - active.length
            let reply := { success with
              targets := (targets.map (·.client)).mergeSort fun a b => compare a b != .gt
              acceptedTargets := active.length }
            if active = [] ∧ overflows = [] then
              (.replied reply, { s with overflowSkipped := s.overflowSkipped + skipped })
            else
              match s.checkMetadata cfg 0 (s.pending + active.length)
                  (if active = [] then 0 else wire.length) with
              | some limit => (.full limit.error, s)
              | none =>
                if active ≠ [] ∧ s.capacityExceeded cfg active.length wire.length then
                  (.full .messageCapacityExhausted, s)
                else
                  s.publishAdmit cfg append topic wire expires active overflows skipped reply

/-- The end of `enqueue_directed`. -/
def directedAdmit (t : Session) (wire : Str) (expires : Int) : Answer × Store :=
  let id := s.nextId + 1
  let object := s.objects
  let message : Message :=
    { id := id, expires := expires, partition := cfg.partitionOf client, wire := wire }
  let s := { s.setMessage object message with nextId := id, objects := object + 1 }
  let packet := t.packetForNew
  s.enqueue cfg append (.message message.partition)
    { record := .message
        { id := id, expires := expires, wire := wire
          recipients := [⟨t.client, t.generation, packet⟩], gaps := [] }
      callback := .message object [] 0
      reply := { success with present := true, acceptedTargets := 1 } }
    (fun s => s.attach client id object packet)

def enqueueDirected (wire : Str) (expires : Int) : Answer × Store :=
  s.guarded <|
    match s.sessions[client]? with
    | none => (.replied success, s)
    | some t =>
      if t.online = false then (.replied success, s)
      else if t.epoch ≠ epoch then (.replied { success with stale := true }, s)
      else if t.busy then (.deferred, s)
      else if expiredAt expires now then (.replied { success with present := true }, s)
      else if wire = [] then
        (.replied { success with ok := false, error := some .emptyDirectedPublish }, s)
      else if t.overflowSequence ≠ 0 ∨ backlogFull cfg wire.length t then
        (.full .clientBacklogExhausted, s)
      else
        match s.checkMetadata cfg 0 (s.pending + 1) wire.length with
        | some limit => (.full limit.error, s)
        | none =>
          if s.pending ≥ cfg.maxMessages ∨ wire.length > cfg.maxBytes ∨
              s.bytes > cfg.maxBytes - wire.length then
            (.full .messageCapacityExhausted, s)
          else s.directedAdmit cfg append client t wire expires

/-! ## Retained messages -/

/-- A mutation of the retained map goes to the log of the retained messages. `mutate` is the
mutation, given whether the log takes the record; it refuses when the snapshot would have
no room. -/
def mutateRetained (record : Record) (mutate : Bool → Option Mutation × RetainState) : Answer ×
    Store :=
  s.guarded <|
    match mutate true with
    | (none, retain) => (.full .retainSnapshotLimit, { s with retain := retain })
    | (some mutation, retain) =>
      let job : Job := { record := record, callback := .retained mutation, reply := success }
      match s.admission cfg append job.size with
      | some answer => (answer, { s with retain := (mutate false).2 })
      | none => (.queued .retain job, { s.countRequest job with retain := retain })

def putRetained (m : RetainedMessage) : Answer × Store :=
  if retainTopicOk m.topic = false ∨ m.payload = [] ∨ m.qos > 2 ∨ m.expiresMs < 0 then
    (.replied { error := some .invalidRetainedMessage }, s)
  else
    s.mutateRetained cfg append
      (if expiredAt m.expiresMs now then .retainClear m.topic else .retainSet m.toRecord)
      (s.retain.putRetained (cfg.maxDiskBytes / 32) now m)

def clearRetained (topic : Str) : Answer × Store :=
  if retainTopicOk topic = false then (.replied { error := some .invalidRetainedTopic }, s)
  else s.mutateRetained cfg append (.retainClear topic) (s.retain.clearRetained now topic)

end Store

end Mqtts.Durable
