import Mqtts.Durable.Restore
import Mqtts.Lib.Runs

/-!
# The store with its logs

A log remembers every record that was ever synced to it; `prune` reclaims records from the front, up
to the cut that has been installed. When a batch fails, some of its first records may have been
synced all the same.
-/

namespace Mqtts.Durable

/-! ## Logs -/

/-- `max_record`: the largest record that a log frames. -/
def maxRecord : Nat := 64 * 1024 * 1024

structure Log where
  /-- The jobs whose records have been synced since the directory was made. -/
  disk : List Job := []
  pruned : Nat := 0
  /-- The jobs of the last batch whose callbacks are still to come, with its outcome. -/
  done : List (Job × Bool) := []
  queue : List Job := []
  failed : Bool := false

namespace Log

variable (l : Log)

def inFlight : List Job := l.done.map (·.1) ++ l.queue

def drained : Bool := l.done.isEmpty && l.queue.isEmpty && !l.failed

def append (job : Job) : Log := { l with queue := l.queue ++ [job] }

/-- A batch of the writer: `count` jobs, of which the first `synced` records reach the disk.
The batch succeeds when all of them do. -/
def batch (count synced : Nat) (ok : Bool) : Option Log :=
  if l.done = [] ∧ 0 < count ∧ count ≤ l.queue.length ∧ count ≤ 64 ∧ synced ≤ count ∧
      (ok → synced = count) ∧ (l.failed → synced = 0) ∧ (ok → l.failed = false) ∧
      ∀ job ∈ l.queue.take synced, job.record.encode.length ≤ maxRecord then
    some
      { disk := l.disk ++ l.queue.take synced
        pruned := l.pruned
        done := (l.queue.take count).map fun job => (job, ok)
        queue := l.queue.drop count
        failed := l.failed || !ok }
  else none

def prune (count : Nat) : Log := { l with pruned := max l.pruned count }

def file : LogFile where
  pruned := l.pruned
  records := (l.disk.drop l.pruned).map (·.record.encode)

end Log

/-! ## Checkpoints -/

namespace Store

variable (s : Store)

/-- The messages of the pending deliveries, by their identifier (`live` in `checkpoint`). -/
def liveMessages : Std.ExtTreeMap Nat Nat :=
  (s.sessions.toList.flatMap fun e => e.2.pending.toList.map (·.2.message)).foldl
    (fun live r => if live.contains (s.messages r).id then live else live.insert (s.messages r).id
    r)
    ∅

def checkpointMessage (r : Nat) : CheckpointMessage :=
  let m := s.messages r
  ⟨m.id, m.partition, m.expires, m.wire⟩

def checkpointSession (t : Session) : CheckpointSession where
  client := t.client
  owner := t.owner
  generation := t.generation
  epoch := t.epoch
  expiry := t.expiry
  deadline := t.deadline
  online := t.online
  nextPacket := t.nextPacket
  overflowSequence := t.overflowSequence
  subscriptions := t.subscriptions.toList
  pending := t.pending.toList.map fun e => ((s.messages e.2.message).id, e.2.packet)

/-- The contents of `CHECKPOINT`, unless a message is not committed. -/
def snapshot (cuts : List (Nat × Nat)) : Option Checkpoint :=
  let live := s.liveMessages.toList.map (·.2)
  if live.all (fun r => (s.messages r).committed) then
    some
      { nextId := s.nextId
        cuts := cuts
        messages := live.map s.checkpointMessage
        sessions := s.sessions.toList.map (fun e => s.checkpointSession e.2) }
  else none

end Store

def RetainState.snapshot (s : RetainState) (cut : Nat) : RetainSnapshot where
  cut := cut
  items := (s.retained.toList.filter fun e => decide (e.2.generation ∈ s.flags)).map (·.2.record)

inductive Phase where
  | idle
  /-- Calls are held off until the logs are drained. -/
  | sealing
  /-- The state has been copied; `CHECKPOINT` is still to be replaced. -/
  | copied (checkpoint : Option Checkpoint) (retain : RetainSnapshot)
  /-- `RETAIN` is still to be replaced. -/
  | installed (retain : RetainSnapshot)
  deriving DecidableEq

/-! ## Calls -/

inductive Call where
  | connect (client owner : Str) (clean : Bool) (expiry : UInt32)
  | disconnect (client : Str) (epoch : Nat) (expiryOverride : Int)
  | subscribe (client : Str) (epoch : Nat) (filter : Str) (sub : StoredSubscription)
  | unsubscribe (client : Str) (epoch : Nat) (filter : Str)
  | publish (topic wire sender : Str) (expires : Int64) (implicitNoLocal : Bool)
  | enqueueDirected (client : Str) (epoch : Nat) (wire : Str) (expires : Int64)
  | fetch (client : Str) (epoch after : Nat) (receiveMaximum : UInt16)
  | beginDelivery (client : Str) (epoch sequence : Nat) (packetId : UInt16)
  | acknowledge (client : Str) (epoch : Nat) (packetId : UInt16) (waitForCommit : Bool)
  | discard (client : Str) (epoch : Nat) (packetId : UInt16)
  | putRetained (m : RetainedMessage)
  | clearRetained (topic : Str)

namespace Call

def Typed : Call → Prop
  | putRetained m => m.expiresMs < 2 ^ 63 ∧ m.properties.payloadFormatIndicator < 256
  | _ => True

instance : DecidablePred Typed := fun c => by
  cases c <;> simp only [Typed] <;> infer_instance

variable (cfg : Config)

def log : Call → LogName
  | connect client .. | disconnect client .. | subscribe client .. | unsubscribe client ..
  | fetch client .. | beginDelivery client .. | acknowledge client .. | discard client .. =>
    Store.stateLog cfg client
  | publish topic .. => .message (cfg.partitionOf topic)
  | enqueueDirected client .. => .message (cfg.partitionOf client)
  | putRetained _ | clearRetained _ => .retain

def run (now : Int) (append : Append) (s : Store) : Call → Answer × Store
  | connect client owner clean expiry => s.connect cfg now append client owner clean expiry.toNat
  | disconnect client epoch expiryOverride => s.disconnect cfg now append client epoch
    expiryOverride
  | subscribe client epoch filter sub => s.subscribe cfg append client epoch filter sub
  | unsubscribe client epoch filter => s.unsubscribe cfg append client epoch filter
  | publish topic wire sender expires implicitNoLocal =>
    s.publish cfg now append topic wire sender expires.toInt implicitNoLocal
  | enqueueDirected client epoch wire expires =>
    s.enqueueDirected cfg now append client epoch wire expires.toInt
  | fetch client epoch after receiveMaximum =>
    s.fetch cfg now append client epoch after receiveMaximum.toNat
  | beginDelivery client epoch sequence packetId =>
    s.beginDelivery client epoch sequence packetId.toNat
  | acknowledge client epoch packetId waitForCommit =>
    s.acknowledge cfg append client epoch packetId.toNat waitForCommit
  | discard client epoch packetId => s.discard cfg append client epoch packetId.toNat
  | putRetained m => s.putRetained cfg now append m
  | clearRetained topic => s.clearRetained cfg now append topic

end Call

/-! ## The system -/

/-- The running process and its directory: the state under the mutex, the logs with their writers,
the checkpoint that is under way, the clock, and the results that callers still hold. -/
structure Sys where
  store : Store
  logs : LogName → Log
  now : Int
  phase : Phase
  checkpoint : Option Checkpoint
  retainSnapshot : Option RetainSnapshot
  /-- The bytes of the delivery buffer that results still hold. -/
  reservations : List Nat

/-- A call, a batch of a writer, a callback, a phase of a checkpoint, a heartbeat, the passing of
time, or a stop at any point followed by reopening. -/
inductive Event where
  /-- A call; `full` says that the log has no room for its record. -/
  | call (c : Call) (full : Bool)
  | claimLive (client : Str) (epoch : Nat) (id : UInt16)
  | releaseLive (client : Str) (epoch : Nat) (id : UInt16)
  | release (bytes : Nat)
  | tick (ms : Nat)
  | heartbeat (fulls : List Bool)
  | batch (log : LogName) (count synced : Nat) (ok : Bool)
  | callback (log : LogName)
  | seal
  | abort
  | copy
  | install
  | installRetain
  /-- The writer of a log reclaims records that an installed file covers. -/
  | prune (log : LogName) (count : Nat)
  /-- The process stops, and the store is opened again after a while. -/
  | reopen (ms : Nat)

namespace Sys

variable (cfg : Config)

def start (now : Int) : Sys where
  store := { indexing := true }
  logs _ := {}
  now := now
  phase := .idle
  checkpoint := none
  retainSnapshot := none
  reservations := []

variable (x : Sys) (log : LogName)

def setLog (l : Log) : Sys := { x with logs := Function.update x.logs log l }

def append (job : Job) : Sys := x.setLog log ((x.logs log).append job)

def appendOutcome (full : Bool) : Append :=
  if (x.logs log).failed then .unavailable else if full then .full else .taken

def logNames : List LogName :=
  .retain :: (List.range cfg.partitions).flatMap fun p => [.message p, .state p]

def answer : Answer → Option Reply × Sys
  | .deferred => (none, x)
  | .full e => (some { quotaExceeded := true, error := some e }, x)
  | .error e => (some { error := some e }, x)
  | .replied r => (some r, { x with reservations := x.reservations ++ [r.reservation] })
  | .queued log job => (none, x.append log job)

def call (c : Call) (full : Bool) : Option Reply × Sys :=
  let (a, s) := c.run cfg x.now (x.appendOutcome (c.log cfg) full) x.store
  { x with store := s }.answer a

def callback : Option (Option Reply × Sys) :=
  match (x.logs log).done with
  | [] => none
  | (job, ok) :: rest =>
    let (reply, s) := x.store.runCallback x.now job ok
    some (some reply, { x.setLog log { x.logs log with done := rest } with
        store := s
        reservations := x.reservations ++ [reply.reservation] })

def heartbeat (fulls : List Bool) : Sys :=
  let h := x.store.heartbeat x.now cfg (fun p => (x.logs (.state p)).failed) fulls
  h.jobs.foldl (fun x e => x.append e.1 e.2) { x with store := h.store }

def cuts : List (Nat × Nat) :=
  (List.range cfg.partitions).map
    (fun p => ((x.logs (.message p)).disk.length, (x.logs (.state p)).disk.length))

def copy : Sys :=
  let retain := x.store.retain.eraseExpiredRetained x.now
  { x with
    store := { x.store with frozen := false, retain := retain }
    phase := .copied (x.store.snapshot (x.cuts cfg)) (retain.snapshot (x.logs .retain).disk.length)
      }

def abort : Sys := { x with store := { x.store with frozen := false }, phase := .idle }

/-- `CHECKPOINT` is replaced, unless the new one is not complete or too large. -/
def install (checkpoint : Option Checkpoint) (retain : RetainSnapshot) : Sys :=
  match checkpoint with
  | none => x.abort
  | some c =>
    if c.encode.length + 4 > cfg.maxDiskBytes / 8 then x.abort
    else { x with checkpoint := some c, phase := .installed retain }

/-- `RETAIN` is replaced, unless the new one is too large. -/
def installRetain (retain : RetainSnapshot) : Sys :=
  if retain.encode.length + 4 > cfg.maxDiskBytes / 32 then x.abort
  else { x with retainSnapshot := some retain, phase := .idle }

def installedCut : LogName → Nat
  | .message p => x.checkpoint.elim 0 fun c => ((c.cuts[p]?).getD (0, 0)).1
  | .state p => x.checkpoint.elim 0 fun c => ((c.cuts[p]?).getD (0, 0)).2
  | .retain => x.retainSnapshot.elim 0 (·.cut)

def files : Store.Files where
  checkpoint := x.checkpoint.elim [] fun c => checked c.encode
  messageLogs := (List.range cfg.partitions).map fun p => (x.logs (.message p)).file
  stateLogs := (List.range cfg.partitions).map fun p => (x.logs (.state p)).file
  retainSnapshot := x.retainSnapshot.elim [] fun r => checked r.encode
  retainLog := (x.logs .retain).file

def reopened (now : Int) (s : Store) : Sys where
  store := s
  logs log := { disk := (x.logs log).disk, pruned := (x.logs log).pruned }
  now := now
  phase := .idle
  checkpoint := x.checkpoint
  retainSnapshot := x.retainSnapshot
  reservations := []

def perform : Event → Option (Option Reply × Sys)
  | .call c full => if c.Typed then some (x.call cfg c full) else none
  | .claimLive client epoch id =>
    some (none, { x with store := (x.store.claimLive client epoch id.toNat).2 })
  | .releaseLive client epoch id =>
    some (none, { x with store := x.store.releaseLive client epoch id.toNat })
  | .release bytes =>
    if bytes ∈ x.reservations then
      some (none, { x with
          reservations := x.reservations.erase bytes
          store := { x.store with deliveryBytes := x.store.deliveryBytes - bytes } })
    else none
  | .tick ms => some (none, { x with now := x.now + ms })
  | .heartbeat fulls => some (none, x.heartbeat cfg fulls)
  | .batch log count synced ok =>
    ((x.logs log).batch count synced ok).map fun l => (none, x.setLog log l)
  | .callback log => x.callback log
  | .seal =>
    if x.phase = .idle ∧ x.store.failed = false then
      some (none, { x with store := { x.store with frozen := true }, phase := .sealing })
    else none
  | .abort => if x.phase = .sealing then some (none, x.abort) else none
  | .copy =>
    if x.phase = .sealing ∧ x.store.failed = false ∧ x.store.requests = 0 ∧
        (logNames cfg).all (fun log => (x.logs log).drained) then some (none, x.copy cfg)
    else none
  | .install =>
    match x.phase with
    | .copied checkpoint retain => some (none, x.install cfg checkpoint retain)
    | _ => none
  | .installRetain =>
    match x.phase with
    | .installed retain => some (none, x.installRetain cfg retain)
    | _ => none
  | .prune log count =>
    if count ≤ x.installedCut log then some (none, x.setLog log ((x.logs log).prune count)) else
      none
  | .reopen ms =>
    match Store.restore cfg (x.now + ms) (x.files cfg) with
    | .ok (s, _) => some (none, x.reopened (x.now + ms) s)
    | .error _ => none

def step (e : Event) : Option Sys := (x.perform cfg e).map (·.2)

end Sys

abbrev Reachable (cfg : Config) (ok : Sys → Event → Prop) : Sys → Prop :=
  Runs.Reach (Sys.step cfg) ok fun x => ∃ now, x = Sys.start now

end Mqtts.Durable
