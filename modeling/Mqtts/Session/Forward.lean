import Mqtts.Durable.Calls
import Mqtts.Topic.FanOut

/-!
# Forwarding a publication on one broker

`forward_publish_by_topic` takes a publication to its local clients on two paths. The durable store
puts it into the queues of the sessions that its own subscription index selects, and the live path
puts it into the queue of the thread manager of every client that the topic tree names, less those
that the durable store answered with.

A call gives up its thread several times: the durable store may defer it, the log commits later, and
a retained publication goes round a loop until its value is in memory and in the log. Other threads
change the stores, the tree and the registered handlers meanwhile, so a call is a state machine
here.
-/

namespace Mqtts.Session

open Std Maps Durable

/-! ## What a call is given -/

/-- A PUBLISH packet and its sender, as `forward_publish_by_topic` gets them. The topic
comes from a length-prefixed string. -/
structure Request where
  sender : Str
  topic : Str
  payload : Str
  qos : Nat
  retain : Bool
  dup : Bool
  /-- `message_expiry_interval`, when the packet has one. -/
  expiry : Option Nat
  topicAlias : Nat
  topic_length : topic.length ≤ 65535

structure Settings where
  /-- `durable_store_`, by its configuration. -/
  durable : Option Config
  /-- Whether there is a `retain_store_`. -/
  retainStore : Bool
  implicitNoLocal : Bool

inductive ForwardError where
  | publishTopic
  | packetInvalid
  | internal
  | publishQuota

structure Accepted extends Publication where
  payload : Str
  dup : Bool
  expiry : Option Nat

instance decidablePlain (topic : Str) : Decidable (∀ b ∈ topic, b ≠ 0x2b ∧ b ≠ 0x23 ∧ b ≠ 0) :=
  List.decidableBAll _ topic

def Request.accept (cfg : Settings) (r : Request) : Except ForwardError Accepted :=
  if h : r.topic ≠ [] ∧ (∀ b ∈ r.topic, b ≠ 0x2b ∧ b ≠ 0x23 ∧ b ≠ 0) ∧ r.topicAlias = 0 then
    if cfg.durable.isSome ∧ r.qos > 1 then .error .packetInvalid
    else
      .ok
        { sender := r.sender, topic := r.topic, qos := r.qos, retain := r.retain
          topic_ne := h.1, topic_length := r.topic_length, topic_plain := h.2.1
          payload := r.payload, dup := r.dup, expiry := r.expiry }
  else .error .publishTopic

def Accepted.expiredNow (p : Accepted) : Bool := p.expiry == some 0

/-- The deadline of the durable message; 0 is none. -/
def Accepted.expires (p : Accepted) (now : Int) : Int :=
  if p.expiry.getD 0 ≠ 0 then now + (p.expiry.getD 0 : Nat) * 1000 else 0

/-! ## The registered handlers and their queues -/

/-- An entry of `pending_messages_`. -/
structure LiveMessage where
  target : Str
  qos : Nat
  retain : Bool
  dup : Bool

structure Manager where
  pending : List LiveMessage := []
  workers : List LiveMessage := []

/-- What the threads share: the durable store, the topic tree, `client_to_manager_` and
the thread managers. -/
structure World where
  store : Store
  tree : TopicTree
  clientToManager : ExtTreeMap Str Nat
  managers : ExtTreeMap Nat Manager

namespace Manager

def queued (client : Str) (m : Manager) : Nat :=
  m.pending.countP (·.target == client) + m.workers.countP (·.target == client)

/-- `enqueue_shared_message`; the limit of the queue is looked at first. -/
def enqueueSharedMessage (m : Manager) (message : LiveMessage) : Option Manager :=
  if message.target = [] then none
  else if m.pending.length ≥ 10000 then none
  else some { m with pending := m.pending ++ [message] }

end Manager

namespace World

variable (w : World)

def queued (client : Str) : Nat := mapSum (fun _ m => m.queued client) w.managers

/-- `forward_publish_shared`, and whether it succeeded. -/
def forwardPublishShared (message : LiveMessage) : Bool × World :=
  match w.clientToManager[message.target]? with
  | none => (false, w)
  | some id =>
    match ((w.managers[id]?).getD {}).enqueueSharedMessage message with
    | none => (false, w)
    | some m => (true, { w with managers := w.managers.insert id m })

end World

/-! ## The call -/

/-- What the durable store answers to `put_retained` or `clear_retained`. -/
inductive PutAnswer where
  | deferred
  | refused (quota : Bool)
  | accepted

/-- What a section of the call finds: the shared state, the clock, and the outcomes of the durable
store and its log, of `serialize_publish` and of the retained store. -/
structure Moment where
  world : World
  now : Int := 0
  append : Append := .taken
  order : SetOrder
  sort : ClientSort
  storeBusy : Bool := false
  timedOut : Bool := false
  wire : Option Str := none
  retainRejected : Bool := false
  put : PutAnswer := .accepted
  putCommitted : Bool := true
  publishCommitted : Bool := true

/-- The result of `plan_subscription_deliveries`, one delivery for a client. -/
structure Plan where
  deliveries : List PlannedDelivery
  nodup : (deliveries.map (·.clientId)).Nodup

def Plan.empty : Plan := ⟨[], List.nodup_nil⟩

def Plan.of (m : Moment) (p : Publication) (implicitNoLocal : Bool) : Plan :=
  ⟨liveDeliveries m.world.tree m.order m.sort p implicitNoLocal, nodup_liveDeliveries ..⟩

/-- Where the call is. The first four stages are those of a publication that is not
retained, the next three those of a retained one. -/
inductive Stage where
  | looking
  | publishing
  | submitting (wire : Str) (expires : Int)
  | committing (reply : Reply)
  | top
  | locked
  | awaiting
  | sending (rest : List PlannedDelivery) (forwarded : Nat)
  | returned (result : Except ForwardError Nat)

structure Forward where
  stage : Stage
  wire : Option (Str × Int) := none
  memoryDone : Bool := false
  putDone : Bool := false
  /-- `publish_done`, with whether the commit is still to come. -/
  publishDone : Option Bool := none
  lookupDone : Bool := false
  lookupOk : Bool := true
  planned : Plan := .empty
  persistedTargets : List Str := []
  persistedCount : Nat := 0

/-- The result of `DurableStore::publish` as the call reads it. -/
inductive PublishResult where
  | deferred
  | refused (quota : Bool)
  | accepted (reply : Reply) (commit : Bool)

def PublishResult.ofAnswer : Answer → PublishResult
  | .deferred => .deferred
  | .full _ => .refused true
  | .error _ => .refused false
  | .replied r => if r.ok then .accepted r false else .refused r.quotaExceeded
  | .queued _ job => .accepted job.reply true

def refusal (quota : Bool) : ForwardError := if quota then .publishQuota else .internal

/-- One attempt of `publish`; it is put off while another thread holds the mutex. -/
def Moment.publish (m : Moment) (store : Config) (p : Accepted) (implicitNoLocal : Bool)
    (wire : Str) (expires : Int) : PublishResult × World :=
  if m.storeBusy then (.deferred, m.world)
  else
    let r :=
      m.world.store.publish store m.now m.append p.topic wire p.sender expires implicitNoLocal
    (.ofAnswer r.1, { m.world with store := r.2 })

def Moment.hasSubscriptions (m : Moment) : Bool := m.world.store.subscriptions != 0

/-- `std::binary_search`: the first name that is not before `name` is not after it. -/
def binarySearch (names : List Str) (name : Str) : Bool :=
  match names.dropWhile (fun n => compare n name == .lt) with
  | [] => false
  | n :: _ => compare name n != .lt

namespace Forward

variable (cfg : Settings) (p : Accepted) (f : Forward)

def finish (result : Except ForwardError Nat) : Forward := { f with stage := .returned result }

def fail (e : ForwardError) : Forward := f.finish (.error e)

variable (m : Moment)

/-- `find_topic_subscribers` and the plan; a failed search keeps the plan that is there. -/
def search : Forward :=
  match m.world.tree.findSubscribers m.order m.sort p.topic with
  | .error _ => { f with lookupOk := false }
  | .ok _ => { f with lookupOk := true, planned := .of m p.toPublication cfg.implicitNoLocal }

def fillLookup : Forward :=
  if f.lookupDone then f else { f.search cfg p m with lookupDone := true }

def persisted (reply : Reply) : Forward :=
  { f with persistedTargets := reply.targets, persistedCount := reply.acceptedTargets }

def settle : Forward :=
  if p.expiredNow then f.finish (.ok 0)
  else if f.lookupOk = false then f.finish (.ok 0)
  else { f with stage := .sending f.planned.deliveries f.persistedCount }

/-- Whether the durable store is to be asked at all; `may_publish`. -/
def mayPublish : Bool := cfg.durable.isSome && p.qos == 1 && !p.expiredNow

/-! ### A retained publication -/

def serialize : Forward :=
  if mayPublish cfg p && m.hasSubscriptions && f.wire.isNone && f.publishDone.isNone &&
      !f.memoryDone then
    match m.wire with
    | none => f.fail .internal
    | some wire => { f with wire := some (wire, p.expires m.now), stage := .locked }
  else { f with stage := .locked }

def putRetained : Forward :=
  if cfg.durable.isSome && !f.putDone then
    match m.put with
    | .deferred => { f with stage := .top }
    | .refused quota => f.fail (refusal quota)
    | .accepted => { f with putDone := true, stage := .awaiting }
  else { f with stage := .awaiting }

def storeRetained : Forward :=
  if f.memoryDone then f.putRetained cfg m
  else if m.retainRejected then { f.fillLookup cfg p m with stage := .awaiting }
  else ({ f with memoryDone := true }.fillLookup cfg p m).putRetained cfg m

def underLock : Forward × World :=
  match cfg.durable with
  | none => (f.storeRetained cfg p m, m.world)
  | some store =>
    if mayPublish cfg p && !f.memoryDone && f.publishDone.isNone && m.hasSubscriptions then
      match f.wire with
      | none => ({ f with stage := .top }, m.world)
      | some (wire, expires) =>
        let f := f.fillLookup cfg p m
        match m.publish store p cfg.implicitNoLocal wire expires with
        | (.deferred, w) => ({ f with lookupDone := false, planned := .empty, stage := .top }, w)
        | (.refused quota, w) => (f.fail (refusal quota), w)
        | (.accepted reply commit, w) =>
          ((({ f with publishDone := some commit }.persisted reply).storeRetained cfg p m), w)
    else (f.storeRetained cfg p m, m.world)

def await : Forward :=
  if f.putDone && !m.putCommitted then f.fail .internal
  else if f.publishDone = some true ∧ m.publishCommitted = false then f.fail .internal
  else f.settle p

/-! ### A publication that is not retained -/

/-- From the search to `publish`. -/
def prepare : Forward :=
  if mayPublish cfg p && m.hasSubscriptions then
    match m.wire with
    | none => f.fail .internal
    | some wire => { f with stage := .submitting wire (p.expires m.now) }
  else f.settle p

/-- One round of `call`: while the journal is not frozen, the patience is limited. -/
def submit (wire : Str) (expires : Int) : Forward × World :=
  match cfg.durable with
  | none => (f.settle p, m.world)
  | some store =>
    match m.publish store p cfg.implicitNoLocal wire expires with
    | (.deferred, w) =>
      if m.timedOut && !m.world.store.frozen then (f.fail .publishQuota, w) else (f, w)
    | (.refused quota, w) => (f.fail (refusal quota), w)
    | (.accepted reply commit, w) =>
      if commit then ({ f with stage := .committing reply }, w)
      else ((f.persisted reply).settle p, w)

def commit (reply : Reply) : Forward :=
  if m.publishCommitted then (f.persisted reply).settle p else f.fail .internal

/-! ### The loop over the plan -/

def shape (d : PlannedDelivery) : LiveMessage :=
  { target := d.clientId, qos := d.qos, retain := d.retain
    dup := if d.qos ≠ p.qos ∨ d.retain ≠ p.retain then false else p.dup }

def send (d : PlannedDelivery) (rest : List PlannedDelivery) (forwarded : Nat) : Forward × World :=
  if binarySearch f.persistedTargets d.clientId then
    ({ f with stage := .sending rest forwarded }, m.world)
  else
    let r := m.world.forwardPublishShared (shape p d)
    ({ f with stage := .sending rest (if r.1 then forwarded + 1 else forwarded) }, r.2)

def step : Forward × World :=
  match f.stage with
  | .looking => ({ f.search cfg p m with stage := .publishing }, m.world)
  | .publishing => (f.prepare cfg p m, m.world)
  | .submitting wire expires => f.submit cfg p m wire expires
  | .committing reply => (f.commit p m reply, m.world)
  | .top => (f.serialize cfg p m, m.world)
  | .locked => f.underLock cfg p m
  | .awaiting => (f.await p m, m.world)
  | .sending [] forwarded => (f.finish (.ok forwarded), m.world)
  | .sending (d :: rest) forwarded => f.send p m d rest forwarded
  | .returned _ => (f, m.world)

def start (cfg : Settings) (p : Accepted) : Forward :=
  { stage := if p.retain && cfg.retainStore then .top else .looking }

end Forward

/-! ## What a call delivers -/

def pendingOf (s : Store) (client : Str) : List Nat :=
  (s.sessions[client]?).elim [] (·.pending.keys)

def newDeliveries (s s' : Store) (client : Str) : Nat :=
  ((pendingOf s' client).filter fun id => !(pendingOf s client).contains id).length

/-- What the call put into the durable queue of every client and into the queues of the thread
managers, as the difference of the states before and after each section. -/
structure Trace where
  forward : Forward
  durable : Str → Nat := fun _ => 0
  live : Str → Nat := fun _ => 0

def Trace.step (cfg : Settings) (p : Accepted) (t : Trace) (m : Moment) : Trace :=
  let r := t.forward.step cfg p m
  { forward := r.1
    durable := fun client => t.durable client + newDeliveries m.world.store r.2.store client
    live := fun client => t.live client + (r.2.queued client - m.world.queued client) }

def forwardPublishByTopic (cfg : Settings) (r : Request) (moments : List Moment) : Trace :=
  match r.accept cfg with
  | .error e => { forward := { stage := .returned (.error e) } }
  | .ok p => moments.foldl (Trace.step cfg p) { forward := .start cfg p }

end Mqtts.Session
