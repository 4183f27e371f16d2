import Mqtts.Lib.Runs
import Mqtts.Retain.StoreSpec

/-!
# Retained publications on one broker

`forward_publish_by_topic` for a packet with the retain flag, on a broker with a durable
store. A call takes the retain replay lock, reads the value that is there, stores its own,
and offers it to the durable store, which defers it (the call lets the lock go and tries
again later, its value staying in memory), refuses it or takes it. A call whose value was
taken lets the lock go and waits for the commit. When the durable store refuses the value
or the commit fails, `rollback_retained` looks at the value that is there and puts the
earlier one back if it still finds its own.

The calls run on several threads, so every call of the retained store is a step of its
own. The rollback after a failed commit does not hold the lock.

`committed` and `uncommitted` are history: the value of the last publication on a topic
whose commit succeeded, and the calls in flight that changed the topic after that one,
newest first.
-/

namespace Mqtts.Retain

open Std Function
open RetainStore (deletes requested storable)

inductive Phase where
  | waiting
  | locked
  | peeked (now : Int)
  | stored (now : Int)
  | admitting
  | deferred
  | awaiting
  | failing (locked : Bool)
  | restoring (locked : Bool)
  deriving DecidableEq

/-- A call in flight: its packet, its phase, its variables `previous` and `installed`, and
the value it gave to its topic. -/
structure Job where
  packet : RetainPacket
  sender : Str
  phase : Phase := .waiting
  previous : Option RetainedCopy := none
  installed : Option Nat := none
  value : Option RetainedCopy := none

def Job.topic (j : Job) : Str := j.packet.topicName

structure Broker where
  store : RetainStore
  lock : Option Nat
  jobs : ExtTreeMap Nat Job
  clock : Int
  committed : Str → Option RetainedCopy
  uncommitted : Str → List Nat

inductive CallStep where
  | lock
  | unlock
  | giveUp
  | peekPrevious (now : Int)
  | store (address : Nat)
  | peekInstalled
  | defer
  | accept
  | refuse
  | commit
  | fail
  | examine (now : Int)
  | restore
  deriving DecidableEq

inductive Event where
  | arrive (id : Nat) (packet : RetainPacket) (sender : Str)
  | call (id : Nat) (step : CallStep)
  | purge (topics : List Str) (now : Int)
  | tick (ns : Nat)

/-- The check of `rollback_retained` on the value it finds: its own content, or nothing
for a call that deleted. -/
def rollbackApplies (installed : Option Nat) (current : Option RetainedCopy) : Bool :=
  match installed with
  | some address => current.any fun c => c.content.address == address
  | none => current.isNone

namespace Broker

variable (b : Broker) (id : Nat) (j : Job)

def setJob : Broker := { b with jobs := b.jobs.insert id j }

def finish (locked : Bool) : Broker :=
  { b with
    jobs := b.jobs.erase id
    lock := if locked then none else b.lock }

def forget (topic : Str) : Broker :=
  { b with uncommitted := update b.uncommitted topic ((b.uncommitted topic).erase id) }

/-- The store after `rollback_retained` has put the earlier value back. -/
def rolledBack : RetainStore :=
  match j.previous with
  | some copy => (b.store.install copy).2
  | none => (b.store.remove j.topic).2

def release (p : Phase) : Broker :=
  { b.setJob id { j with phase := p } with lock := none }

def acquire (p : Phase) : Broker :=
  { b.setJob id { j with phase := p } with lock := some id }

variable (limits : RetainConfig) (now : Int)

def peekPrevious : Broker :=
  b.setJob id { j with phase := .peeked now, previous := b.store.peek j.topic now }

/-- The call stores its value, unless the retained store rejects it: then the call goes on
without a retained value, and nothing is in flight. -/
def storeValue (id : Nat) (j : Job) (address : Nat) (now : Int) : Broker :=
  let r := b.store.store j.packet j.sender limits address now
  match r.1.kind with
  | .rejected _ => { b.finish id true with store := r.2 }
  | _ =>
    { b.setJob id
        { j with
          phase := if deletes j.packet then .admitting else .stored now
          value := requested j.packet j.sender address now } with
      store := r.2
      uncommitted := update b.uncommitted j.topic (id :: b.uncommitted j.topic) }

def commit : Broker :=
  { b.finish id false with
    committed := update b.committed j.topic j.value
    uncommitted := update b.uncommitted j.topic ((b.uncommitted j.topic).takeWhile (· ≠ id)) }

/-- The steps of a call, by its phase. In the phase `locked` the durable store may defer or
refuse the publication to subscribers, before memory is touched. -/
def callStep (id : Nat) (j : Job) (step : CallStep) : Option Broker :=
  match j.phase, step with
  | .waiting, .lock => if b.lock = none then some (b.acquire id j .locked) else none
  | .locked, .unlock => some (b.release id j .waiting)
  | .locked, .giveUp => some (b.finish id true)
  | .locked, .peekPrevious now => if now ≤ b.clock then some (b.peekPrevious id j now) else none
  | .peeked now, .store address => some (b.storeValue limits id j address now)
  | .stored now, .peekInstalled =>
    some (b.setJob id
      { j with
        phase := .admitting
        installed := (b.store.peek j.topic now).map (·.content.address) })
  | .admitting, .defer => some (b.release id j .deferred)
  | .admitting, .accept => some (b.release id j .awaiting)
  | .admitting, .refuse => some (b.setJob id { j with phase := .failing true })
  | .deferred, .lock => if b.lock = none then some (b.acquire id j .admitting) else none
  | .awaiting, .commit => some (b.commit id j)
  | .awaiting, .fail => some (b.setJob id { j with phase := .failing false })
  | .failing locked, .examine now =>
    if now ≤ b.clock then
      if rollbackApplies j.installed (b.store.peek j.topic now) then
        some (b.setJob id { j with phase := .restoring locked })
      else some ((b.finish id locked).forget id j.topic)
    else none
  | .restoring locked, .restore =>
    some { (b.finish id locked).forget id j.topic with store := b.rolledBack j }
  | _, _ => none

/-- A step of the broker. A call starts with a topic that `forward_publish_by_topic` takes;
`purge` is what matching a filter does to the retained store. -/
def step (limits : RetainConfig) (b : Broker) : Event → Option Broker
  | .arrive id packet sender =>
    if b.jobs[id]? = none ∧ Durable.retainTopicOk packet.topicName then
      some (b.setJob id { packet, sender })
    else none
  | .call id step =>
    match b.jobs[id]? with
    | some j => b.callStep limits id j step
    | none => none
  | .purge topics now =>
    if now ≤ b.clock then some { b with store := b.store.purge topics now } else none
  | .tick ns => some { b with clock := b.clock + ns }

/-- The store as `restore_retained_messages` loads it: packets with their senders, and the
addresses of their contents. -/
def load (records : List (RetainPacket × Str × Nat)) : RetainStore :=
  records.foldl (fun s r => (s.store r.1 r.2.1 limits r.2.2 now).2) .empty

def start (records : List (RetainPacket × Str × Nat)) : Broker where
  store := load limits now records
  lock := none
  jobs := ∅
  clock := now
  committed := fun topic => (load limits now records).peek topic now
  uncommitted := fun _ => []

def Starts (b : Broker) : Prop := ∃ now records, b = start limits now records

end Broker

end Mqtts.Retain
