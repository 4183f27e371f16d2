import Mqtts.Durable.Index
import Mqtts.Durable.RetainRecord

/-!
# The state of the durable store

Sessions, messages and deliveries as the running store holds them, and the steps that its operations
are made of. Objects that the source shares by pointer are named by the number of their allocation;
a message is found by its number in `messages`. Notifications of waiting consumers are not part of
the state.
-/

namespace Mqtts.Durable

open Std

/-! ## Objects -/

/-- A pointer to a session. A session that has been erased has no delivery and no subscription left,
so the pointer finds the session of the client only while it is still the same object. -/
structure SessionRef where
  client : Str
  object : Nat
  deriving DecidableEq

structure Message where
  id : Nat := 0
  expires : Int := 0
  partition : Nat := 0
  references : Nat := 0
  expiryCursor : Nat := 0
  recipients : List SessionRef := []
  wire : Str := []
  committed : Bool := false

structure DeliveryState where
  message : Nat
  packet : Nat := 0
  attempted : Bool := false
  started : Bool := false
  ackPending : Bool := false
  claimPending : Bool := false

structure Session where
  object : Nat
  client : Str
  owner : Str
  generation : Nat := 0
  epoch : Nat := 0
  expiry : Nat := 0
  deadline : Int := 0
  overflowSequence : Nat := 0
  scheduledExpiry : Int := 0
  online : Bool := false
  busy : Bool := false
  nextPacket : Nat := 1
  bytes : Nat := 0
  subscriptions : ExtTreeMap Str StoredSubscription := ∅
  pending : ExtTreeMap Nat DeliveryState := ∅
  packets : ExtTreeMap Nat Nat := ∅
  livePacketIds : ExtTreeSet Nat := ∅
  recoveryAcks : List Nat := []
  recoveryClaims : ExtTreeMap Nat Nat := ∅

def Session.ref (t : Session) : SessionRef := ⟨t.client, t.object⟩

structure Store where
  failed : Bool := false
  frozen : Bool := false
  indexing : Bool := false
  nextId : Nat := 0
  pending : Nat := 0
  bytes : Nat := 0
  uniqueBytes : Nat := 0
  requests : Nat := 0
  requestBytes : Nat := 0
  metadataBytes : Nat := 0
  metadataReserved : Nat := 0
  deliveryBytes : Nat := 0
  subscriptions : Nat := 0
  isolatedSessions : Nat := 0
  overflowSkipped : Nat := 0
  sessions : ExtTreeMap Str Session := ∅
  index : TopicIndex := {}
  messageExpiry : ExtTreeMap (Int × Nat) Nat := ∅
  sessionExpiry : ExtTreeMap (Int × Str) Nat := ∅
  objects : Nat := 0
  messages : Nat → Message := fun _ => {}
  retain : RetainState := .empty

namespace Store

variable (s : Store) (r : Nat) (ref : SessionRef)

def find : Option Session :=
  (s.sessions[ref.client]?).filter fun t => t.object == ref.object

variable (client filter : Str)

def put (t : Session) : Store :=
  { s with sessions := s.sessions.insert client t }

def modify (f : Session → Session) : Store :=
  match s.find ref with
  | some t => s.put ref.client (f t)
  | none => s

def setMessage (m : Message) : Store :=
  { s with messages := Function.update s.messages r m }

/-! ## Costs and limits -/

def subscriptionCost : Nat :=
  256 + filter.length * 2 + filter.count slash * 192

def sessionCost (owner : Str) : Nat := 512 + client.length * 2 + owner.length

inductive MetadataLimit where
  | exhausted
  | memory

/-- `check_metadata`: the limit that would be passed. -/
def checkMetadata (cfg : Config) (extra deliveries payload : Nat) : Option MetadataLimit :=
  let extra := extra + s.metadataReserved + s.uniqueBytes + payload
  let budget := cfg.maxDiskBytes / 8
  let overhead := 1024 + cfg.partitions * 16
  if extra > budget ∨ s.metadataBytes > budget - extra ∨
      s.metadataBytes + extra > budget - min budget overhead ∨
      deliveries > (budget - overhead - s.metadataBytes - extra) / 80 then some .exhausted
  else if s.metadataBytes + extra - s.uniqueBytes - payload > cfg.maxRequestBytes * 4 then
    some .memory
  else none

/-! ## The index of subscriptions -/

/-- `index_subscription` with `add`. -/
def addIndex (object : Nat) (filter : Str) : Store :=
  { s with index := s.index.add client object filter }

/-- `index_subscription` without `add`. -/
def removeIndex : Store :=
  { s with index := s.index.discard client filter }

/-- The first half of `set_subscription`: the stored subscription goes. -/
def removeSubscription : Store :=
  match s.sessions[client]? with
  | none => s
  | some t =>
    match t.subscriptions[filter]? with
    | none => s
    | some previous =>
      let s :=
        if previous.qos ≠ 0 then
          { s.removeIndex client filter with subscriptions := s.subscriptions - 1 }
        else s
      { s with
        metadataBytes := s.metadataBytes - subscriptionCost filter
        sessions := s.sessions.insert client
          { t with subscriptions := t.subscriptions.erase filter } }

/-- The second half of `set_subscription`: the new subscription is stored. -/
def addSubscription (sub : StoredSubscription) : Store :=
  match s.sessions[client]? with
  | none => s
  | some t =>
    let s := { s with
      sessions := s.sessions.insert client
        { t with subscriptions := t.subscriptions.insert filter sub }
      metadataBytes := s.metadataBytes + subscriptionCost filter }
    if sub.qos ≠ 0 then
      { s.addIndex client t.object filter with subscriptions := s.subscriptions + 1 }
    else s

/-- `set_subscription`, where no new subscription means `remove`. -/
def setSubscription (sub : Option StoredSubscription) : Store :=
  let s := s.removeSubscription client filter
  match sub with
  | none => s
  | some sub => s.addSubscription client filter sub

/-- `match`: the sessions with a stored subscription of QoS above 0 that matches. -/
def matchTopic (topic : Str) : List (Session × StoredSubscription) :=
  (s.index.matchEntries topic).filterMap fun e =>
    match s.find ⟨e.1, e.2.object⟩ with
    | none => none
    | some t =>
      match t.subscriptions[e.2.filter]? with
      | none => none
      | some sub => if sub.qos = 0 then none else some (t, sub)

/-! ## Expiry indexes -/

def scheduleSession (deadline : Int) : Store :=
  match s.sessions[client]? with
  | none => s
  | some t =>
    let left :=
      if t.scheduledExpiry ≠ 0 then s.sessionExpiry.erase (t.scheduledExpiry, client)
      else s.sessionExpiry
    { s with
      sessionExpiry := if deadline ≠ 0 then left.insert (deadline, client) t.object else left
      sessions := s.sessions.insert client { t with scheduledExpiry := deadline } }

def scheduleMessage : Store :=
  let m := s.messages r
  if m.references ≠ 0 ∧ m.committed ∧ m.expires > 0 then
    { s with messageExpiry := s.messageExpiry.insert (m.expires, m.id) r }
  else s

/-! ## Deliveries -/

def reference : Store :=
  let m := s.messages r
  { s.setMessage r
      { m with references := m.references + 1, recipients := m.recipients ++ [ref] } with
    uniqueBytes := if m.references = 0 then s.uniqueBytes + m.wire.length else s.uniqueBytes }

def attach (id r packet : Nat) : Store :=
  match s.sessions[client]? with
  | none => s
  | some t =>
    let size := (s.messages r).wire.length
    let pending :=
      if t.pending.contains id then t.pending
      else t.pending.insert id { message := r, packet := packet }
    { s.reference r t.ref with
      bytes := s.bytes + size
      pending := s.pending + 1
      sessions := s.sessions.insert client
        { t with
          pending := pending
          packets := if packet ≠ 0 then t.packets.insert packet id else t.packets
          nextPacket := if packet ≠ 0 then packet % 65535 + 1 else t.nextPacket
          bytes := t.bytes + size } }

def releasePacket (t : Session) (id packet : Nat) : ExtTreeMap Nat Nat :=
  if packet ≠ 0 ∧ t.packets[packet]? = some id then t.packets.erase packet else t.packets

def drop (id : Nat) : Store :=
  match s.sessions[client]? with
  | none => s
  | some t =>
    match t.pending[id]? with
    | none => s
    | some d =>
      let m := s.messages d.message
      let size := m.wire.length
      let last := m.references - 1 = 0
      { s.setMessage d.message { m with references := m.references - 1 } with
        uniqueBytes := if last then s.uniqueBytes - size else s.uniqueBytes
        messageExpiry :=
          if last then s.messageExpiry.erase (m.expires, m.id) else s.messageExpiry
        bytes := s.bytes - size
        pending := s.pending - 1
        sessions := s.sessions.insert client
          { t with
            bytes := t.bytes - size
            packets := releasePacket t id d.packet
            pending := t.pending.erase id } }

/-- The loop of `erase_session` over the deliveries. -/
def dropAll : Store :=
  match s.sessions[client]? with
  | none => s
  | some t => t.pending.toList.foldl (fun s e => s.drop client e.1) s

/-- What `erase_session` takes out of the index and the counters of metadata. -/
def unlinkSession : Store :=
  match s.sessions[client]? with
  | none => s
  | some t =>
    let s :=
      if t.overflowSequence ≠ 0 then { s with isolatedSessions := s.isolatedSessions - 1 } else s
    let s := t.subscriptions.toList.foldl (fun s e => s.setSubscription client e.1 none) s
    { s with metadataBytes := s.metadataBytes - sessionCost t.client t.owner }

/-- Takes a session out with its deliveries and subscriptions. -/
def eraseSession : Store :=
  let s := (s.dropAll client).scheduleSession client 0
  let s := if s.indexing then s.unlinkSession client else s
  { s with sessions := s.sessions.erase client }

def markOverflow (sequence : Nat) : Store :=
  match s.find ref with
  | none => s
  | some t =>
    if t.overflowSequence ≠ 0 then s
    else
      { s.put ref.client { t with overflowSequence := sequence } with
        isolatedSessions := if s.indexing then s.isolatedSessions + 1 else s.isolatedSessions }

end Store

/-! ## Packet identifiers -/

namespace Session

variable (t : Session)

/-- The loop of `available_packet`. -/
def availableLoop (reserved : ExtTreeSet Nat) : Nat → Nat → Nat
  | 0, _ => 0
  | rounds + 1, candidate =>
    if t.packets.contains candidate ∨ t.livePacketIds.contains candidate ∨
        reserved.contains candidate then
      availableLoop reserved rounds (candidate % 65535 + 1)
    else candidate

/-- `available_packet`: an identifier that is not in use, or 0. -/
def availablePacket (reserved : ExtTreeSet Nat) : Nat :=
  if t.packets.size + t.livePacketIds.size + reserved.size ≥ 65535 then 0
  else t.availableLoop reserved 65535 t.nextPacket

def packetForNew : Nat := if t.pending.size < 65535 then t.availablePacket ∅ else 0

end Session

end Mqtts.Durable
