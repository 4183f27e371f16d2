import Mqtts.Durable.Ops

/-!
# Delivery and callbacks

The part of the store that a connection uses to take its messages out: `fetch`,
`beginDelivery`, `acknowledge`, and the packet identifiers that the live path reserves.
-/

namespace Mqtts.Durable

open Std

namespace Store

/-! ## Fetch -/

structure FetchState where
  store : Store
  deliveries : List Delivery := []
  claims : List (Nat × Nat) := []
  reserved : ExtTreeSet Nat := ∅
  inflight : Nat
  returnedBytes : Nat := 0
  reservation : Nat := 0
  error : Option StoreError := none

variable (cfg : Config) (now : Int) (s : Store) (client : Str) (ref : SessionRef)

def bufferFull (size : Nat) : Bool :=
  decide (size > cfg.maxRequestBytes / 2) ||
    decide (s.deliveryBytes > cfg.maxRequestBytes / 2 - size) ||
    decide (s.requestBytes > cfg.maxRequestBytes - size - s.deliveryBytes)

namespace FetchState

def reserve (f : FetchState) (size : Nat) : FetchState :=
  { f with
    store := { f.store with deliveryBytes := f.store.deliveryBytes + size }
    reservation := f.reservation + size }

def packetFor (f : FetchState) (client : Str) (entry : DeliveryState) : Nat :=
  if entry.packet ≠ 0 then entry.packet
  else (f.store.sessions[client]?).elim 0 fun t => t.availablePacket f.reserved

def deliver (f : FetchState) (m : Message) (entry : DeliveryState) (packet : Nat) : FetchState :=
  { f with
    deliveries := f.deliveries ++ [⟨m.id, packet, entry.started, m.expires, m.wire⟩]
    claims := if entry.packet = 0 then f.claims ++ [(m.id, packet)] else f.claims
    reserved := if entry.packet = 0 then f.reserved.insert packet else f.reserved
    inflight := f.inflight + 1
    returnedBytes := f.returnedBytes + m.wire.length }

end FetchState

/-- The loop of `fetch` over the entries after the cursor. -/
def fetchLoop (client : Str) (limit : Nat) : List (Nat × DeliveryState) → FetchState → FetchState
  | [], f => f
  | (id, entry) :: rest, f =>
    if f.deliveries.length ≥ 32 ∨ f.inflight ≥ limit then f
    else
      let m := f.store.messages entry.message
      if m.committed = false ∨ entry.claimPending then f
      else if entry.attempted = false ∧ expiredAt m.expires now then
        fetchLoop client limit rest { f with store := f.store.drop client id }
      else if bufferFull cfg f.store m.wire.length then
        if f.deliveries = [] then { f with error := some .deliveryBufferFull } else f
      else
        let f := f.reserve m.wire.length
        let packet := f.packetFor client entry
        if packet = 0 then f
        else
          let f := f.deliver m entry packet
          if f.returnedBytes ≥ 256 * 1024 then f else fetchLoop client limit rest f

def modifyDelivery (id : Nat) (f : DeliveryState → DeliveryState) : Store :=
  s.modify ref fun t =>
    match t.pending[id]? with
    | none => t
    | some d => { t with pending := t.pending.insert id (f d) }

def markAttempted (sequences : List Nat) : Store :=
  sequences.foldl (fun s id => s.modifyDelivery ref id fun d => { d with attempted := true }) s

def startClaim (claim : Nat × Nat) : Store :=
  (s.modify ref fun t =>
    { t with
      packets := t.packets.insert claim.2 claim.1
      nextPacket := claim.2 % 65535 + 1 }).modifyDelivery ref claim.1
        (fun d => { d with claimPending := true })

def window (receiveMaximum : Nat) : Nat :=
  min cfg.maxInflight (if receiveMaximum ≠ 0 then receiveMaximum else 65535)

def fetch (append : Append) (s : Store) (client : Str) (epoch after receiveMaximum : Nat) :
    Answer × Store :=
  s.withCurrent client epoch fun t =>
    let f := fetchLoop cfg now client (window cfg receiveMaximum)
      (t.pending.toList.filter fun e => decide (after < e.1))
      { store := s, inflight := (t.pending.toList.filter fun e => decide (e.1 ≤ after)).length }
    let reply : Reply :=
      { ok := f.error.isNone
        error := f.error
        overflowSequence := t.overflowSequence
        deliveries := f.deliveries
        reservation := f.reservation }
    if f.claims = [] then
      (.replied reply, f.store.markAttempted t.ref (f.deliveries.map (·.sequence)))
    else
      match f.store.enqueue cfg append (stateLog cfg client)
          { record := .control (.claim client t.generation f.claims)
            callback := .claim t.ref epoch f.claims
            reply := reply }
          (fun s => f.claims.foldl (fun s claim => s.startClaim t.ref claim) s) with
      | (.queued log job, s) => (.queued log job, s)
      | (answer, s) => (answer, { s with deliveryBytes := s.deliveryBytes - f.reservation })

/-! ## Acknowledgement -/

def beginDelivery (epoch sequence packetId : Nat) : Answer × Store :=
  s.withCurrent client epoch fun t =>
    match t.pending[sequence]? with
    | none => (.replied staleReply, s)
    | some d =>
      if d.packet ≠ packetId ∨ d.ackPending then (.replied staleReply, s)
      else (.replied success, s.modifyDelivery t.ref sequence fun d => { d with started := true })

def acknowledge (append : Append) (s : Store) (client : Str) (epoch packetId : Nat)
    (waitForCommit : Bool) : Answer × Store :=
  s.withCurrent client epoch fun t =>
    match (t.packets[packetId]?).bind (fun id => (t.pending[id]?).map fun d => (id, d)) with
    | none => (.replied success, s)
    | some (id, d) =>
      if d.attempted = false then (.replied success, s)
      else if d.ackPending then
        if waitForCommit then (.deferred, s) else (.replied { success with present := true }, s)
      else
        s.enqueue cfg append (stateLog cfg client)
          { record := .control (.ack client t.generation id packetId)
            callback := .ack t.ref id
            reply := { success with present := true } }
          (fun s => s.modifyDelivery t.ref id fun d => { d with ackPending := true })

/-- `discard` without its statistics. -/
def discard (append : Append) (s : Store) (client : Str) (epoch packetId : Nat) : Answer × Store :=
  acknowledge cfg append s client epoch packetId true

/-! ## Identifiers of the live path -/

inductive PacketIdClaim where
  | reserved
  | inUse
  | busy
  | absent

def claimLive (epoch id : Nat) : PacketIdClaim × Store :=
  match s.current client epoch with
  | .stale => (.absent, s)
  | .busy => (.busy, s)
  | .found t =>
    if id = 0 ∨ t.packets.contains id ∨ t.livePacketIds.contains id then (.inUse, s)
    else (.reserved, s.put client { t with livePacketIds := t.livePacketIds.insert id })

def releaseLive (epoch id : Nat) : Store :=
  match s.current client epoch with
  | .found t => s.put client { t with livePacketIds := t.livePacketIds.erase id }
  | _ => s

/-! ## Callbacks -/

def connected (t : Session) (client owner : Str) (generation epoch expiry : Nat) (deadline : Int) :
    Session :=
  { t with
    client := client, owner := owner, generation := generation, epoch := epoch, expiry := expiry
    deadline := deadline, online := true, busy := false, livePacketIds := ∅ }

def installSession (owner : Str) (object generation epoch expiry : Nat) (deadline : Int) : Store :=
  let t := (s.find ⟨client, object⟩).getD { object := object, client := client, owner := owner }
  (s.put client (connected t client owner generation epoch expiry deadline)).scheduleSession client
    0

def connectReply (present : Bool) (epoch : Nat) : Reply :=
  { success with
    present := present
    epoch := epoch
    overflowSequence := (s.sessions[client]?).elim 0 (·.overflowSequence)
    subscriptions := (s.sessions[client]?).elim [] (·.subscriptions.toList) }

def connectCommitted (owner : Str) (old : Option Nat) (object generation epoch expiry : Nat)
    (deadline : Int) (clean : Bool) : Reply × Store :=
  let replaced := old.isSome && clean
  let s := if replaced then s.eraseSession client else s
  if clean ∧ expiry = 0 then (success, s)
  else
    let s := s.installSession client owner object generation epoch expiry deadline
    let s :=
      if replaced then { s with metadataBytes := s.metadataBytes + sessionCost client owner } else s
    (s.connectReply client (old.isSome && !clean) epoch, s)

def disconnectCommitted (expiry : Nat) (deadline : Int) : Store :=
  match s.find ref with
  | none => s
  | some t =>
    let s := s.put ref.client
      { t with online := false, livePacketIds := ∅, expiry := expiry, deadline := deadline }
    if expiry = 0 then s.eraseSession ref.client else s.scheduleSession ref.client deadline

def messageCommitted (object : Nat) (overflows : List SessionRef) (skipped : Nat) : Store :=
  let s := overflows.foldl (fun s ref => s.markOverflow ref (s.messages object).id) s
  let s := { s with overflowSkipped := s.overflowSkipped + skipped }
  (s.setMessage object { s.messages object with committed := true }).scheduleMessage object

def claimCommitted (claims : List (Nat × Nat)) (sequences : List Nat) : Store :=
  (claims.foldl (fun s claim => s.modifyDelivery ref claim.1
    (fun d => { d with packet := claim.2, claimPending := false })) s).markAttempted ref sequences

def heartbeatCommitted (live : List (SessionRef × Nat × Int)) : Store :=
  live.foldl (fun s e => s.modify e.1 fun t =>
    if t.epoch = e.2.1 ∧ t.online then { t with deadline := e.2.2 } else t) s

def notBusy : Store := s.modify ref fun t => { t with busy := false }

def applyCallback (now : Int) (s : Store) (reply : Reply) (ok : Bool) : Callback → Reply × Store
  | .connect client owner old object generation epoch expiry deadline clean =>
    let s := (old.map fun object => (⟨client, object⟩ : SessionRef)).elim s s.notBusy
    if ok then s.connectCommitted client owner old object generation epoch expiry deadline clean
    else (reply, s)
  | .disconnect ref expiry deadline =>
    let s := s.notBusy ref
    if ok then (success, s.disconnectCommitted ref expiry deadline) else (reply, s)
  | .subscribe ref filter sub reservation =>
    let s := { s.notBusy ref with metadataReserved := s.metadataReserved - reservation }
    if ok then
      (reply, (s.find ref).elim s fun _ => s.setSubscription ref.client filter (some sub))
    else (reply, s)
  | .unsubscribe ref filter =>
    let s := s.notBusy ref
    if ok then
      (success, (s.find ref).elim s fun _ => s.setSubscription ref.client filter none)
    else (reply, s)
  | .message object overflows skipped =>
    let s := overflows.foldl notBusy s
    if ok then (reply, s.messageCommitted object overflows skipped) else (reply, s)
  | .claim ref epoch claims =>
    if ok then
      let s := s.claimCommitted ref claims (reply.deliveries.map (·.sequence))
      if (s.find ref).any (fun t => t.epoch ≠ epoch) then
        (staleReply, { s with deliveryBytes := s.deliveryBytes - reply.reservation })
      else (reply, s)
    else (reply, s)
  | .ack ref id =>
    if ok then (reply, (s.find ref).elim s fun _ => s.drop ref.client id) else (reply, s)
  | .heartbeat live => (reply, if ok then s.heartbeatCommitted live else s)
  | .retained mutation =>
    (reply, { s with
      retain := if ok then s.retain.commit mutation else s.retain.rollBack now mutation })

/-- The callback of a job: `enqueue`'s own part, and then that of the record. -/
def runCallback (now : Int) (s : Store) (job : Job) (ok : Bool) : Reply × Store :=
  let s := { s with
    requests := s.requests - 1
    requestBytes := s.requestBytes - job.size
    failed := s.failed || !ok }
  let (reply, s) := s.applyCallback now job.reply ok job.callback
  (if ok then reply else { reply with ok := false, error := some .commitFailed }, s)

end Store

end Mqtts.Durable
