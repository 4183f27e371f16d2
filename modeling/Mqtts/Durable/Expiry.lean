import Mqtts.Durable.Delivery

/-!
# Expiry and heartbeats

`expire` drops the deliveries of expired messages that no connection has attempted yet, and erases
the sessions that are past their deadline. While the store runs, a pass works through the two expiry
indexes with a budget of 256 steps for each. When the store opens, it goes over all sessions
instead.
-/

namespace Mqtts.Durable

namespace Store

variable (now : Int)

/-! ## A pass while the store runs -/

variable (s : Store)

def expireRecipient (id : Nat) (ref : SessionRef) : Store :=
  match s.find ref with
  | none => s
  | some t =>
    match t.pending[id]? with
    | none => s
    | some d => if d.attempted then s else s.drop ref.client id

/-- The loop of `expire` over the recipients of a message, with the budget that is left. -/
def expireRecipients (r : Nat) : Nat → Store → Nat × Store
  | 0, s => (0, s)
  | budget + 1, s =>
    let m := s.messages r
    match m.recipients[m.expiryCursor]? with
    | none => (budget + 1, s)
    | some ref =>
      expireRecipients r budget
        ((s.setMessage r { m with expiryCursor := m.expiryCursor + 1 }).expireRecipient m.id ref)

/-- The loop of `expire` over the messages. A round takes an entry out of the index or uses
the budget up, so the size of the index bounds the rounds. -/
def expireMessages : Nat → Nat → Store → Store
  | 0, _, s => s
  | rounds + 1, budget, s =>
    match Maps.first? s.messageExpiry with
    | none => s
    | some ((expires, id), r) =>
      if budget = 0 ∨ expires > now then s
      else
        let (budget, s) := expireRecipients r budget s
        let m := s.messages r
        expireMessages rounds budget
          (if m.expiryCursor = m.recipients.length then
            { s with messageExpiry := s.messageExpiry.erase (expires, id) }
          else s)

variable (client : Str)

def dropSome (budget : Nat) : Nat × Store :=
  match s.sessions[client]? with
  | none => (budget, s)
  | some t =>
    let entries := t.pending.toList.take budget
    (budget - entries.length, entries.foldl (fun s e => s.drop client e.1) s)

def expireSession (t : Session) (budget : Nat) : Nat × Store :=
  let s := s.put client { t with scheduledExpiry := 0 }
  if t.busy then (budget, s.scheduleSession client (now + 100))
  else
    let (budget, s) := s.dropSome client budget
    if (s.sessions[client]?).all (·.pending.isEmpty) then (budget, s.eraseSession client)
    else (budget, s.scheduleSession client (now + 100))

/-- The loop of `expire` over the sessions; every round uses a step of the budget. -/
def expireSessions : Nat → Nat → Store → Store
  | 0, _, s => s
  | rounds + 1, budget, s =>
    match Maps.first? s.sessionExpiry with
    | none => s
    | some ((deadline, client), object) =>
      if budget = 0 ∨ deadline > now then s
      else
        let s := { s with sessionExpiry := s.sessionExpiry.erase (deadline, client) }
        match s.find ⟨client, object⟩ with
        | none => expireSessions rounds (budget - 1) s
        | some t =>
          let (budget, s) := s.expireSession now client t (budget - 1)
          expireSessions rounds budget s

/-- `expire` while the store runs. -/
def expire : Store :=
  let s := expireMessages now s.messageExpiry.size 256 s
  expireSessions now 256 256 s

/-! ## The pass at startup -/

def dropExpired (e : Nat × DeliveryState) : Store :=
  let m := s.messages e.2.message
  if e.2.attempted = false ∧ m.committed ∧ expiredAt m.expires now then s.drop client e.1 else s

def expireStartupSession : Store :=
  match s.sessions[client]? with
  | none => s
  | some t =>
    let s := s.put client { t with online := false }
    if t.busy = false ∧ t.deadline ≤ now then s.eraseSession client
    else t.pending.toList.foldl (fun s e => s.dropExpired now client e) s

/-- `expire` with `startup`. -/
def expireStartup : Store := s.sessions.keys.foldl (expireStartupSession now) s

/-! ## Heartbeats -/

variable (cfg : Config)

def takeBatch : Nat → Nat → List Session → List Session × List Session
  | _, _, [] => ([], [])
  | count, recordBytes, t :: rest =>
    let bytes := t.client.length + 28
    if count ≥ 64 ∨ recordBytes + bytes + 256 > cfg.maxRequestBytes then ([], t :: rest)
    else
      let (live, rest) := takeBatch (count + 1) (recordBytes + bytes) rest
      (t :: live, rest)

def heartbeatJob (live : List Session) : Job :=
  let deadline (t : Session) : Int := now + t.expiry * 1000
  { record := .control (.heartbeat (live.map fun t =>
      ⟨t.client, t.generation, t.epoch, deadline t⟩))
    callback := .heartbeat (live.map fun t => (t.ref, t.epoch, deadline t))
    reply := {} }

structure HeartbeatState where
  store : Store
  jobs : List (LogName × Job) := []
  fulls : List Bool

def HeartbeatState.append (h : HeartbeatState) (failed : Bool) : Append :=
  if failed then .unavailable else if h.fulls.headD false then .full else .taken

/-- The loop of `heartbeat` over the batches of a shard; it says whether the next shard is
to come. Every round takes a session at least. -/
def heartbeatShard (partition : Nat) (failed : Bool) :
    Nat → List Session → HeartbeatState → Bool × HeartbeatState
  | 0, _, h => (true, h)
  | rounds + 1, online, h =>
    if online = [] then (true, h)
    else
      let (live, rest) := takeBatch cfg 0 5 online
      if live = [] then (false, h)
      else
        match h.store.enqueue cfg (h.append failed) (.state partition)
            (heartbeatJob now live) id with
        | (.queued log job, s) =>
          heartbeatShard partition failed rounds rest
            { store := s, jobs := h.jobs ++ [(log, job)], fulls := h.fulls.tail }
        | (.full _, s) => (true, { h with store := s, fulls := h.fulls.tail })
        | (_, s) => (false, { h with store := s, fulls := h.fulls.tail })

/-- The loop of `heartbeat` over the shards; `failed` says which session logs have failed. -/
def heartbeatShards (failed : Nat → Bool) (online : List Session) :
    List Nat → HeartbeatState → HeartbeatState
  | [], h => h
  | p :: rest, h =>
    let shard := online.filter fun t => cfg.partitionOf t.client == p
    let (next, h) := heartbeatShard now cfg p (failed p) shard.length shard h
    if next then heartbeatShards failed online rest h else h

/-- A pass of `expire`, and then a HEARTBEAT record for every batch of sessions that are online. -/
def heartbeat (failed : Nat → Bool) (fulls : List Bool) (s : Store) : HeartbeatState :=
  if s.frozen ∨ s.failed then { store := s, fulls := fulls }
  else
    let s := s.expire now
    heartbeatShards now cfg failed ((s.sessions.toList.map (·.2)).filter fun t => t.online &&
      !t.busy)
      (List.range cfg.partitions) { store := s, fulls := fulls }

end Store

end Mqtts.Durable
