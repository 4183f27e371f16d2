import Mqtts.Authz.Remote
import Mqtts.Lib.Runs

/-!
# The remote authorization provider

`RemoteAuthProvider` asks a service whether a client may publish or subscribe, and keeps the answers
in a cache of sixteen shards. A call of `authorize` that finds no usable entry makes a job, or joins
the job that is pending for its key; an entry that is no longer fresh is still served while one call
has it refreshed. A worker sends the jobs, one by one over HTTP or in batches over gRPC, and
completes them: the answer goes into the cache and to the calls that wait for the job.
`update_version` brings a new revision of the policy; an answer from before is used neither for the
cache nor for a call.

Every section of a mutex is a step of its own: that of a shard, of the queue, of a job. `look` and
`complete` load the epochs inside the section of the shard, so those loads belong to its step; an
epoch that is read or counted up outside of a section is a step of its own. Both clocks go forward
with the same event. The counter `moment` numbers the steps: it is history, as are the stamps
`created`, `started` and `completed` and the replies of a job.
-/

namespace Mqtts.RemoteAuth

open Function

/-! ## The state -/

/-- A job remembers the epochs that it was made under. -/
structure Job where
  ask : Ask
  /-- The key of the cache that `complete` enters the answer under. -/
  key : Option Str
  body : Str := []
  started : Nat
  deadline : Nat
  /-- What `current` compares with: the epoch and the epoch of the user's scope. -/
  epoch : Nat
  scopeEpoch : Nat
  /-- `decision`, once the job is finished. -/
  finished : Option Decision := none
  waiters : Nat := 0
  created : Nat
  replies : List Reply := []

/-- An entry has the epochs of its job. -/
structure CacheEntry where
  decision : Decision
  freshUntil : Nat
  expires : Nat
  retryAfter : Nat := 0
  epoch : Nat
  scopeEpoch : Nat

def CacheEntry.settled (e : CacheEntry) (now : Nat) : Bool :=
  now < e.freshUntil || now < e.retryAfter

structure Shard where
  entries : List (Str × CacheEntry) := []
  pending : List (Str × Nat) := []

/-- Without a cache, and for logins, `fetch` makes a job for one call. -/
structure Fetch where
  body : Str
  deadline : Nat
  bootstrap : Bool
  attempt : Nat := 0
  deriving DecidableEq

abbrev Cached := Option (Decision × Nat)

inductive Stage where
  | idle
  -- `authorize`, up to the job
  | entering
  | timing (key : Str)
  | loading (key : Str) (now : Nat)
  | scoping (key : Str) (now epoch : Nat)
  | looking (key : Str) (now epoch scopeEpoch : Nat)
  | filling (job : Nat) (cached : Cached)
  | failing (job : Nat) (cached : Cached) (thrown : Bool)
  | failed (job : Nat) (d : Decision) (cached : Cached) (thrown : Bool)
  -- `fetch`
  | fetching (body : Str)
  | opening (f : Fetch)
  | fencing (f : Fetch) (started created epoch : Nat)
  | posting (f : Fetch) (job : Nat)
  | rechecking (f : Fetch) (job : Nat) (d : Decision) (now : Nat)
  | recheckingScope (f : Fetch) (job : Nat) (d : Decision) (now : Nat)
  -- `Job::wait`
  | awaiting (job : Nat)
  | waiting (job : Nat)
  | parked (job : Nat)
  | lastLook (job : Nat)
  | validating (job : Nat) (d : Decision)
  | validatingScope (job : Nat) (d : Decision)
  | expiring (job : Nat) (d : Decision)
  -- `Job::poll`, and a call that has been told to poll
  | polling (job : Nat)
  | pollingScope (job : Nat)
  | pollingJob (job : Nat)
  | held (job : Nat)
  | returned (d : Decision) (now : Nat) (cached : Bool)
  deriving DecidableEq

structure Call where
  ask : Ask := .authenticate []
  deferred : Bool := false
  fetch : Option Fetch := none
  stage : Stage := .idle
  started : Nat := 0

inductive Worker where
  | idle
  | gathering (job : Nat)
  | sending (jobs : List Nat)
  | delivering (results : List (Nat × Decision))
  | finishing (job : Nat) (d : Decision) (rest : List (Nat × Decision))

inductive UpdateStage where
  | comparing
  | naming (rest : List Str)
  | replacing
  | advancing
  | clearing (shard : Nat)
  | done
  deriving DecidableEq

/-- A call of `update_version`: it counts up the epoch of the cache and clears it, or the epochs of
the scopes of the users that changed. -/
structure Update where
  value : Str
  invalidated : List Str
  delta : Bool
  stage : UpdateStage := .comparing
  full : Bool := false
  completed : Option Nat := none

structure Sys where
  mono : Nat := 0
  wall : Nat := 0
  moment : Nat := 0
  epoch : Nat := 0
  /-- `scope_epochs`. -/
  scopes : Nat → Nat := fun _ => 0
  revision : Str := []
  shards : Nat → Shard := fun _ => {}
  jobs : List Job := []
  queue : List Nat := []
  calls : Nat → Call := fun _ => {}
  workers : Nat → Worker := fun _ => .idle
  updates : List Update := []

def shardOf (key : Str) : Nat := (key.headD 0).toNat % 16

namespace Sys

variable (cfg : Config) (x : Sys) (c j : Nat) (d : Decision)

def setCall (k : Call) : Sys := { x with calls := update x.calls c k }

def setStage (stage : Stage) : Sys := x.setCall c { x.calls c with stage := stage }

def setWorker (w : Nat) (worker : Worker) : Sys :=
  { x with workers := update x.workers w worker }

def setShard (i : Nat) (shard : Shard) : Sys := { x with shards := update x.shards i shard }

def setJob (f : Job → Job) : Sys := { x with jobs := x.jobs.modify j f }

def setUpdate (u : Nat) (f : Update → Update) : Sys := { x with updates := x.updates.modify u f }

def scopeEpoch (username : Str) : Nat := x.scopes (cfg.scopeFor username)

/-! ## The queue -/

def queuedBytes : Nat := (x.queue.map fun j => ((x.jobs[j]?).map (·.body.length)).getD 0).sum

def enqueue (body : Str) (login : Bool) : Option Sys :=
  if x.queue.length ≥ cfg.queueCapacity ∨ body.length > cfg.queueByteLimit - x.queuedBytes ∨
      (cfg.grpcMode ∧ login = false ∧ body.length + 32 > cfg.batchBytes) then none
  else some { x with queue := x.queue ++ [j] }

/-! ## The completion of a job -/

/-- The time `expires`, or the one at which the wall clock shows `bound` if that is before. -/
def bounded (expires bound : Nat) : Nat :=
  if bound = 0 then expires else min expires ((x.mono + (bound - x.wall)) % 2 ^ 64)

variable (J : Job) (r : Request) (key : Str)

def expiry (d : Decision) : Nat :=
  let session :=
    match J.ask with
    | .authorize r => cfg.sessionExpiry r.user.session
    | .authenticate _ => 0
  x.bounded (x.bounded (J.started + d.maxAgeMs) session) d.expiresAt

/-- The answer replaces the entry of the key, or only removes it. The oldest entries go while
the shard is full. -/
def store (d : Decision) (entries : List (Str × CacheEntry)) : List (Str × CacheEntry) :=
  let entries := entries.filter (·.1 ≠ key)
  let expires := x.expiry cfg J d
  if cfg.versioned ∧ (d.revision = [] ∨ (x.revision ≠ [] ∧ d.revision ≠ x.revision)) then
    entries
  else if d.freshMs = 0 ∨ expires ≤ x.mono then entries
  else
    (key,
      { decision := d
        freshUntil := min (J.started + d.freshMs) expires
        expires := expires
        epoch := J.epoch
        scopeEpoch := J.scopeEpoch }) :: entries.take (cfg.cacheCapacity / 16 - 1)

def holdOff (entries : List (Str × CacheEntry)) : List (Str × CacheEntry) :=
  entries.map fun entry =>
    if entry.1 = key then (key, { entry.2 with retryAfter := x.mono + cfg.cooldown }) else entry

/-- `complete`, for a job that has one. -/
def complete (d : Decision) : Sys × Decision :=
  match J.key with
  | none => (x, d)
  | some key =>
    let shard := x.shards (shardOf key)
    let shard := { shard with pending := shard.pending.filter (·.1 ≠ key) }
    if J.epoch ≠ x.epoch ∨ J.scopeEpoch ≠ x.scopeEpoch cfg J.ask.username then
      (x.setShard (shardOf key) shard, {})
    else if d.authoritative = false then
      (x.setShard (shardOf key) { shard with entries := x.holdOff cfg key shard.entries }, d)
    else
      (x.setShard (shardOf key) { shard with entries := x.store cfg J key d shard.entries }, d)

/-- The end of `finish`: the decision is there and nobody waits any more. -/
def conclude : Sys :=
  x.setJob j fun J => { J with finished := some d, waiters := 0 }

/-! ## `authorize` -/

def sessionOver : Bool :=
  cfg.sessionExpiry r.user.session ≠ 0 && cfg.sessionExpiry r.user.session ≤ x.wall

def enter : Sys :=
  if x.sessionOver cfg r ∨ cfg.payloadLimit < (r.payload.getD []).length then
    x.setStage c (.returned denied x.mono false)
  else if cfg.freshLimit = 0 then
    match cfg.body r with
    | none => x.setStage c (.returned {} x.mono false)
    | some body => x.setStage c (.fetching body)
  else
    match cfg.key r with
    | none => x.setStage c (.returned {} x.mono false)
    | some key => x.setStage c (.timing key)

def usable (now : Nat) (username : Str) : Option CacheEntry :=
  ((x.shards (shardOf key)).entries.lookup key).filter fun e =>
    now < e.expires && e.epoch == x.epoch && e.scopeEpoch == x.scopeEpoch cfg username

def proceed : Cached → Sys
  | some (d, now) => x.setStage c (.returned d now true)
  | none => x.setStage c (.awaiting j)

def join (epoch scopeEpoch : Nat) (cached : Cached) : Sys :=
  let shard := x.shards (shardOf key)
  match shard.pending.lookup key with
  | some j => x.proceed c j cached
  | none =>
    if shard.pending.length < cfg.queueCapacity + cfg.workerCount then
      let j := x.jobs.length
      let job : Job :=
        { ask := .authorize r
          key := some key
          started := x.mono
          deadline := x.mono + cfg.timeout
          epoch := epoch
          scopeEpoch := scopeEpoch
          created := x.moment }
      let x := x.setShard (shardOf key) { shard with pending := (key, j) :: shard.pending }
      { x with jobs := x.jobs ++ [job] }.setStage c (.filling j cached)
    else
      match cached with
      | some (d, now) => x.setStage c (.returned d now true)
      | none => x.setStage c (.returned {} x.mono false)

/-- The critical section of `authorize`. -/
def look (now epoch scopeEpoch : Nat) : Sys :=
  let shard := x.shards (shardOf key)
  let others := shard.entries.filter (·.1 ≠ key)
  match x.usable cfg key now r.user.username with
  | some e =>
    let x := x.setShard (shardOf key) { shard with entries := (key, e) :: others }
    if e.settled now then x.setStage c (.returned e.decision now true)
    else x.join cfg c r key epoch scopeEpoch (some (e.decision, now))
  | none =>
    (x.setShard (shardOf key) { shard with entries := others }).join cfg c r key epoch
      scopeEpoch none

/-- `4 * ((payload_limit + 2) / 3)` for a payload in base64. -/
def bodyLimit (payload : Bool) : Nat :=
  8192 + if payload then 4 * ((cfg.payloadLimit + 2) / 3) else 0

def fill (j : Nat) (cached : Cached) : Sys :=
  match cfg.body r with
  | none => x.setStage c (.failing j cached true)
  | some body =>
    let x := x.setJob j fun J => { J with body := body }
    if body.length > bodyLimit cfg r.payload.isSome then x.setStage c (.failing j cached false)
    else
      match x.enqueue cfg j body false with
      | none => x.setStage c (.failing j cached false)
      | some x => x.proceed c j cached

/-! ## `fetch` -/

/-- The beginning of `fetch`. -/
def begin (body : Str) : Sys :=
  if body.length > bodyLimit cfg cfg.includePayload then
    x.setStage c (.returned {} x.mono false)
  else
    let f : Fetch :=
      { body := body, deadline := x.mono + cfg.timeout, bootstrap := decide (x.revision = []) }
    x.setCall c { x.calls c with fetch := some f, stage := .opening f }

def fence (f : Fetch) (started created epoch : Nat) : Sys :=
  let ask := (x.calls c).ask
  let job : Job :=
    { ask := ask
      key := none
      body := f.body
      started := started
      deadline := f.deadline
      epoch := epoch
      scopeEpoch := x.scopeEpoch cfg ask.username
      created := created }
  { x with jobs := x.jobs ++ [job] }.setStage c (.posting f x.jobs.length)

def settle (now : Nat) : Sys :=
  match (x.calls c).fetch with
  | some f =>
    if (x.calls c).deferred = false ∧ f.bootstrap ∧ f.attempt = 0 then
      x.setStage c (.rechecking f j d now)
    else x.setStage c (.returned d now false)
  | none => x.setStage c (.returned d now false)

/-- The second attempt of `fetch`, if there is time for it. -/
def retry (f : Fetch) (d : Decision) (now : Nat) : Sys :=
  if x.mono < f.deadline then
    let f := { f with attempt := f.attempt + 1 }
    x.setCall c { x.calls c with fetch := some f, stage := .opening f }
  else x.setStage c (.returned d now false)

/-! ## `Job::wait` and `Job::poll` -/

def unexpired : Decision :=
  if d.expiresAt ≠ 0 ∧ d.expiresAt ≤ x.wall then denied else d

/-- The end of `poll`. -/
def pollJob : Sys :=
  match J.finished with
  | some d => x.settle c j (x.unexpired d) x.mono
  | none => if x.mono < J.deadline then x.setStage c (.held j) else x.settle c j {} x.mono

/-! ## Steps of a call -/

def advanceJob : Stage → Option Sys
  | .awaiting _ =>
    if (x.calls c).deferred then some (x.setStage c (.polling j))
    else
      match J.finished with
      | some d => some (x.setStage c (.validating j d))
      | none =>
        if J.waiters ≥ 64 then some (x.settle c j {} x.mono)
        else
          some ((x.setJob j fun J => { J with waiters := J.waiters + 1 }).setStage c
            (.waiting j))
  | .waiting _ =>
    if x.mono ≥ J.deadline then some (x.setStage c (.lastLook j))
    else some (x.setStage c (.parked j))
  | .parked _ =>
    match J.finished with
    | some d => some (x.setStage c (.validating j d))
    | none => some (x.setStage c (.waiting j))
  | .lastLook _ =>
    match J.finished with
    | some d => some (x.setStage c (.validating j d))
    | none => some (x.settle c j {} x.mono)
  | .validating _ d =>
    if J.epoch = x.epoch then some (x.setStage c (.validatingScope j d))
    else some (x.settle c j {} x.mono)
  | .validatingScope _ d =>
    if J.scopeEpoch = x.scopeEpoch cfg J.ask.username then some (x.setStage c (.expiring j d))
    else some (x.settle c j {} x.mono)
  | .expiring _ d => some (x.settle c j (x.unexpired d) x.mono)
  | .polling _ =>
    if J.epoch = x.epoch then some (x.setStage c (.pollingScope j))
    else some (x.settle c j {} x.mono)
  | .pollingScope _ =>
    if J.scopeEpoch = x.scopeEpoch cfg J.ask.username then some (x.setStage c (.pollingJob j))
    else some (x.settle c j {} x.mono)
  | .pollingJob _ => some (x.pollJob c j J)
  | .rechecking f _ d now =>
    if J.epoch = x.epoch then some (x.setStage c (.recheckingScope f j d now))
    else some (x.retry c f d now)
  | .recheckingScope f _ d now =>
    if J.scopeEpoch = x.scopeEpoch cfg J.ask.username then
      some (x.setStage c (.returned d now false))
    else some (x.retry c f d now)
  | .posting _ _ =>
    match x.enqueue cfg j J.body J.ask.isLogin with
    | none => some (x.setStage c (.returned {} x.mono false))
    | some x => some (x.setStage c (.awaiting j))
  | .failing _ cached thrown =>
    let (x, d) := x.complete cfg J {}
    some (x.setStage c (.failed j d cached thrown))
  | .failed _ d cached thrown =>
    let x := x.conclude j d
    some (if cached = none ∧ thrown then x.setStage c (.returned {} x.mono false)
      else x.proceed c j cached)
  | _ => none

end Sys

def Stage.job : Stage → Option Nat
  | .awaiting j | .waiting j | .parked j | .lastLook j | .validating j _ | .validatingScope j _
  | .expiring j _ | .polling j | .pollingScope j | .pollingJob j | .rechecking _ j _ _
  | .recheckingScope _ j _ _ | .posting _ j | .failing j _ _ | .failed j _ _ _ => some j
  | _ => none

namespace Sys

variable (cfg : Config) (x : Sys)

def advanceCall (c : Nat) : Option Sys :=
  let k := x.calls c
  match k.stage, k.ask with
  | .entering, .authorize r => some (x.enter cfg c r)
  | .timing key, _ => some (x.setStage c (.loading key x.mono))
  | .loading key now, _ => some (x.setStage c (.scoping key now x.epoch))
  | .scoping key now epoch, _ =>
    some (x.setStage c (.looking key now epoch (x.scopeEpoch cfg k.ask.username)))
  | .looking key now epoch scopeEpoch, .authorize r =>
    some (x.look cfg c r key now epoch scopeEpoch)
  | .filling j cached, .authorize r => some (x.fill cfg c r j cached)
  | .fetching body, _ => some (x.begin cfg c body)
  | .opening f, _ => some (x.setStage c (.fencing f x.mono x.moment x.epoch))
  | .fencing f started created epoch, _ => some (x.fence cfg c f started created epoch)
  | _, _ => none

def advance (c : Nat) : Option Sys :=
  match (x.calls c).stage.job with
  | some j => (x.jobs[j]?).bind fun J => x.advanceJob cfg c j J (x.calls c).stage
  | none => x.advanceCall cfg c

/-! ## Workers -/

def take (w : Nat) : Option Sys :=
  match x.workers w, x.queue with
  | .idle, j :: rest =>
    (x.jobs[j]?).map fun J =>
      let x := { x with queue := rest }
      if cfg.grpcMode ∧ J.ask.isLogin = false ∧ J.deadline > x.mono then
        x.setWorker w (.gathering j)
      else x.setWorker w (.sending [j])
  | _, _ => none

def gatherFrom : List Nat → Nat → List Nat → List Nat × List Nat
  | batch, _, [] => (batch, [])
  | batch, bytes, j :: rest =>
    match x.jobs[j]? with
    | none => (batch, j :: rest)
    | some J =>
      if batch.length < cfg.batchSize ∧ J.ask.isLogin = false ∧
          bytes + J.body.length + 32 ≤ cfg.batchBytes then
        gatherFrom (batch ++ [j]) (bytes + J.body.length + 32) rest
      else (batch, j :: rest)

def gather (w : Nat) : Option Sys :=
  match x.workers w with
  | .gathering j =>
    (x.jobs[j]?).map fun J =>
      let (batch, rest) := x.gatherFrom cfg [j] (J.body.length + 32) x.queue
      { x with queue := rest }.setWorker w (.sending batch)
  | _ => none

def receive (w : Nat) (response : Response) : Option Sys :=
  match x.workers w with
  | .sending batch =>
    let login := (batch.head?.bind fun j => x.jobs[j]?).any (·.ask.isLogin)
    let decisions :=
      (cfg.read x.wall batch.length login response).getD (List.replicate batch.length {})
    -- What the service said about each job is kept as its history.
    let jobs := x.jobs.mapIdx fun n J =>
      { J with
        replies := J.replies ++
          (batch.zipIdx.filter (·.1 = n)).flatMap (fun b => response.addressed b.2) }
    some ({ x with jobs := jobs }.setWorker w (.delivering (batch.zip decisions)))
  | _ => none

def deliver (w : Nat) : Option Sys :=
  match x.workers w with
  | .delivering ((j, d) :: rest) =>
    (x.jobs[j]?).map fun J =>
      let d := if cfg.grpcMode ∧ x.mono ≥ J.deadline then {} else d
      let (x, d) := x.complete cfg J d
      x.setWorker w (.finishing j d rest)
  | .delivering [] => some (x.setWorker w .idle)
  | _ => none

def finish (w : Nat) : Option Sys :=
  match x.workers w with
  | .finishing j d rest => some ((x.conclude j d).setWorker w (.delivering rest))
  | _ => none

/-! ## `update_version` -/

/-- The next step of an `update_version`. -/
def apply (u : Nat) : Option Sys :=
  (x.updates[u]?).bind fun v =>
    match v.stage with
    | .comparing =>
      if x.revision = v.value then
        some (x.setUpdate u fun v => { v with stage := .done, completed := some x.moment })
      else if v.delta ∧ x.revision ≠ [] then
        some (x.setUpdate u fun v => { v with stage := .naming v.invalidated })
      else some (x.setUpdate u fun v => { v with stage := .replacing, full := true })
    | .naming (name :: rest) =>
      let scope := cfg.scopeFor name
      some ({ x with scopes := update x.scopes scope (x.scopes scope + 1) }.setUpdate u
        (fun v => { v with stage := .naming rest }))
    | .naming [] =>
      some ({ x with revision := v.value }.setUpdate u
        (fun v => { v with stage := .done, completed := some x.moment }))
    | .replacing =>
      some ({ x with revision := v.value }.setUpdate u fun v => { v with stage := .advancing })
    | .advancing =>
      some ({ x with epoch := x.epoch + 1 }.setUpdate u
        (fun v => { v with stage := .clearing 0 }))
    | .clearing i =>
      let x := x.setShard i { x.shards i with entries := [] }
      if i + 1 < 16 then
        some (x.setUpdate u fun v => { v with stage := .clearing (i + 1) })
      else some (x.setUpdate u fun v => { v with stage := .done, completed := some x.moment })
    | .done => none

end Sys

/-! ## Runs -/

inductive Event where
  | tick (ms : Nat)
  | authorize (c : Nat) (r : Request) (deferred : Bool)
  /-- `fetch` for a login. -/
  | authenticate (c : Nat) (username body : Str)
  | advance (c : Nat)
  | refuse (c : Nat)
  | poll (c : Nat)
  | take (w : Nat)
  | gather (w : Nat)
  | receive (w : Nat) (response : Response)
  | deliver (w : Nat)
  | finish (w : Nat)
  | update (value : Str) (invalidated : List Str) (delta : Bool)
  | apply (u : Nat)

namespace Sys

variable (cfg : Config)

def next (x : Sys) : Event → Option Sys
  | .tick ms => some { x with mono := x.mono + ms, wall := x.wall + ms }
  | .authorize c r deferred =>
    if (x.calls c).stage = .idle then
      some (x.setCall c
        { ask := .authorize r, deferred := deferred, stage := .entering, started := x.moment })
    else none
  | .authenticate c username body =>
    if (x.calls c).stage = .idle then
      some (x.setCall c
        { ask := .authenticate username, stage := .fetching body, started := x.moment })
    else none
  | .advance c => x.advance cfg c
  | .refuse c =>
    match (x.calls c).stage with
    | .awaiting j =>
      if (x.calls c).deferred = false ∧ (x.jobs[j]?).all (·.finished = none) then
        some (x.settle c j {} x.mono)
      else none
    | _ => none
  | .poll c =>
    match (x.calls c).stage, (x.calls c).ask with
    | .held j, .authorize r =>
      if x.sessionOver cfg r then some (x.setStage c (.returned denied x.mono false))
      else some (x.setStage c (.polling j))
    | _, _ => none
  | .take w => x.take cfg w
  | .gather w => x.gather cfg w
  | .receive w response => x.receive cfg w response
  | .deliver w => x.deliver cfg w
  | .finish w => x.finish w
  | .update value invalidated delta =>
    some { x with
      updates := x.updates ++ [{ value := value, invalidated := invalidated, delta := delta }] }
  | .apply u => x.apply cfg u

def step (x : Sys) (e : Event) : Option Sys :=
  (x.next cfg e).map fun x => { x with moment := x.moment + 1 }

def Fresh (x : Sys) : Prop := ∃ mono wall, x = { mono := mono, wall := wall }

/-! ## What the cache is for -/

def Open (x : Sys) (now bound : Nat) : Prop := bound = 0 ∨ now + x.wall < bound + x.mono

instance (x : Sys) (now bound : Nat) : Decidable (x.Open now bound) :=
  inferInstanceAs (Decidable (_ ∨ _))

end Sys

def Update.Names (v : Update) (username : Str) : Prop := v.full ∨ username ∈ v.invalidated

/-- The grant of a call that took its answer at the time `now`: a reply of the service to
the same request allows it, neither the session nor the decision has expired, an answer
from the cache is not too old, and no update for the user was completed after the job was
made and before the call began. -/
structure Grant (cfg : Config) (x : Sys) (started : Nat) (r : Request) (now : Nat) (cached : Bool)
    (J : Job) (reply : Reply) : Prop where
  asked : ∃ r', J.ask = .authorize r' ∧ cfg.identity r' = cfg.identity r
  replied : reply ∈ J.replies
  allows : reply.Allows
  session : x.Open now (cfg.sessionExpiry r.user.session)
  decision : x.Open now reply.expiresAt
  age : cached → now < J.started + cfg.maxAge reply
  current : ∀ {v m}, v ∈ x.updates → v.completed = some m → J.created < m → m < started →
    ¬ v.Names r.user.username

/-- Every call that was granted access has a grant. -/
def Sys.Justified (cfg : Config) (x : Sys) : Prop :=
  ∀ {c r d now cached}, (x.calls c).ask = .authorize r →
    (x.calls c).stage = .returned d now cached → d.result = .success →
      ∃ J ∈ x.jobs, ∃ reply, Grant cfg x (x.calls c).started r now cached J reply

def Sys.completes (cfg : Config) (x : Sys) : Event → Option Decision
  | .advance c =>
    match (x.calls c).stage with
    | .failing _ _ _ => some {}
    | _ => none
  | .deliver w =>
    match x.workers w with
    | .delivering ((j, d) :: _) =>
      (x.jobs[j]?).map fun J => if cfg.grpcMode ∧ x.mono ≥ J.deadline then {} else d
    | _ => none
  | _ => none

/-- A refresh that fails does not prolong an entry: every entry there is after the event was
there before, with the same decision and the same end. -/
def Sys.Unprolonged (cfg : Config) (x : Sys) : Prop :=
  ∀ {event d x' i key e'}, x.completes cfg event = some d → d.authoritative = false →
    x.step cfg event = some x' → (key, e') ∈ (x'.shards i).entries →
      ∃ e, (key, e) ∈ (x.shards i).entries ∧ e'.decision = e.decision ∧
        e'.expires = e.expires ∧ e'.freshUntil = e.freshUntil

end Mqtts.RemoteAuth
