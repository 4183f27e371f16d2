import Mqtts.Authz.Filters
import Mqtts.Lib.Map
import Mqtts.Lib.Runs
import Std.Data.ExtTreeSet.Lemmas

/-!
# The policy module

The policy module keeps a record for each session that may connect: its client id, when it and its
policy lease end, and its permissions. The broker asks it for decisions (`batchAuthorize`) and
caches what it allows. A publisher of policies changes the records with `apply`, and the module
deletes the records that are over (`Expire`, which scans first and then calls `apply`). Every change
that can end a grant gives the store a new revision and leaves an entry with the names of the
changed sessions in a bounded history.
-/

namespace Mqtts.Authz

open Std (ExtTreeMap ExtTreeSet)

/-! ## Records and requests -/

inductive Action where
  | unspecified
  | publish
  | subscribe
  deriving DecidableEq

structure JsonBinding where
  paths : List Str
  equalsString : Str
  equalsTopic : Bool
  requiredAny : Bool
  deriving DecidableEq

structure PayloadPolicy where
  bindings : List JsonBinding
  caseInsensitiveKeys : Bool
  deriving DecidableEq

structure Permission where
  action : Action
  topicFilter : Str
  payloadPolicy : Option PayloadPolicy
  deriving DecidableEq

structure Session where
  username : Str
  clientId : Str
  passwordSha256 : Str
  expiresAtMs : UInt64
  policyValidUntilMs : UInt64
  enabled : Bool
  permissions : List Permission
  nspace : Str
  sourceContext : Str
  deriving DecidableEq

structure AuthorizeRequest where
  requestId : UInt64
  username : Str
  clientId : Str
  action : Action
  topic : Str
  payload : Str
  hasPayload : Bool

structure ApplyRequest where
  expectedVersion : Str
  upserts : List Session
  deletes : List Str
  createOnly : Bool

inductive Json where
  | text (value : Str)
  | other
  | array (items : List Json)
  | object (fields : List (Str × Json))

/-- What `json.Decoder.Token` returns: a string, another value without parts, or a delimiter. -/
inductive Token where
  | text (value : Str)
  | other
  | openObject | closeObject | openArray | closeArray

/-- What the module takes from other libraries: the tokens of the JSON decoder, lower case, the size
of an encoded record and the random versions. -/
structure Env where
  /-- The tokens that a `json.Decoder` gives for a payload, up to the first error or the end, and
  whether it comes to the end. -/
  tokens : Str → List Token × Bool
  toLower : Str → Str
  /-- `proto.Size`. -/
  size : Session → Nat
  /-- The values of `randomVersion`, in the order of the calls. -/
  randomVersion : Nat → Str

def maxPayload : Nat := 1024 * 1024
def maxBatch : Nat := 64
def maxSessionBytes : Nat := 1024 * 1024

/-! ## Decisions -/

section

variable (env : Env)

mutual

/-- `readJSON`. Every round takes a token, so that `rounds` lasts if there are fewer tokens. -/
def readJson (fold : Bool) : Nat → Nat → List Token → Option (Json × List Token)
  | 0, _, _ => none
  | rounds + 1, depth, tokens =>
    if depth > 64 then none
    else
      match tokens with
      | .text value :: rest => some (.text value, rest)
      | .other :: rest => some (.other, rest)
      | .openObject :: rest => readFields fold rounds depth [] rest
      | .openArray :: rest => readItems fold rounds depth [] rest
      | _ => none

/-- The loop of `readJSON` over the fields of an object. -/
def readFields (fold : Bool) :
    Nat → Nat → List (Str × Json) → List Token → Option (Json × List Token)
  | rounds + 1, depth, fields, .text name :: rest =>
    let name := if fold then env.toLower name else name
    -- a name that comes twice is refused, so a field is found by its name
    if (fields.lookup name).isSome then none
    else
      match readJson fold rounds (depth + 1) rest with
      | none => none
      | some (item, rest) => readFields fold rounds depth (fields ++ [(name, item)]) rest
  | _, _, fields, .closeObject :: rest => some (.object fields, rest)
  | _, _, _, _ => none

/-- The loop of `readJSON` over the items of an array. -/
def readItems (fold : Bool) : Nat → Nat → List Json → List Token → Option (Json × List Token)
  | _, _, items, .closeArray :: rest => some (.array items, rest)
  | rounds + 1, depth, items, tokens =>
    match readJson fold rounds (depth + 1) tokens with
    | none => none
    | some (item, rest) => readItems fold rounds depth (items ++ [item]) rest
  | 0, _, _, _ => none

end

/-- `strings.ReplaceAll` of two characters by one. -/
def replacePair (a b c : UInt8) : Str → Str
  | x :: y :: rest =>
    if x = a ∧ y = b then c :: replacePair a b c rest else x :: replacePair a b c (y :: rest)
  | rest => rest

/-- The loop of `pointer` over the parts of a path. -/
def pointer (fold : Bool) : Json → List Str → Option Json
  | current, [] => some current
  | current, part :: rest =>
    let part := replacePair 0x7e 0x30 0x7e (replacePair 0x7e 0x31 0x2f part)
    let part := if fold then env.toLower part else part
    match current with
    | .object fields => (fields.lookup part).bind (pointer fold · rest)
    | _ => none

/-- The loop of `PayloadMatches` over the paths of a binding: whether one was found, unless a
value is another one. -/
def matchPaths (fold : Bool) (root : Json) (want : Str) : Bool → List Str → Option Bool
  | found, [] => some found
  | found, path :: rest =>
    match pointer env fold root (topicLevels path.tail) with
    | none => matchPaths fold root want found rest
    | some (.text value) => if value ≠ want then none else matchPaths fold root want true rest
    | some _ => none

def payloadMatches (policy : Option PayloadPolicy) (request : AuthorizeRequest) : Bool :=
  match policy with
  | none => true
  | some policy =>
    if !request.hasPayload || decide (request.payload.length > maxPayload) then false
    else
      let (tokens, ended) := env.tokens request.payload
      match readJson env policy.caseInsensitiveKeys (tokens.length + 1) 0 tokens with
      | some (.object fields, []) =>
        ended && policy.bindings.all fun binding =>
          let want := if binding.equalsTopic then request.topic else binding.equalsString
          match matchPaths env policy.caseInsensitiveKeys (.object fields) want false
            binding.paths with
          | none => false
          | some found => !binding.requiredAny || found
      | _ => false

/-- `Authorize`, on a session that exists. -/
def authorize (session : Session) (request : AuthorizeRequest) (now : UInt64) : Bool :=
  if !session.enabled || decide (session.clientId ≠ request.clientId) ||
      decide (session.policyValidUntilMs ≤ now) ||
      (decide (session.expiresAtMs ≠ 0) && decide (session.expiresAtMs ≤ now)) then false
  else if request.action = .unspecified then false
  else if !validTopic request.topic (decide (request.action = .subscribe)) ||
      decide (request.payload.length > maxPayload) ||
      (!request.hasPayload && decide (request.payload.length ≠ 0)) then false
  else
    session.permissions.any fun permission =>
      decide (permission.action = request.action) && covers permission.topicFilter request.topic &&
        payloadMatches env permission.payloadPolicy request

end

/-! ## The store -/

structure RevisionChange where
  fromRevision : Str
  toRevision : Str
  names : List Str

def maxRevisionChanges : Nat := 1024
def maxRevisionNames : Nat := 8192
def maxRevisionReplyNames : Nat := 1024

structure Store where
  sessions : ExtTreeMap Str Session
  version : Str
  revision : Str
  bytes : Int
  maxSessions : Nat
  maxBytes : Nat
  history : List RevisionChange
  historyNames : Nat
  draws : Nat

inductive PolicyError where
  | conflict
  | capacity
  | invalid
  | disk

def Session.over (row : Session) (now : UInt64) : Bool :=
  decide (row.expiresAtMs ≠ 0) && decide (row.expiresAtMs ≤ now)

section

variable (env : Env)

/-- The loop of `Open` over the decoded records of the database. -/
def loadRows (now : UInt64) : Store → List (Str × Session) → Except PolicyError Store
  | s, [] => .ok s
  | s, (key, session) :: rest =>
    if env.size session > maxSessionBytes ∨ session.username ≠ key then .error .invalid
    else if session.over now then loadRows now s rest
    else
      let s := { s with
        sessions := s.sessions.insert key session
        bytes := s.bytes + env.size session }
      if s.sessions.size > s.maxSessions ∨ s.bytes > s.maxBytes then .error .capacity
      else loadRows now s rest

/-- `Open` of a database with the records `rows`, after `draws` random versions. -/
def openStore (maxSessions maxBytes draws : Nat) (rows : List (Str × Session)) (now : UInt64) :
    Except PolicyError Store :=
  if maxSessions < 1 ∨ maxBytes < maxSessionBytes then .error .invalid
  else
    loadRows env now
      { sessions := ∅, version := env.randomVersion draws,
        revision := env.randomVersion (draws + 1), bytes := 0, maxSessions, maxBytes, history := [],
        historyNames := 0, draws := draws + 2 }
      rows

structure RevisionReply where
  revision : Str
  invalidatedUsernames : List Str := []
  isDelta : Bool := false

/-- The loop of `Revision` over the names; there is none when they are too many. -/
def collectNames : ExtTreeSet Str → List Str → Option (ExtTreeSet Str)
  | names, [] => some names
  | names, name :: rest =>
    let names := names.insert name
    if names.size > maxRevisionReplyNames then none else collectNames names rest

/-- `Revision`. -/
def Store.revisionReply (s : Store) (known : Str) : RevisionReply :=
  if known = s.revision then { revision := s.revision, isDelta := true }
  else
    match s.history.dropWhile (fun change => change.fromRevision ≠ known) with
    | [] => { revision := s.revision }
    | change :: later =>
      match collectNames ∅ ((change :: later).flatMap RevisionChange.names) with
      | none => { revision := s.revision }
      | some names =>
        { revision := s.revision, invalidatedUsernames := names.toList, isDelta := true }

def leaseMs : UInt64 := 300000

/-- The checks of `Validate` on one permission. -/
def validPermission (rule : Permission) : Bool :=
  decide (rule.action ≠ .unspecified) && validTopic rule.topicFilter true &&
    match rule.payloadPolicy with
    | none => true
    | some policy =>
      decide (rule.action = .publish) && decide (policy.bindings.length ≠ 0) &&
        decide (policy.bindings.length ≤ 16) &&
        policy.bindings.all fun binding =>
          decide (binding.paths.length ≠ 0) && decide (binding.paths.length ≤ 8) &&
            decide (binding.equalsString.length ≤ 4096) &&
            binding.paths.all fun path =>
              path.head? == some slash && decide (path.length ≤ 256) &&
                decide (path.count slash ≤ 16)

def validate (row : Session) (now : UInt64) : Bool :=
  !(row.username.isEmpty || row.clientId.isEmpty || decide (row.username.length > 256) ||
      decide (row.clientId.length > 256) ||
      (row.username ++ row.clientId).any (fun b => b == 0 || b == 0x0d || b == 0x0a) ||
      decide (row.passwordSha256.length ≠ 32) || row.nspace.isEmpty ||
      decide (row.nspace.length > 128) || decide (row.sourceContext.length > 262144) ||
      decide (row.permissions.length > 4096) || decide (env.size row > maxSessionBytes)) &&
    !(decide (row.policyValidUntilMs ≤ now) || decide (row.policyValidUntilMs > now + leaseMs) ||
      (decide (row.expiresAtMs ≠ 0) &&
        (decide (row.expiresAtMs ≤ now) || decide (row.expiresAtMs > now + leaseMs)))) &&
    row.permissions.all validPermission

/-- `sameRules`: two records that differ in their lease and their source only. -/
def sameRules (a b : Session) : Bool :=
  decide ({ a with policyValidUntilMs := 0, sourceContext := [] } =
    { b with policyValidUntilMs := 0, sourceContext := [] })

structure Plan where
  count : Int
  total : Int
  changed : Bool
  metadataChanged : Bool
  invalidated : List Str

namespace Store

variable (s : Store)

def planUpsert (createOnly : Bool) (p : Plan) (row : Session) : Except PolicyError Plan :=
  match s.sessions[row.username]? with
  | none => .ok { p with count := p.count + 1, total := p.total + env.size row }
  | some old =>
    if createOnly || decide (old.clientId ≠ row.clientId) ||
        decide (old.passwordSha256 ≠ row.passwordSha256) ||
        decide (old.expiresAtMs ≠ row.expiresAtMs) || decide (old.nspace ≠ row.nspace) then
      .error .conflict
    else
      .ok { p with
        total := p.total - env.size old + env.size row
        changed := p.changed || !sameRules old row
        invalidated := if sameRules old row then p.invalidated else p.invalidated ++ [row.username]
        metadataChanged := p.metadataChanged || decide (old.sourceContext ≠ row.sourceContext) }

def planDelete (now : UInt64) (p : Plan) (name : Str) : Plan :=
  match s.sessions[name]? with
  | none => p
  | some old =>
    let p := { p with count := p.count - 1, total := p.total - env.size old }
    if old.over now then p
    else { p with changed := true, invalidated := p.invalidated ++ [name] }

/-- The part of `Apply` before the write, with the clock read as `now`. -/
def plan (request : ApplyRequest) (now : UInt64) : Except PolicyError Plan := do
  let size := request.upserts.length + request.deletes.length
  if size = 0 ∨ size > 128 ∨ (request.createOnly ∧ request.deletes ≠ []) then
    throw .invalid
  if !request.upserts.all (validate env · now) ||
      !decide (request.upserts.map Session.username ++ request.deletes).Nodup ||
      request.deletes.contains [] then
    throw .invalid
  if (request.createOnly = false ∧ request.expectedVersion = []) ∨
      (request.expectedVersion ≠ [] ∧ request.expectedVersion ≠ s.version) then
    throw .conflict
  let start : Plan :=
    { count := s.sessions.size, total := s.bytes, changed := false, metadataChanged := false,
      invalidated := [] }
  let upserted ← request.upserts.foldlM (s.planUpsert env request.createOnly) start
  let planned := request.deletes.foldl (s.planDelete env now) upserted
  if planned.count > s.maxSessions ∨ planned.total > s.maxBytes then
    throw .capacity
  return planned

/-- The loop of `Apply` that bounds the history. -/
def trimHistory : List RevisionChange → Nat → List RevisionChange × Nat
  | [], names => ([], names)
  | change :: rest, names =>
    if (change :: rest).length > maxRevisionChanges ∨ names > maxRevisionNames then
      trimHistory rest (names - change.names.length)
    else (change :: rest, names)

def written (request : ApplyRequest) : ExtTreeMap Str Session :=
  request.deletes.foldl (fun rows name => rows.erase name)
    (request.upserts.foldl (fun rows row => rows.insert row.username row) s.sessions)

def drawVersion (p : Plan) : Store :=
  if p.changed || p.metadataChanged then
    { s with version := env.randomVersion s.draws, draws := s.draws + 1 }
  else s

def drawRevision (p : Plan) : Store :=
  if p.changed then
    let revision := env.randomVersion s.draws
    let change : RevisionChange :=
      { fromRevision := s.revision, toRevision := revision, names := p.invalidated }
    let trimmed := trimHistory (s.history ++ [change]) (s.historyNames + p.invalidated.length)
    { s with revision, draws := s.draws + 1, history := trimmed.1, historyNames := trimmed.2 }
  else s

/-- The part of `Apply` after the write. -/
def commit (request : ApplyRequest) (p : Plan) : Store :=
  ({ s with sessions := s.written request, bytes := p.total }.drawVersion env p).drawRevision env p

/-- `Apply`, with the clock read as `now` and the outcome of the disk. -/
def apply (request : ApplyRequest) (now : UInt64) (durable : Bool) :
    Except PolicyError (Str × Str) × Store :=
  match s.plan env request now with
  | .error e => (.error e, s)
  | .ok p =>
    if durable then
      let s := s.commit env request p
      (.ok (s.version, s.revision), s)
    else (.error .disk, s)

/-- The names that a scan of `Expire` may come back with. The records have no order; the scan
stops at 128. -/
def expirable (now : UInt64) (names : List Str) : Bool :=
  decide names.Nodup && decide (names.length ≤ 128) &&
    names.all (fun name => (s.sessions[name]?).any (Session.over · now)) &&
    (decide (names.length = 128) ||
      s.sessions.toList.all fun row => !row.2.over now || names.contains row.1)

end Store

/-! ## Answers to the broker -/

inductive Outcome where
  | allow
  | deny
  deriving DecidableEq

structure Decision where
  outcome : Outcome
  expiresAtMs : UInt64
  cacheTtlMs : UInt32
  cacheMaxAgeMs : UInt32
  cacheRevision : Str
  deriving DecidableEq

/-- `decision` of a service with the given `CacheTTL`. -/
def decision (cacheTtl : UInt32) (allow : Bool) (expiry : UInt64) (revision : Str) : Decision :=
  { outcome := if allow then .allow else .deny
    expiresAtMs := expiry
    cacheTtlMs := if allow then cacheTtl else if cacheTtl > 1000 then 1000 else cacheTtl
    cacheMaxAgeMs := if allow then 300000 else 1000
    cacheRevision := revision }

/-- `expiry` of a record that exists. -/
def Session.expiry (row : Session) : UInt64 :=
  if row.expiresAtMs ≠ 0 ∧ row.expiresAtMs < row.policyValidUntilMs then row.expiresAtMs
  else row.policyValidUntilMs

/-- The answer of `BatchAuthorize` to one request. -/
def answer (cacheTtl : UInt32) (s : Store) (now : UInt64) (item : AuthorizeRequest) :
    UInt64 × Decision :=
  let row := s.sessions[item.username]?
  (item.requestId, decision cacheTtl (row.any (authorize env · item now))
    ((row.map Session.expiry).getD 0) s.revision)

/-- `BatchAuthorize` on the snapshot `s`, with the clock read as `now` afterwards. -/
def batchAuthorize (cacheTtl : UInt32) (s : Store) (requests : List AuthorizeRequest)
    (now : UInt64) : Option (List (UInt64 × Decision)) :=
  if requests.length = 0 ∨ requests.length > maxBatch then none
  else if requests.any (fun item => item.requestId == 0) ||
      !decide (requests.map AuthorizeRequest.requestId).Nodup then none
  else some (requests.map (answer env cacheTtl s now))

end

/-! ## Runs -/

/-- The store, the clock, and the `Expire` calls between their scan and their `Apply`. -/
structure Sys where
  store : Store
  clock : UInt64
  expiring : List (Str × List Str)

inductive Event where
  /-- `Apply` publishes its records; it read the clock as `start`. -/
  | apply (request : ApplyRequest) (start : UInt64) (durable : Bool)
  /-- The first part of `Expire`, which finds `names`. -/
  | scan (names : List Str)
  /-- The `Apply` of the `Expire` call that found `names` at `version`. -/
  | expire (version : Str) (names : List Str) (start : UInt64) (durable : Bool)
  | tick (now : UInt64)

/-- One step. Readers see the old records until `Apply` publishes, so it is one step at that time,
with a clock that it read before. -/
def Sys.step (env : Env) (x : Sys) : Event → Option Sys
  | .apply request start durable =>
    if start ≤ x.clock then some { x with store := (x.store.apply env request start durable).2 }
    else none
  | .scan names =>
    if x.store.expirable x.clock names ∧ names ≠ [] then
      some { x with expiring := (x.store.version, names) :: x.expiring }
    else none
  | .expire version names start durable =>
    if start ≤ x.clock ∧ (version, names) ∈ x.expiring then
      some { x with
        store := (x.store.apply env
          { expectedVersion := version, upserts := [], deletes := names, createOnly := false }
          start durable).2
        expiring := x.expiring.erase (version, names) }
    else none
  | .tick now => if x.clock ≤ now then some { x with clock := now } else none

def Sys.Opened (env : Env) (x : Sys) : Prop :=
  ∃ maxSessions maxBytes draws rows,
    openStore env maxSessions maxBytes draws rows x.clock = .ok x.store ∧ x.expiring = []

end Mqtts.Authz
