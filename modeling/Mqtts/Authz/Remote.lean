import Mqtts.Lib.JsonText
import Mqtts.Topic.Levels

/-!
# What the remote authorization service is asked and answers

A decision of the service allows or denies, for a time, and says how long it may be kept. It comes
in the reply of the HTTP service or in a message over gRPC.
-/

namespace Mqtts.RemoteAuth

open List Function JsonText

/-! ## Decisions -/

/-- `AuthResult`, as far as this provider uses it. -/
inductive AuthResult where
  | success
  | accessDenied
  | internalError
  | pending
  deriving DecidableEq

structure Decision where
  result : AuthResult := .internalError
  authoritative : Bool := false
  expiresAt : Nat := 0
  freshMs : Nat := 0
  maxAgeMs : Nat := 0
  revision : Str := []
  deriving DecidableEq

def denied : Decision := { result := .accessDenied, authoritative := true }

inductive Action where
  | publish
  | subscribe
  deriving DecidableEq

def Action.name : Action → Str
  | .publish => [0x70, 0x75, 0x62, 0x6C, 0x69, 0x73, 0x68]
  | .subscribe => [0x73, 0x75, 0x62, 0x73, 0x63, 0x72, 0x69, 0x62, 0x65]

/-- `UserInfo`. `authenticate_user` gives every login its own `authorization_session`, so
`expires_at_ms` goes with the session (`Config.sessionExpiry`). -/
structure UserInfo where
  session : Nat
  username : Str
  clientId : Str
  deriving DecidableEq

/-- The arguments of `authorize`. -/
structure Request where
  user : UserInfo
  action : Action
  topic : Str
  payload : Option Str := none
  deriving DecidableEq

inductive Ask where
  | authorize (r : Request)
  | authenticate (username : Str)
  deriving DecidableEq

def Ask.username : Ask → Str
  | .authorize r => r.user.username
  | .authenticate username => username

def Ask.isLogin : Ask → Bool
  | .authorize _ => false
  | .authenticate _ => true

/-- SHA-256, taken to have no collisions. -/
structure Hash where
  digest : Str → Str
  injective : Injective digest
  nonempty : ∀ s, digest s ≠ []

structure Config where
  grpcMode : Bool := false
  payloadLimit : Nat := 1048576
  includePayload : Bool := false
  cacheCapacity : Nat := 16384
  workerCount : Nat := 4
  queueCapacity : Nat := 64
  queueByteLimit : Nat := 16777216
  batchSize : Nat := 32
  batchBytes : Nat := 4194304
  timeout : Nat := 2000
  freshLimit : Nat := 0
  ageLimit : Nat := 300000
  cooldown : Nat := 1000
  /-- `cache_version_url` is set. -/
  versioned : Bool := false
  hash : Hash
  /-- What `payload_key` digests: the payload, or its JSON without the ignored fields. -/
  canonical : Str → Str := id
  /-- Whether the JSON writer takes a string. -/
  utf8 : Str → Bool := fun _ => true
  /-- The serialized request, if the serializer does not throw. -/
  body : Request → Option Str
  /-- `scope_for`. -/
  scopeFor : Str → Nat
  /-- `expires_at_ms` of a session, 0 for none. -/
  sessionExpiry : Nat → Nat

namespace Config

variable (cfg : Config)

def payloadKey (payload : Str) : Str := cfg.hash.digest (cfg.canonical payload)

def identity (r : Request) : Nat × Str × Str × Action × Str × Option Str :=
  (r.user.session, r.user.username, r.user.clientId, r.action, r.topic,
    r.payload.map cfg.payloadKey)

def keyText (r : Request) : Str :=
  0x5B :: (decimal r.user.session ++ 0x2C :: (quote r.user.username ++
    0x2C :: (quote r.user.clientId ++ 0x2C :: (quote r.action.name ++
      0x2C :: (quote r.topic ++ [0x5D])))))

/-- The key of the cache, a digest of the session, the user, the client id, the action, the topic
and the payload. -/
def key (r : Request) : Option Str :=
  if cfg.utf8 r.user.username && cfg.utf8 r.user.clientId && cfg.utf8 r.topic then
    some (cfg.hash.digest (keyText r ++ (r.payload.map cfg.payloadKey).getD []))
  else none

end Config

/-! ## Replies -/

structure JsonReply where
  allow : Bool
  expireAt : Option (Option Int) := none
  cacheTtl : Option Nat := none
  cacheMaxAge : Option Nat := none
  cacheRevision : Option Str := none

inductive Outcome where
  | unspecified
  | allow
  | deny
  deriving DecidableEq

/-- `pb::Decision`. -/
structure MessageReply where
  outcome : Outcome
  expiresAtMs : Nat := 0
  cacheTtlMs : Nat := 0
  cacheMaxAgeMs : Nat := 0
  cacheRevision : Str := []
  deriving DecidableEq

inductive Reply where
  | json (data : JsonReply)
  | message (value : MessageReply)

def Reply.Allows : Reply → Prop
  | .json data => data.allow
  | .message value => value.outcome = .allow

def Reply.expiresAt : Reply → Nat
  | .json data => ((data.expireAt.bind id).getD 0).toNat * 1000
  | .message value => value.expiresAtMs

namespace Config

variable (cfg : Config)

def maxAge : Reply → Nat
  | .json data =>
    if cfg.freshLimit = 0 then 0
    else
      match data.cacheTtl, data.cacheMaxAge with
      | none, _ => 0
      | some ttl, none => min cfg.freshLimit ttl
      | some _, some age => min cfg.ageLimit age
  | .message value => min cfg.ageLimit value.cacheMaxAgeMs

def fresh : Reply → Nat
  | .json data =>
    min (if cfg.freshLimit = 0 then 0 else min cfg.freshLimit (data.cacheTtl.getD 0))
      (cfg.maxAge (.json data))
  | .message value => min (min cfg.freshLimit value.cacheTtlMs) (cfg.maxAge (.message value))

/-- The part that both forms of `parse` share; a deny is kept for a second at most. -/
def judge (wall : Nat) (reply : Reply) (allow : Bool) (revision : Str) : Decision :=
  let expires := reply.expiresAt
  if allow ∧ ¬ (expires ≠ 0 ∧ expires ≤ wall) then
    { result := .success, authoritative := true, expiresAt := expires,
      freshMs := cfg.fresh reply, maxAgeMs := cfg.maxAge reply, revision := revision }
  else
    { result := .accessDenied, authoritative := true, expiresAt := expires,
      freshMs := min 1000 (cfg.fresh reply), maxAgeMs := min 1000 (cfg.fresh reply),
      revision := revision }

/-- The `expire_at` of a JSON reply: a positive integer that fits when it is multiplied. -/
def expireAtOk : Option (Option Int) → Bool
  | none => true
  | some none => false
  | some (some value) => 0 < value && value.toNat ≤ (2 ^ 64 - 1) / 1000

/-- The decision in a reply. -/
def parse (wall : Nat) : Reply → Decision
  | .json data =>
    if expireAtOk data.expireAt = false ∨ 128 < (data.cacheRevision.getD []).length then {}
    else cfg.judge wall (.json data) data.allow (data.cacheRevision.getD [])
  | .message value =>
    if value.outcome = .unspecified ∨ 128 < value.cacheRevision.length then {}
    else cfg.judge wall (.message value) (value.outcome = .allow) value.cacheRevision

end Config

inductive Response where
  /-- No answer, an error, an exception that `read` or the client throws, or a breaker or a
  deadline that prevents the request. -/
  | failure
  | json (data : JsonReply)
  | message (value : MessageReply)
  | batch (items : List (Nat × Option MessageReply))

def Response.addressed (i : Nat) : Response → List Reply
  | .failure => []
  | .json data => [.json data]
  | .message value => [.message value]
  | .batch items =>
    items.filterMap fun item => if item.1 = i + 1 then item.2.map Reply.message else none

namespace Config

variable (cfg : Config)

/-- A batch of messages names the request that each of them is for. -/
def readItems (cfg : Config) (wall n : Nat) :
    List (Nat × Option MessageReply) → List Nat → List Decision → Option (List Decision)
  | [], _, results => some results
  | (id, decision) :: rest, seen, results =>
    if id = 0 ∨ n < id ∨ id ∈ seen then none
    else
      match decision with
      | none => none
      | some value =>
        cfg.readItems wall n rest (id :: seen)
          (results.set (id - 1) (cfg.parse wall (.message value)))

def read (wall n : Nat) (login : Bool) : Response → Option (List Decision)
  | .failure => none
  | .json data => if cfg.grpcMode then none else some [cfg.parse wall (.json data)]
  | .message value => if cfg.grpcMode && login then some [cfg.parse wall (.message value)] else none
  | .batch items =>
    if cfg.grpcMode && !login && items.length == n then
      cfg.readItems wall n items [] (List.replicate n {})
    else none

end Config

/-! ## Keys -/

theorem Action.name_injective : Injective Action.name := by
  intro a b h
  cases a <;> cases b <;> simp [name] at h ⊢

namespace Config

variable {cfg : Config}

theorem keyText_append_inj {r r' t t'} (h : keyText r ++ t = keyText r' ++ t') :
    (r.user.session, r.user.username, r.user.clientId, r.action, r.topic, t) =
      (r'.user.session, r'.user.username, r'.user.clientId, r'.action, r'.topic, t') := by
  simp only [keyText, cons_append, append_assoc, nil_append, List.cons.injEq, true_and] at h
  obtain ⟨hsession, h⟩ := decimal_append_inj h
  obtain ⟨husername, h⟩ := quote_append_inj h
  obtain ⟨hclient, h⟩ := quote_append_inj (List.cons.inj h).2
  obtain ⟨haction, h⟩ := quote_append_inj (List.cons.inj h).2
  obtain ⟨htopic, h⟩ := quote_append_inj (List.cons.inj h).2
  rw [hsession, husername, hclient, Action.name_injective haction, htopic, (List.cons.inj h).2]

theorem payloadKey_getD_inj {p p' : Option Str}
    (h : (p.map cfg.payloadKey).getD [] = (p'.map cfg.payloadKey).getD []) :
    p.map cfg.payloadKey = p'.map cfg.payloadKey := by
  cases p with
  | none =>
    cases p' with
    | none => rfl
    | some q => exact absurd h.symm (cfg.hash.nonempty _)
  | some p =>
    cases p' with
    | none => exact absurd h (cfg.hash.nonempty _)
    | some q => exact congrArg some h

/-- The parts can be read back from what is digested, so requests with one key have one identity. -/
theorem identity_of_key {r r'} {key : Str} (h : cfg.key r = some key)
    (h' : cfg.key r' = some key) : cfg.identity r = cfg.identity r' := by
  unfold Config.key at h h'
  split_ifs at h
  split_ifs at h'
  have htext := keyText_append_inj (cfg.hash.injective (Option.some.inj (h.trans h'.symm)))
  simp only [Prod.mk.injEq] at htext
  obtain ⟨hsession, husername, hclient, haction, htopic, hpayload⟩ := htext
  rw [identity, identity, hsession, husername, hclient, haction, htopic,
    payloadKey_getD_inj hpayload]

/-! ## What a grant is read from -/

structure Vouches (cfg : Config) (reply : Reply) (d : Decision) : Prop where
  allows : reply.Allows
  authoritative : d.authoritative
  expiresAt : d.expiresAt = reply.expiresAt
  maxAge : d.maxAgeMs = cfg.maxAge reply

variable {wall : Nat}

theorem judge_success {reply allow revision} (hallow : allow = true → reply.Allows)
    (h : (cfg.judge wall reply allow revision).result = .success) :
    Vouches cfg reply (cfg.judge wall reply allow revision) := by
  simp only [judge] at h ⊢
  split_ifs at h ⊢ with hcase
  exact ⟨hallow hcase.1, rfl, rfl, rfl⟩

/-- A reply that reads as a grant allows, and the grant has the reply's times. -/
theorem parse_success {reply} (h : (cfg.parse wall reply).result = .success) :
    Vouches cfg reply (cfg.parse wall reply) := by
  cases reply with
  | json data =>
    simp only [parse] at h ⊢
    split_ifs at h ⊢ with hbad
    exact judge_success (fun hallow => hallow) h
  | message value =>
    simp only [parse] at h ⊢
    split_ifs at h ⊢ with hbad
    refine judge_success (fun hallow => ?_) h
    exact of_decide_eq_true (p := value.outcome = .allow) hallow

/-- A decision that is read from a batch is that of an item with the number of its request. -/
theorem readItems_getElem? {n} : ∀ {items seen results results' i d},
    cfg.readItems wall n items seen results = some results' → results'[i]? = some d →
      results[i]? = some d ∨
        ∃ value, (i + 1, some value) ∈ items ∧ d = cfg.parse wall (.message value)
  | [], _, results, results', i, d, h, hd => by
    rw [readItems, Option.some.injEq] at h
    exact .inl (h ▸ hd)
  | (id, decision) :: rest, seen, results, results', i, d, h, hd => by
    unfold readItems at h
    split_ifs at h with hbad
    cases decision with
    | none => cases h
    | some value =>
      rcases readItems_getElem? h hd with hset | ⟨value', hmem, rfl⟩
      · rw [List.getElem?_set] at hset
        split_ifs at hset with heq hlt
        · have hi : id = i + 1 := by omega
          exact .inr ⟨value, hi ▸ mem_cons_self, (Option.some.inj hset).symm⟩
        · exact .inl hset
      · exact .inr ⟨value', mem_cons_of_mem _ hmem, rfl⟩

theorem read_success {n login response ds i d} (h : cfg.read wall n login response = some ds)
    (hd : ds[i]? = some d)
    (hsuccess : d.result = .success) : ∃ reply ∈ response.addressed i, Vouches cfg reply d := by
  cases response with
  | failure => cases h
  | json data =>
    simp only [read] at h
    split_ifs at h
    cases h
    obtain ⟨rfl, rfl⟩ : i = 0 ∧ d = cfg.parse wall (.json data) := by
      cases i with
      | zero => exact ⟨rfl, (Option.some.inj hd).symm⟩
      | succ i => cases hd
    exact ⟨_, mem_singleton.2 rfl, parse_success hsuccess⟩
  | message value =>
    simp only [read] at h
    split_ifs at h
    cases h
    obtain ⟨rfl, rfl⟩ : i = 0 ∧ d = cfg.parse wall (.message value) := by
      cases i with
      | zero => exact ⟨rfl, (Option.some.inj hd).symm⟩
      | succ i => cases hd
    exact ⟨_, mem_singleton.2 rfl, parse_success hsuccess⟩
  | batch items =>
    simp only [read] at h
    split_ifs at h
    rcases readItems_getElem? h hd with hdefault | ⟨value, hmem, rfl⟩
    · have hd : d = {} := eq_of_mem_replicate (mem_of_getElem? hdefault)
      rw [hd] at hsuccess
      cases hsuccess
    · refine ⟨.message value, ?_, parse_success hsuccess⟩
      exact mem_filterMap.2 ⟨_, hmem, by simp⟩

end Config

end Mqtts.RemoteAuth
