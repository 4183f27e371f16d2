import Mqtts.Protocol.Flow

/-!
# Inbound publications

`handle_publish` and `handle_pubrel` of the protocol handler. An identifier of QoS 2 enters the set
of the flow before the publication is authorized and forwarded; a refusal takes it out again, a
failure closes the connection, and a PUBREL takes it out. The results are inductions over the trace
of a connection.
-/

namespace Mqtts.Inbound

open List Mqtts.Flow PacketIdSet

/-! ## The handler -/

inductive ReasonCode where
  | success
  | notAuthorized
  | unspecifiedError
  | protocolError
  | receiveMaximumExceeded
  | topicAliasInvalid
  | quotaExceeded
  | retainNotSupported
  | qosNotSupported
  deriving DecidableEq

/-- What `InboundTopicAliases` says of the alias of a packet. -/
inductive AliasResult where
  | unused
  | resolved
  | invalid
  | unknown
  | quota

/-- `inbound_alias_disconnect_reason`. -/
def AliasResult.disconnectReason : AliasResult → ReasonCode
  | .unused => .success
  | .resolved => .success
  | .invalid => .topicAliasInvalid
  | .unknown => .protocolError
  | .quota => .quotaExceeded

inductive AuthResult where
  | success
  | invalidCredentials
  | accessDenied
  | userNotFound
  | topicAccessDenied
  | internalError
  | timeout
  | rateLimited
  | pending
  deriving DecidableEq

/-- `denied` of `handle_publish`, as a reason. -/
def AuthResult.reason (r : AuthResult) : ReasonCode :=
  if r = .accessDenied ∨ r = .invalidCredentials ∨ r = .userNotFound then .notAuthorized
  else .unspecifiedError

/-- What `forward_publish_via_router` returns: a number of subscribers, `MQ_ERR_PUBLISH_QUOTA`,
or another error. -/
inductive ForwardResult where
  | subscribers (n : Nat)
  | quota
  | error

/-- The configuration of a connection. `authorizes` says that there are an authorization
manager and a context, `durable` that the session manager has a durable store. -/
structure Config where
  maxPacketSize : Nat
  receiveMaximum : Nat
  maxQos : Nat
  retainAvailable : Bool
  protocolVersion : Nat
  authorizes : Bool
  sessionManager : Bool
  durable : Bool

structure Publish where
  topic : List UInt8
  qos : Nat
  retain : Bool
  dup : Bool
  packetId : PacketId
  payload : List UInt8
  deriving DecidableEq

/-- What the surroundings do in one call: the topic alias, the authorization, the forward and the
socket. -/
structure Answers where
  topicAlias : AliasResult
  auth : AuthResult
  forward : ForwardResult
  sent : Bool

inductive Action where
  | forward (p : Publish)
  | puback (id : PacketId) (reason : ReasonCode)
  | pubrec (id : PacketId) (reason : ReasonCode)
  | pubcomp (id : PacketId) (reason : ReasonCode)
  | disconnect (reason : ReasonCode)
  deriving DecidableEq

/-- What a call does, and whether it returns `MQ_SUCCESS`. With any other result
`process_loop` ends, and the connection with it. -/
structure Reply where
  actions : List Action
  ok : Bool

structure Handler where
  connected : Bool
  flow : ConnectionFlow

def Config.syncServerFlowLimits (cfg : Config) (f : ConnectionFlow) : ConnectionFlow :=
  f.setServerLimits cfg.maxPacketSize cfg.receiveMaximum cfg.maxQos

def Config.grantedQosLimit (cfg : Config) (f : ConnectionFlow) : Nat :=
  if cfg.sessionManager ∧ cfg.durable ∧ f.maxQos > 1 then 1 else f.maxQos

/-- The limit that `admit_qos2` compares with. -/
def Config.heldLimit (cfg : Config) : Nat :=
  if cfg.receiveMaximum ≠ 0 then cfg.receiveMaximum else 1

def closeForFlow (reason : ReasonCode) : Reply := ⟨[.disconnect reason], false⟩

def acknowledge (p : Publish) (a : Answers) : Reply :=
  if p.qos = 1 then ⟨[.puback p.packetId .success], a.sent⟩
  else if p.qos = 2 then ⟨[.pubrec p.packetId .success], a.sent⟩
  else ⟨[], true⟩

/-- The part of `handle_publish` that forwards. -/
def forwardPublish (cfg : Config) (p : Publish) (a : Answers) : Reply :=
  if cfg.sessionManager then
    match a.forward with
    | .subscribers _ => ⟨.forward p :: (acknowledge p a).actions, (acknowledge p a).ok⟩
    | .quota =>
      if cfg.protocolVersion ≥ 5 ∧ p.qos = 1 then
        ⟨[.forward p, .puback p.packetId .quotaExceeded], a.sent⟩
      else ⟨[.forward p], false⟩
    | .error => ⟨[.forward p], false⟩
  else acknowledge p a

/-- The part of `handle_publish` that answers a publication which is not authorized. -/
def denyPublish (cfg : Config) (f : ConnectionFlow) (p : Publish) (a : Answers) :
    Reply × ConnectionFlow :=
  if cfg.protocolVersion < 5 ∨ p.qos = 0 then (⟨[], false⟩, f)
  else if p.qos = 1 then (⟨[.puback p.packetId a.auth.reason], a.sent⟩, f)
  else if p.qos = 2 then
    (⟨[.pubrec p.packetId a.auth.reason], a.sent⟩, f.releaseQos2 p.packetId)
  else (⟨[], true⟩, f)

/-- The part of `handle_publish` after the identifier is admitted. -/
def processPublish (cfg : Config) (f : ConnectionFlow) (p : Publish) (a : Answers) :
    Reply × ConnectionFlow :=
  if cfg.authorizes ∧ a.auth ≠ .success then denyPublish cfg f p a
  else (forwardPublish cfg p a, f)

/-- The part of `handle_publish` from `sync_server_flow_limits` on. -/
def admitPublish (cfg : Config) (f : ConnectionFlow) (p : Publish) (a : Answers) :
    Reply × ConnectionFlow :=
  if p.retain ∧ !cfg.retainAvailable then (closeForFlow .retainNotSupported, f)
  else if p.qos > cfg.grantedQosLimit f then (closeForFlow .qosNotSupported, f)
  else if p.qos = 2 then
    match f.admitQos2 p.packetId with
    | (.duplicate, f) => (⟨[.pubrec p.packetId .success], a.sent⟩, f)
    | (.exceeded, f) => (closeForFlow .receiveMaximumExceeded, f)
    | (.forward, f) => processPublish cfg f p a
  else processPublish cfg f p a

def handlePublish (cfg : Config) (h : Handler) (p : Publish) (a : Answers) : Reply × Handler :=
  if !h.connected then
    (⟨[], false⟩, { h with flow := cfg.syncServerFlowLimits h.flow })
  else if a.topicAlias.disconnectReason ≠ .success then
    (closeForFlow a.topicAlias.disconnectReason, h)
  else if p.topic = [] then
    (⟨[], false⟩, { h with flow := cfg.syncServerFlowLimits h.flow })
  else if p.qos > 2 then (closeForFlow .protocolError, h)
  else if (p.qos = 1 ∨ p.qos = 2) ∧ p.packetId = 0 then (closeForFlow .protocolError, h)
  else
    let (reply, flow) := admitPublish cfg (cfg.syncServerFlowLimits h.flow) p a
    (reply, { h with flow := flow })

def handlePubrel (h : Handler) (id : PacketId) (sent : Bool) : Reply × Handler :=
  if !h.connected then (⟨[], false⟩, h)
  else (⟨[.pubcomp id .success], sent⟩, { h with flow := h.flow.releaseQos2 id })

/-! ## What a publication can do -/

/-- The QoS limit after `sync_server_flow_limits`. -/
def Config.qosCap (cfg : Config) : Nat :=
  if cfg.sessionManager ∧ cfg.durable ∧ cfg.maxQos > 1 then 1 else cfg.maxQos

structure Passes (cfg : Config) (p : Publish) (a : Answers) : Prop where
  topicAlias : a.topicAlias.disconnectReason = .success
  topic : p.topic ≠ []
  packetId : p.packetId ≠ 0
  retain : ¬ (p.retain ∧ !cfg.retainAvailable)
  qos : ¬ p.qos > cfg.qosCap

structure Closes (r : Reply) : Prop where
  ok : r.ok = false
  quiet : ∀ q, .forward q ∉ r.actions

/-- The reply to a publication of QoS 2 that is not authorized. -/
inductive Denied (cfg : Config) (p : Publish) (a : Answers) : Reply → Prop where
  | answered (hauth : cfg.authorizes ∧ a.auth ≠ .success) {reason : ReasonCode}
      (hreason : reason ≠ .success) : Denied cfg p a ⟨[.pubrec p.packetId reason], a.sent⟩
  | closed (hauth : cfg.authorizes ∧ a.auth ≠ .success) : Denied cfg p a ⟨[], false⟩

def Accepted (cfg : Config) (p : Publish) (a : Answers) (r : Reply) : Prop :=
  if cfg.sessionManager then
    match a.forward with
    | .subscribers _ => r = ⟨[.forward p, .pubrec p.packetId .success], a.sent⟩
    | _ => r = ⟨[.forward p], false⟩
  else r = ⟨[.pubrec p.packetId .success], a.sent⟩

/-- What `handle_publish` answers and leaves in the set of identifiers. -/
inductive Handled (cfg : Config) (p : Publish) (a : Answers) (s : PacketIdSet) :
    Reply → PacketIdSet → Prop where
  | other {r : Reply} (hqos : p.qos ≠ 2) : Handled cfg p a s r s
  | malformed {r : Reply} (hp : ¬ Passes cfg p a) (hr : Closes r) : Handled cfg p a s r s
  | repeated (hqos : p.qos = 2) (htest : s.test p.packetId) :
      Handled cfg p a s ⟨[.pubrec p.packetId .success], a.sent⟩ s
  | exceeded (htest : s.test p.packetId = false) (hfull : cfg.heldLimit ≤ s.count) :
      Handled cfg p a s (closeForFlow .receiveMaximumExceeded) s
  | denied {r : Reply} {s' : PacketIdSet} (hqos : p.qos = 2) (hid : p.packetId ≠ 0)
      (htest : s.test p.packetId = false) (hroom : s.count < cfg.heldLimit)
      (hdenied : Denied cfg p a r)
      (hs' : s' = (s.add p.packetId).erase p.packetId ∨ r.ok = false ∧ s' = s.add p.packetId) :
      Handled cfg p a s r s'
  | accepted {r : Reply} (hqos : p.qos = 2) (hid : p.packetId ≠ 0)
      (htest : s.test p.packetId = false) (hroom : s.count < cfg.heldLimit)
      (haccepted : Accepted cfg p a r) : Handled cfg p a s r (s.add p.packetId)

variable {cfg : Config} {p : Publish} {a : Answers} {f : ConnectionFlow} {h h' : Handler}

theorem closes_closeForFlow (reason : ReasonCode) : Closes (closeForFlow reason) where
  ok := rfl
  quiet := fun q hq => by cases mem_singleton.1 hq

theorem AuthResult.reason_ne_success (r : AuthResult) : r.reason ≠ .success := by
  cases r <;> simp [AuthResult.reason]

theorem acknowledge_qos2 (hqos : p.qos = 2) :
    acknowledge p a = ⟨[.pubrec p.packetId .success], a.sent⟩ := by
  rw [acknowledge, if_neg (by omega), if_pos hqos]

theorem forwardPublish_accepted (hqos : p.qos = 2) : Accepted cfg p a (forwardPublish cfg p a) := by
  have hne : ¬ (cfg.protocolVersion ≥ 5 ∧ p.qos = 1) := by omega
  rw [Accepted, forwardPublish]
  split
  · cases a.forward with
    | subscribers n => simp only [acknowledge_qos2 hqos]
    | quota | error => rfl
  · exact acknowledge_qos2 hqos

theorem processPublish_inbound_of_ne (hqos : p.qos ≠ 2) :
    (processPublish cfg f p a).2.inboundQos2 = f.inboundQos2 := by
  rw [processPublish]
  split
  · rw [denyPublish, if_neg hqos]
    split
    · rfl
    · split <;> rfl
  · rfl

theorem processPublish_handled {s} (hqos : p.qos = 2) (hid : p.packetId ≠ 0)
    (htest : s.test p.packetId = false) (hroom : s.count < cfg.heldLimit)
    (hf : f.inboundQos2 = s.add p.packetId) :
    Handled cfg p a s (processPublish cfg f p a).1 (processPublish cfg f p a).2.inboundQos2 := by
  rw [processPublish]
  split
  · rename_i hauth
    have hne : ¬ p.qos = 1 := by omega
    rw [denyPublish, if_neg hne, if_pos hqos]
    split
    · exact .denied hqos hid htest hroom (.closed hauth) (.inr ⟨rfl, hf⟩)
    · refine .denied hqos hid htest hroom (.answered hauth a.auth.reason_ne_success) (.inl ?_)
      rw [← hf]
      rfl
  · simp only [hf]
    exact .accepted hqos hid htest hroom (forwardPublish_accepted hqos)

theorem admitPublish_handled (hid : p.qos = 2 → p.packetId ≠ 0)
    (hlimit : f.serverReceiveMaximum = cfg.heldLimit) (hcap : cfg.grantedQosLimit f = cfg.qosCap) :
    Handled cfg p a f.inboundQos2 (admitPublish cfg f p a).1
      (admitPublish cfg f p a).2.inboundQos2 := by
  rw [admitPublish, hcap]
  split
  · rename_i hretain
    exact .malformed (fun hp => hp.retain hretain) (closes_closeForFlow _)
  split
  · rename_i hcap
    exact .malformed (fun hp => hp.qos hcap) (closes_closeForFlow _)
  split
  · rename_i hqos
    have hne := hid hqos
    rw [ConnectionFlow.admitQos2, hlimit]
    by_cases htest : f.inboundQos2.test p.packetId
    · rw [if_pos ⟨hne, htest⟩]
      exact .repeated hqos htest
    · have hnot : f.inboundQos2.test p.packetId = false := Bool.eq_false_iff.2 htest
      rw [if_neg fun hand => htest hand.2]
      split_ifs with hfull
      · exact .exceeded hnot hfull
      · exact processPublish_handled hqos hne hnot (Nat.lt_of_not_le hfull) rfl
  · rename_i hqos
    rw [processPublish_inbound_of_ne hqos]
    exact .other hqos

theorem handlePublish_handled (cfg : Config) (hconnected : h.connected) (p : Publish)
    (a : Answers) :
    Handled cfg p a h.flow.inboundQos2 (handlePublish cfg h p a).1
      (handlePublish cfg h p a).2.flow.inboundQos2 := by
  rw [handlePublish, hconnected, if_neg (by decide)]
  split
  · rename_i halias
    exact .malformed (fun hp => halias hp.topicAlias) (closes_closeForFlow _)
  split
  · rename_i htopic
    exact .malformed (fun hp => hp.topic htopic) ⟨rfl, fun q hq => by cases hq⟩
  split
  · exact .other (by omega)
  split
  · rename_i hzero
    exact .malformed (fun hp => hp.packetId hzero.2) (closes_closeForFlow _)
  · rename_i hzero
    refine admitPublish_handled (f := cfg.syncServerFlowLimits h.flow) ?_ rfl rfl
    exact fun hqos hid => hzero ⟨.inr hqos, hid⟩

/-! ## The set of identifiers over a run -/

structure Held (cfg : Config) (s : PacketIdSet) : Prop where
  counted : s.Counted
  card_le : s.members.card ≤ cfg.heldLimit

theorem held_empty (cfg : Config) : Held cfg {} where
  counted := counted_empty
  card_le := by
    rw [← counted_empty.count]
    exact Nat.zero_le _

section

variable {s s' : PacketIdSet} {r : Reply} {id : PacketId}

section

variable (hs : Held cfg s)
include hs

theorem Held.add (hid : id ≠ 0) (hroom : s.count < cfg.heldLimit) :
    Held cfg (s.add id) where
  counted := hs.counted.add id
  card_le := by
    rw [members_add hs.counted hid]
    have hcount := hs.counted.count
    have hcard := Finset.card_insert_le id s.members
    omega

theorem Held.erase (id : PacketId) : Held cfg (s.erase id) where
  counted := hs.counted.erase id
  card_le := by
    rw [members_erase hs.counted]
    exact (Finset.card_erase_le).trans hs.card_le

theorem notMem_of_test (htest : s.test id = false) : id ∉ s.members := by
  intro hmem
  rw [hs.counted.test_iff.2 hmem] at htest
  cases htest

theorem members_refused (hid : id ≠ 0) (htest : s.test id = false) :
    ((s.add id).erase id).members = s.members := by
  rw [members_erase (hs.counted.add id), members_add hs.counted hid]
  exact Finset.erase_insert (notMem_of_test hs htest)

theorem members_denied {r : Reply} (hid : id ≠ 0) (htest : s.test id = false)
    (hok : r.ok) (hs' : s' = (s.add id).erase id ∨ r.ok = false ∧ s' = s.add id) :
    s'.members = s.members := by
  rcases hs' with rfl | ⟨hclosed, -⟩
  · exact members_refused hs hid htest
  · rw [hok] at hclosed
    cases hclosed

theorem Handled.held (hp : Handled cfg p a s r s') : Held cfg s' := by
  cases hp with
  | other | malformed | repeated | exceeded => exact hs
  | denied hqos hid htest hroom hdenied hs' =>
    rcases hs' with rfl | ⟨-, rfl⟩
    · exact (hs.add hid hroom).erase _
    · exact hs.add hid hroom
  | accepted hqos hid htest hroom haccepted => exact hs.add hid hroom

theorem Handled.mem_iff (hp : Handled cfg p a s r s') (hok : r.ok)
    (hne : ¬ (p.qos = 2 ∧ p.packetId = id)) : id ∈ s'.members ↔ id ∈ s.members := by
  cases hp with
  | other | malformed | repeated | exceeded => exact Iff.rfl
  | denied hqos hid htest hroom hdenied hs' => rw [members_denied hs hid htest hok hs']
  | accepted hqos hid htest hroom haccepted =>
    rw [members_add hs.counted hid, Finset.mem_insert]
    exact or_iff_right fun heq => hne ⟨hqos, heq.symm⟩

end

end

/-! ## Traces -/

inductive Event where
  | publish (p : Publish) (a : Answers)
  | pubrel (id : PacketId) (sent : Bool)

def handle (cfg : Config) (h : Handler) : Event → Reply × Handler
  | .publish p a => handlePublish cfg h p a
  | .pubrel id sent => handlePubrel h id sent

/-- A packet, the reply to it, and the number of identifiers that were held when it came. -/
structure Entry where
  event : Event
  reply : Reply
  held : Nat

variable (id : PacketId)

def Event.publishes : Event → Bool
  | .publish p _ => decide (p.qos = 2 ∧ p.packetId = id)
  | .pubrel _ _ => false

def Event.releases : Event → Bool
  | .publish _ _ => false
  | .pubrel id' _ => decide (id' = id)

/-- The packets that a connection handles, with the replies. It ends with the first packet
whose handling fails. -/
inductive Trace (cfg : Config) : Handler → List Entry → Handler → Prop where
  | done (h : Handler) : Trace cfg h [] h
  | next {h h' h'' : Handler} {e : Event} {r : Reply} {entries : List Entry}
      (hhandle : handle cfg h e = (r, h')) (hok : r.ok) (hrest : Trace cfg h' entries h'') :
      Trace cfg h (⟨e, r, h.flow.inboundQos2.members.card⟩ :: entries) h''
  | failed {h h' : Handler} {e : Event} {r : Reply} (hhandle : handle cfg h e = (r, h'))
      (hok : r.ok = false) : Trace cfg h [⟨e, r, h.flow.inboundQos2.members.card⟩] h'

def run (cfg : Config) : Handler → List Event → List Entry × Handler
  | h, [] => ([], h)
  | h, e :: es =>
    let (r, h') := handle cfg h e
    if r.ok then
      let (entries, h'') := run cfg h' es
      (⟨e, r, h.flow.inboundQos2.count⟩ :: entries, h'')
    else ([⟨e, r, h.flow.inboundQos2.count⟩], h')

structure Open (cfg : Config) (h : Handler) : Prop where
  connected : h.connected
  held : Held cfg h.flow.inboundQos2

section

variable {e : Event} {r : Reply} {id : PacketId} {entries : List Entry}

theorem Open.handled (ho : Open cfg h) (hhandle : handle cfg h (.publish p a) = (r, h')) :
    Handled cfg p a h.flow.inboundQos2 r h'.flow.inboundQos2 := by
  have hp := handlePublish_handled cfg ho.connected p a
  rw [show handlePublish cfg h p a = (r, h') from hhandle] at hp
  exact hp

theorem handlePublish_connected (cfg : Config) (h : Handler) (p : Publish) (a : Answers) :
    (handlePublish cfg h p a).2.connected = h.connected := by
  rw [handlePublish]
  repeat' split
  all_goals rfl

theorem Open.pubrel {sent} (ho : Open cfg h) (hhandle : handle cfg h (.pubrel id sent) = (r, h')) :
    h'.connected ∧ h'.flow.inboundQos2 = h.flow.inboundQos2.erase id := by
  rw [handle, handlePubrel, ho.connected, if_neg (by decide)] at hhandle
  obtain ⟨-, rfl⟩ := Prod.mk.inj hhandle
  exact ⟨rfl, rfl⟩

theorem Open.step (ho : Open cfg h) (hhandle : handle cfg h e = (r, h')) : Open cfg h' := by
  cases e with
  | publish p a =>
    refine ⟨?_, (ho.handled hhandle).held ho.held⟩
    have hconnected := handlePublish_connected cfg h p a
    rw [show handlePublish cfg h p a = (r, h') from hhandle] at hconnected
    exact hconnected.trans ho.connected
  | pubrel id sent =>
    obtain ⟨hconnected, hflow⟩ := ho.pubrel hhandle
    exact ⟨hconnected, hflow ▸ ho.held.erase id⟩

theorem trace_run (ho : Open cfg h) (es : List Event) :
    Trace cfg h (run cfg h es).1 (run cfg h es).2 := by
  induction es generalizing h with
  | nil => exact .done h
  | cons e es ih =>
    rw [run, ho.held.counted.count]
    by_cases hok : (handle cfg h e).1.ok
    · simp only [hok, if_true]
      exact .next rfl hok (ih (ho.step rfl))
    · simp only [hok, Bool.false_eq_true, if_false]
      exact .failed rfl (Bool.eq_false_iff.2 hok)

theorem Trace.open (ht : Trace cfg h entries h') (ho : Open cfg h) : Open cfg h' := by
  induction ht with
  | done h => exact ho
  | next hhandle hok hrest ih => exact ih (ho.step hhandle)
  | failed hhandle hok => exact ho.step hhandle

theorem Trace.split {before after} (hne : after ≠ []) (ht : Trace cfg h (before ++ after) h') :
    ∃ mid, Trace cfg h before mid ∧ Trace cfg mid after h' := by
  induction before generalizing h with
  | nil => exact ⟨h, .done h, ht⟩
  | cons x before ih =>
    rw [cons_append] at ht
    generalize hrest : before ++ after = rest at ht
    cases ht with
    | next hhandle hok hnext =>
      subst hrest
      obtain ⟨mid, hbefore, hafter⟩ := ih hnext
      exact ⟨mid, .next hhandle hok hbefore, hafter⟩
    | failed hhandle hok => exact (hne (append_eq_nil_iff.1 hrest).2).elim

theorem Trace.left {before after} (ht : Trace cfg h (before ++ after) h') :
    ∃ mid, Trace cfg h before mid := by
  by_cases hne : after = []
  · subst hne
    rw [append_nil] at ht
    exact ⟨h', ht⟩
  · obtain ⟨mid, hbefore, -⟩ := ht.split hne
    exact ⟨mid, hbefore⟩

theorem Open.mem_iff (ho : Open cfg h) (hhandle : handle cfg h e = (r, h')) (hok : r.ok)
    (hpublish : e.publishes id = false) (hrelease : e.releases id = false) :
    id ∈ h'.flow.inboundQos2.members ↔ id ∈ h.flow.inboundQos2.members := by
  cases e with
  | publish p a => exact (ho.handled hhandle).mem_iff ho.held hok (of_decide_eq_false hpublish)
  | pubrel id' sent =>
    have hne : id' ≠ id := of_decide_eq_false hrelease
    rw [(ho.pubrel hhandle).2, members_erase ho.held.counted, Finset.mem_erase]
    exact and_iff_right hne.symm

end

/-! ## Exactly once -/

/-- A publication that is not forwarded for a reason: it is malformed, it is not authorized, or
as many identifiers as the receive maximum allows are held when it comes. -/
inductive Refused (cfg : Config) : Entry → Prop where
  | malformed {p : Publish} {a : Answers} {r : Reply} {held : Nat} (hp : ¬ Passes cfg p a)
      (hr : Closes r) : Refused cfg ⟨.publish p a, r, held⟩
  | denied {p : Publish} {a : Answers} {r : Reply} {held : Nat} (hdenied : Denied cfg p a r) :
      Refused cfg ⟨.publish p a, r, held⟩
  | exceeded {p : Publish} {a : Answers} {held : Nat} (hfull : cfg.heldLimit ≤ held) :
      Refused cfg ⟨.publish p a, closeForFlow .receiveMaximumExceeded, held⟩

inductive Forwarded (cfg : Config) : Entry → Prop where
  | intro {p : Publish} {a : Answers} {r : Reply} {held : Nat} (haccepted : Accepted cfg p a r) :
      Forwarded cfg ⟨.publish p a, r, held⟩

inductive Repeated (cfg : Config) : Entry → Prop where
  | acknowledged {p : Publish} {a : Answers} {held : Nat} :
      Repeated cfg ⟨.publish p a, ⟨[.pubrec p.packetId .success], a.sent⟩, held⟩
  | malformed {p : Publish} {a : Answers} {r : Reply} {held : Nat} (hp : ¬ Passes cfg p a)
      (hr : Closes r) : Repeated cfg ⟨.publish p a, r, held⟩

/-- The publications of one identifier: some that are refused, at most one that is forwarded,
and after it only repetitions, and those only if the forward did not fail. -/
def ExactlyOnce (cfg : Config) (entries : List Entry) : Prop :=
  (∀ x ∈ entries, Refused cfg x) ∨
    ∃ refused x repeated, entries = refused ++ x :: repeated ∧ (∀ y ∈ refused, Refused cfg y) ∧
      Forwarded cfg x ∧ (x.reply.ok = false → repeated = []) ∧ ∀ y ∈ repeated, Repeated cfg y

section

variable {e : Event} {r : Reply} {id : PacketId} {entries : List Entry} {x : Entry}

theorem ExactlyOnce.cons_refused (hx : Refused cfg x) (hs : ExactlyOnce cfg entries) :
    ExactlyOnce cfg (x :: entries) := by
  rcases hs with hall | ⟨refused, y, repeated, rfl, hrefused, hrest⟩
  · exact .inl (forall_mem_cons.2 ⟨hx, hall⟩)
  · exact .inr ⟨x :: refused, y, repeated, rfl, forall_mem_cons.2 ⟨hx, hrefused⟩, hrest⟩

def publications (id : PacketId) (entries : List Entry) : List Entry :=
  entries.filter fun x => x.event.publishes id

theorem publications_cons_of_not {n} (h : e.publishes id = false) :
    publications id (⟨e, r, n⟩ :: entries) = publications id entries :=
  filter_cons_of_neg (by rw [h]; exact Bool.false_ne_true)

theorem publications_cons {n} (h : e.publishes id) :
    publications id (⟨e, r, n⟩ :: entries) = ⟨e, r, n⟩ :: publications id entries :=
  filter_cons_of_pos h

theorem Open.repeated (ho : Open cfg h) (hhandle : handle cfg h e = (r, h'))
    (hpublish : e.publishes id) (hmem : id ∈ h.flow.inboundQos2.members) :
    Repeated cfg ⟨e, r, h.flow.inboundQos2.members.card⟩ ∧ id ∈ h'.flow.inboundQos2.members := by
  cases e with
  | pubrel id' sent => cases hpublish
  | publish p a =>
    obtain ⟨hqos2, rfl⟩ := of_decide_eq_true hpublish
    have htrue := ho.held.counted.test_iff.2 hmem
    have hp := ho.handled hhandle
    generalize h'.flow.inboundQos2 = s' at hp ⊢
    cases hp with
    | other hqos => exact (hqos hqos2).elim
    | malformed hp hr => exact ⟨.malformed hp hr, hmem⟩
    | repeated hqos htest => exact ⟨.acknowledged, hmem⟩
    | exceeded htest | denied _ _ htest | accepted _ _ htest => cases htrue.symm.trans htest

theorem Open.first (ho : Open cfg h) (hhandle : handle cfg h e = (r, h'))
    (hpublish : e.publishes id) (hmem : id ∉ h.flow.inboundQos2.members) :
    Refused cfg ⟨e, r, h.flow.inboundQos2.members.card⟩ ∧
        (r.ok → id ∉ h'.flow.inboundQos2.members) ∨
      Forwarded cfg ⟨e, r, h.flow.inboundQos2.members.card⟩ ∧ id ∈ h'.flow.inboundQos2.members := by
  cases e with
  | pubrel id' sent => cases hpublish
  | publish p a =>
    obtain ⟨hqos2, rfl⟩ := of_decide_eq_true hpublish
    have hp := ho.handled hhandle
    generalize h'.flow.inboundQos2 = s' at hp ⊢
    cases hp with
    | other hqos => exact (hqos hqos2).elim
    | malformed hp hr => exact .inl ⟨.malformed hp hr, fun _ => hmem⟩
    | repeated hqos htest => exact (hmem (ho.held.counted.test_iff.1 htest)).elim
    | exceeded htest hfull => exact .inl ⟨.exceeded (ho.held.counted.count ▸ hfull), fun _ => hmem⟩
    | denied hqos hid htest hroom hdenied hs' =>
      refine .inl ⟨.denied hdenied, ?_⟩
      intro hok
      rw [members_denied ho.held hid htest hok hs']
      exact hmem
    | accepted hqos hid htest hroom haccepted =>
      refine .inr ⟨.intro haccepted, ?_⟩
      rw [members_add ho.held.counted hid]
      exact Finset.mem_insert_self _ _

theorem Trace.repeated (ht : Trace cfg h entries h') (ho : Open cfg h)
    (hmem : id ∈ h.flow.inboundQos2.members)
    (hrelease : ∀ x ∈ entries, x.event.releases id = false) :
    ∀ x ∈ publications id entries, Repeated cfg x := by
  induction ht with
  | done h => exact fun x hx => absurd hx not_mem_nil
  | @next h h₁ h₂ e r entries hhandle hok hrest ih =>
    obtain ⟨hhead, htail⟩ := forall_mem_cons.1 hrelease
    cases hpublish : e.publishes id with
    | false =>
      rw [publications_cons_of_not hpublish]
      exact ih (ho.step hhandle) ((ho.mem_iff hhandle hok hpublish hhead).2 hmem) htail
    | true =>
      obtain ⟨hrepeated, hmem'⟩ := ho.repeated hhandle hpublish hmem
      rw [publications_cons hpublish]
      exact forall_mem_cons.2 ⟨hrepeated, ih (ho.step hhandle) hmem' htail⟩
  | @failed h h₁ e r hhandle hok =>
    cases hpublish : e.publishes id with
    | false =>
      rw [publications_cons_of_not hpublish]
      exact fun x hx => absurd hx not_mem_nil
    | true =>
      rw [publications_cons hpublish]
      exact forall_mem_singleton.2 (ho.repeated hhandle hpublish hmem).1

theorem Trace.exactlyOnce (ht : Trace cfg h entries h') (ho : Open cfg h)
    (hmem : id ∉ h.flow.inboundQos2.members)
    (hrelease : ∀ x ∈ entries, x.event.releases id = false) :
    ExactlyOnce cfg (publications id entries) := by
  induction ht with
  | done h => exact .inl fun x hx => absurd hx not_mem_nil
  | @next h h₁ h₂ e r entries hhandle hok hrest ih =>
    obtain ⟨hhead, htail⟩ := forall_mem_cons.1 hrelease
    cases hpublish : e.publishes id with
    | false =>
      rw [publications_cons_of_not hpublish]
      have hmem' := fun hin => hmem ((ho.mem_iff hhandle hok hpublish hhead).1 hin)
      exact ih (ho.step hhandle) hmem' htail
    | true =>
      rw [publications_cons hpublish]
      rcases ho.first hhandle hpublish hmem with ⟨hrefused, hout⟩ | ⟨hforwarded, hin⟩
      · exact (ih (ho.step hhandle) (hout hok) htail).cons_refused hrefused
      have hrepeated := hrest.repeated (ho.step hhandle) hin htail
      have hopen : r.ok = false → publications id entries = [] := by
        intro hfailed
        rw [hok] at hfailed
        cases hfailed
      exact .inr ⟨[], _, _, rfl, by simp, hforwarded, hopen, hrepeated⟩
  | @failed h h₁ e r hhandle hok =>
    cases hpublish : e.publishes id with
    | false =>
      rw [publications_cons_of_not hpublish]
      exact .inl fun x hx => absurd hx not_mem_nil
    | true =>
      rw [publications_cons hpublish]
      rcases ho.first hhandle hpublish hmem with ⟨hrefused, -⟩ | ⟨hforwarded, -⟩
      · exact .inl (forall_mem_singleton.2 hrefused)
      · exact .inr ⟨[], _, [], rfl, by simp, hforwarded, fun _ => rfl, by simp⟩

theorem Trace.notMem_of_releases {before} (ht : Trace cfg h (before ++ [x]) h')
    (ho : Open cfg h) (hx : x.event.releases id) : id ∉ h'.flow.inboundQos2.members := by
  obtain ⟨mid, hbefore, hlast⟩ := ht.split (by simp)
  have hmid := hbefore.open ho
  have hstep : ∀ {e r}, handle cfg mid e = (r, h') → e.releases id →
      id ∉ h'.flow.inboundQos2.members := by
    intro e r hhandle hreleases
    cases e with
    | publish p a => cases hreleases
    | pubrel id' sent =>
      obtain rfl := of_decide_eq_true hreleases
      rw [(hmid.pubrel hhandle).2, members_erase hmid.held.counted]
      exact Finset.notMem_erase _ _
  cases hlast with
  | next hhandle hok hrest =>
    cases hrest
    exact hstep hhandle hx
  | failed hhandle hok => exact hstep hhandle hx

end

def Stretch (before entries : List Entry) : Prop :=
  (before = [] ∨ ∃ earlier x, before = earlier ++ [x] ∧ x.event.releases id) ∧
    ∀ x ∈ entries, x.event.releases id = false

/-- On a connection whose set of identifiers starts empty, every stretch has the publications
of its identifier forwarded as `ExactlyOnce` says, and the set stays within the receive
maximum. -/
theorem qos2_exactly_once {before entries after id}
    (hconnected : h.connected) (hempty : h.flow.inboundQos2 = {})
    (ht : Trace cfg h (before ++ (entries ++ after)) h') (hstretch : Stretch id before entries) :
    ExactlyOnce cfg (publications id entries) ∧
      h'.flow.inboundQos2.members.card ≤ cfg.heldLimit := by
  have ho : Open cfg h := ⟨hconnected, hempty ▸ held_empty cfg⟩
  refine ⟨?_, (ht.open ho).held.card_le⟩
  by_cases hne : entries = []
  · subst hne
    exact .inl fun x hx => absurd hx not_mem_nil
  obtain ⟨mid, hbefore, hrest⟩ := ht.split (by simp [hne])
  have hmid := hbefore.open ho
  have hmem : id ∉ mid.flow.inboundQos2.members := by
    rcases hstretch.1 with rfl | ⟨earlier, x, rfl, hx⟩
    · cases hbefore
      rw [hempty, Finset.card_eq_zero.1 counted_empty.count.symm]
      exact Finset.notMem_empty _
    · exact hbefore.notMem_of_releases ho hx
  obtain ⟨last, hentries⟩ := hrest.left
  exact hentries.exactlyOnce hmid hmem hstretch.2

def sampleConfig : Config where
  maxPacketSize := 1024
  receiveMaximum := 2
  maxQos := 2
  retainAvailable := true
  protocolVersion := 5
  authorizes := true
  sessionManager := true
  durable := false

def samplePublish (auth : AuthResult) (forward : ForwardResult) : Event :=
  .publish ⟨[97], 2, false, false, id, [1]⟩ ⟨.unused, auth, forward, true⟩

def sampleEvents : List Event :=
  [samplePublish 7 .accessDenied .error, samplePublish 7 .success (.subscribers 1),
    samplePublish 7 .success .error, samplePublish 9 .success .error]

theorem qos2_exactly_once_sample :
    (run sampleConfig ⟨true, {}⟩ sampleEvents).1.map (fun x =>
        (x.reply.actions.length, x.reply.ok)) = [(1, true), (2, true), (1, true), (1, false)] ∧
      ExactlyOnce sampleConfig
        (publications 7 (run sampleConfig ⟨true, {}⟩ sampleEvents).1) := by
  refine ⟨by decide, ?_⟩
  have ht := trace_run (h := ⟨true, {}⟩) ⟨rfl, held_empty sampleConfig⟩ sampleEvents
  rw [← append_nil (run _ _ _).1, ← nil_append ((run _ _ _).1 ++ _)] at ht
  exact (qos2_exactly_once rfl rfl ht ⟨.inl rfl, by decide⟩).1

end Mqtts.Inbound
