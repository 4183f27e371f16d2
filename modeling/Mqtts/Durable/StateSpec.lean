import Mqtts.Durable.Expiry

/-!
# What the steps of the state change

The operations of the store are made of a few steps on the state, and most invariants only ask which
sessions such a step touches and what it leaves alone. There is one lemma per step for the map of
the sessions.
-/

namespace Mqtts.Durable

open Option Std Maps

def Message.body (m : Message) : Message :=
  { m with references := 0, recipients := [], expiryCursor := 0 }

namespace Message

variable (m : Message)

@[simp] theorem id_body : m.body.id = m.id := rfl

@[simp] theorem wire_body : m.body.wire = m.wire := rfl

end Message

namespace Store

/-- The fields that no step on a session touches. -/
structure SameRest (s s' : Store) : Prop where
  failed : s'.failed = s.failed
  frozen : s'.frozen = s.frozen
  indexing : s'.indexing = s.indexing
  nextId : s'.nextId = s.nextId
  requests : s'.requests = s.requests
  requestBytes : s'.requestBytes = s.requestBytes
  metadataReserved : s'.metadataReserved = s.metadataReserved
  deliveryBytes : s'.deliveryBytes = s.deliveryBytes
  objects : s'.objects = s.objects
  retain : s'.retain = s.retain

namespace SameRest

theorem refl (s : Store) : SameRest s s := ⟨rfl, rfl, rfl, rfl, rfl, rfl, rfl, rfl, rfl, rfl⟩

theorem trans {s₁ s₂ s₃} (h : SameRest s₁ s₂) (h' : SameRest s₂ s₃) : SameRest s₁ s₃ :=
  ⟨h'.failed.trans h.failed, h'.frozen.trans h.frozen, h'.indexing.trans h.indexing,
    h'.nextId.trans h.nextId, h'.requests.trans h.requests, h'.requestBytes.trans h.requestBytes,
    h'.metadataReserved.trans h.metadataReserved, h'.deliveryBytes.trans h.deliveryBytes,
    h'.objects.trans h.objects, h'.retain.trans h.retain⟩

end SameRest

/-- Messages keep their contents; what changes in them is bookkeeping. -/
def SameBodies (s s' : Store) : Prop := ∀ r, (s'.messages r).body = (s.messages r).body

namespace SameBodies

theorem refl (s : Store) : SameBodies s s := fun _ => rfl

theorem trans {s₁ s₂ s₃} (h : SameBodies s₁ s₂) (h' : SameBodies s₂ s₃) :
    SameBodies s₁ s₃ := fun r => (h' r).trans (h r)

variable {s s' : Store} (h : SameBodies s s') (r : Nat)

include h

theorem id : (s'.messages r).id = (s.messages r).id := by
  simpa using congrArg Message.id (h r)

theorem wire : (s'.messages r).wire = (s.messages r).wire := by
  simpa using congrArg Message.wire (h r)

end SameBodies

theorem sameBodies_setMessage {s r m}
    (h : m.body = (s.messages r).body) : SameBodies s (s.setMessage r m) := by
  intro r'
  by_cases hr : r' = r
  · subst hr
    simpa [setMessage] using h
  · simp [setMessage, Function.update_of_ne hr]

/-! ## Sessions -/

variable {s : Store} {ref : SessionRef} {t : Session} {c : Str} {id : Nat}

theorem find_eq_some :
    s.find ref = some t ↔ s.sessions[ref.client]? = some t ∧ t.object = ref.object := by
  simp [find, filter_eq_some_iff]

theorem modify_of_find (h : s.find ref = some t) (f : Session → Session) :
    s.modify ref f = s.put ref.client (f t) := by
  rw [modify, h]

theorem modify_of_not_find (h : s.find ref = none) (f : Session → Session) :
    s.modify ref f = s := by
  rw [modify, h]

theorem sessions_modify (ref : SessionRef) (f : Session → Session) (c : Str) :
    (s.modify ref f).sessions[c]? =
      if ref.client = c then
        (s.sessions[c]?).map fun t => if t.object = ref.object then f t else t
      else s.sessions[c]? := by
  cases h : s.find ref with
  | none =>
    rw [modify_of_not_find h]
    by_cases hc : ref.client = c
    · subst hc
      rw [if_pos rfl]
      cases ht : s.sessions[ref.client]? with
      | none => rfl
      | some t =>
        have hobj : t.object ≠ ref.object := fun ho => by
          rw [find_eq_some.2 ⟨ht, ho⟩] at h
          cases h
        simp [hobj]
    · rw [if_neg hc]
  | some t =>
    obtain ⟨ht, ho⟩ := find_eq_some.1 h
    rw [modify_of_find h, put, get_insert]
    by_cases hc : ref.client = c
    · subst hc
      simp [ht, ho]
    · rw [if_neg hc, if_neg hc]

/-! ## The index -/

structure SameLedger (s s' : Store) : Prop where
  pending : s'.pending = s.pending
  bytes : s'.bytes = s.bytes
  uniqueBytes : s'.uniqueBytes = s.uniqueBytes
  messages : s'.messages = s.messages

namespace SameLedger

theorem refl (s : Store) : SameLedger s s := ⟨rfl, rfl, rfl, rfl⟩

theorem trans {s₁ s₂ s₃} (h : SameLedger s₁ s₂) (h' : SameLedger s₂ s₃) : SameLedger s₁ s₃ :=
  ⟨h'.pending.trans h.pending, h'.bytes.trans h.bytes, h'.uniqueBytes.trans h.uniqueBytes,
    h'.messages.trans h.messages⟩

end SameLedger

theorem removeIndex_eq (c filter : Str) :
    ∃ index, s.removeIndex c filter = { s with index := index } := ⟨_, rfl⟩

theorem removeSubscription_cases (s : Store) (c filter : Str) : (s.removeSubscription c filter = s ∧
        ∀ t, s.sessions[c]? = some t → t.subscriptions[filter]? = none) ∨
      ∃ t index count, s.sessions[c]? = some t ∧ s.removeSubscription c filter = { s with
        index := index
        subscriptions := count
        metadataBytes := s.metadataBytes - subscriptionCost filter
        sessions := s.sessions.insert c
          { t with subscriptions := t.subscriptions.erase filter } } := by
  obtain ⟨index, hindex⟩ := removeIndex_eq (s := s) c filter
  rw [removeSubscription]
  cases s.sessions[c]? with
  | none => exact .inl ⟨rfl, fun _ h => by cases h⟩
  | some t =>
    dsimp only
    cases hsub : t.subscriptions[filter]? with
    | none => exact .inl ⟨rfl, fun _ h => some.inj h ▸ hsub⟩
    | some previous =>
      by_cases hq : previous.qos ≠ 0
      · refine .inr ⟨t, index, s.subscriptions - 1, rfl, ?_⟩
        simp only [if_pos hq, hindex]
      · refine .inr ⟨t, s.index, s.subscriptions, rfl, ?_⟩
        simp only [if_neg hq]

theorem sessions_removeSubscription (c filter c' : Str) :
    (s.removeSubscription c filter).sessions[c']? =
      if c = c' then
        (s.sessions[c']?).map fun t => { t with subscriptions := t.subscriptions.erase filter }
      else s.sessions[c']? := by
  rcases s.removeSubscription_cases c filter with ⟨heq, hnone⟩ | ⟨t, index, count, ht, heq⟩ <;>
    rw [heq]
  · by_cases hc : c = c'
    · subst hc
      rw [if_pos rfl]
      cases ht : s.sessions[c]? with
      | none => rfl
      | some t => rw [map_some, erase_of_get_none (hnone t ht)]
    · rw [if_neg hc]
  · rw [get_insert]
    by_cases hc : c = c'
    · subst hc
      simp [ht]
    · simp [hc]

theorem sessions_addSubscription (c filter : Str) (sub : StoredSubscription) (c' : Str) :
    (s.addSubscription c filter sub).sessions[c']? =
      if c = c' then
        (s.sessions[c']?).map fun t => { t with subscriptions := t.subscriptions.insert filter sub }
      else s.sessions[c']? := by
  rw [addSubscription]
  cases ht : s.sessions[c]? with
  | none =>
    by_cases hc : c = c'
    · subst hc
      simp [ht]
    · simp [hc]
  | some t =>
    dsimp only
    split <;> refine (get_insert s.sessions c c' _).trans ?_
    all_goals
      by_cases hc : c = c'
      · subst hc
        simp [ht]
      · simp [hc]

theorem sameLedger_setSubscription (c filter : Str) (sub : Option StoredSubscription) :
    SameLedger s (s.setSubscription c filter sub) := by
  have hremove : SameLedger s (s.removeSubscription c filter) := by
    rcases s.removeSubscription_cases c filter with ⟨heq, -⟩ | ⟨_, _, _, -, heq⟩ <;> rw [heq]
    · exact .refl s
    · exact ⟨rfl, rfl, rfl, rfl⟩
  cases sub with
  | none => exact hremove
  | some sub =>
    refine hremove.trans ?_
    unfold setSubscription addSubscription
    dsimp only
    split
    · exact .refl _
    · split <;> exact ⟨rfl, rfl, rfl, rfl⟩

/-! ## Steps on one session -/

structure LocalTo (c : Str) (s s' : Store) : Prop where
  rest : SameRest s s'
  bodies : SameBodies s s'
  others : ∀ c', c ≠ c' → s'.sessions[c']? = s.sessions[c']?

namespace LocalTo

theorem refl (c : Str) (s : Store) : LocalTo c s s := ⟨.refl s, .refl s, fun _ _ => rfl⟩

theorem trans {c s₁ s₂ s₃} (h : LocalTo c s₁ s₂) (h' : LocalTo c s₂ s₃) : LocalTo c s₁ s₃ :=
  ⟨h.rest.trans h'.rest, h.bodies.trans h'.bodies,
    fun c' hc => (h'.others c' hc).trans (h.others c' hc)⟩

theorem foldl {α : Type} {c} {f : Store → α → Store} (h : ∀ s a, LocalTo c s (f s a)) :
    ∀ (as : List α) s, LocalTo c s (as.foldl f s)
  | [], s => .refl c s
  | a :: as, s => (h s a).trans (foldl h as (f s a))

end LocalTo

theorem localTo_put (c : Str) (t : Session) : LocalTo c s (s.put c t) :=
  ⟨{ SameRest.refl s with }, fun _ => rfl,
    fun c' hc => by rw [put, get_insert, if_neg hc]⟩

theorem localTo_modify (ref : SessionRef) (f : Session → Session) :
    LocalTo ref.client s (s.modify ref f) := by
  cases h : s.find ref with
  | none =>
    rw [modify_of_not_find h]
    exact .refl _ s
  | some t =>
    rw [modify_of_find h]
    exact localTo_put _ _

theorem localTo_removeSubscription (c filter : Str) :
    LocalTo c s (s.removeSubscription c filter) := by
  rcases s.removeSubscription_cases c filter with ⟨heq, -⟩ | ⟨t, index, count, -, heq⟩
  · rw [heq]
    exact .refl c s
  refine ⟨?_, ?_, fun c' hc => by rw [sessions_removeSubscription, if_neg hc]⟩ <;> rw [heq]
  · exact { SameRest.refl s with }
  · exact fun _ => rfl

theorem localTo_addSubscription (c filter : Str) (sub : StoredSubscription) :
    LocalTo c s (s.addSubscription c filter sub) := by
  refine ⟨?_, ?_, fun c' hc => by rw [sessions_addSubscription, if_neg hc]⟩
  all_goals
    rw [addSubscription]
    cases s.sessions[c]? with
    | none => exact .refl s
    | some t =>
      dsimp only
      split <;> first | exact { SameRest.refl s with } | exact fun _ =>
        rfl

theorem localTo_setSubscription (c filter : Str) (sub : Option StoredSubscription) :
    LocalTo c s (s.setSubscription c filter sub) := by
  have h := localTo_removeSubscription (s := s) c filter
  cases sub with
  | none => exact h
  | some sub => exact h.trans (localTo_addSubscription c filter sub)

theorem scheduleSession_of_get (ht : s.sessions[c]? = some t) (deadline : Int) :
    s.scheduleSession c deadline = { s with
        sessionExpiry :=
          let left :=
            if t.scheduledExpiry ≠ 0 then s.sessionExpiry.erase (t.scheduledExpiry, c)
            else s.sessionExpiry
          if deadline ≠ 0 then left.insert (deadline, c) t.object else left
        sessions := s.sessions.insert c { t with scheduledExpiry := deadline } } := by
  rw [scheduleSession, ht]

theorem localTo_scheduleSession (c : Str) (deadline : Int) :
    LocalTo c s (s.scheduleSession c deadline) := by
  cases ht : s.sessions[c]? with
  | none =>
    rw [scheduleSession, ht]
    exact .refl c s
  | some t =>
    rw [scheduleSession_of_get ht]
    exact ⟨{ SameRest.refl s with }, fun _ => rfl,
      fun c' hc => by rw [get_insert, if_neg hc]⟩

theorem sessions_scheduleSession (c : Str) (deadline : Int) (c' : Str) :
    (s.scheduleSession c deadline).sessions[c']? =
      if c = c' then (s.sessions[c']?).map fun t => { t with scheduledExpiry := deadline }
      else s.sessions[c']? := by
  by_cases hc : c = c'
  · subst hc
    rw [if_pos rfl]
    cases ht : s.sessions[c]? with
    | none =>
      rw [scheduleSession, ht]
      exact ht
    | some t => simp [scheduleSession_of_get ht]
  · rw [if_neg hc, (localTo_scheduleSession c deadline).others c' hc]

theorem sessions_scheduleMessage (r : Nat) : (s.scheduleMessage r).sessions = s.sessions := by
  rw [scheduleMessage]
  split <;> rfl

/-! ## Deliveries -/

def without (s : Store) (t : Session) (id : Nat) (d : DeliveryState) : Session :=
  { t with
    bytes := t.bytes - (s.messages d.message).wire.length
    packets := releasePacket t id d.packet
    pending := t.pending.erase id }

theorem drop_of_get {d} (ht : s.sessions[c]? = some t) (hd : t.pending[id]? = some d) :
    s.drop c id =
      let m := s.messages d.message
      let last := m.references - 1 = 0
      { s.setMessage d.message { m with references := m.references - 1 } with
        uniqueBytes := if last then s.uniqueBytes - m.wire.length else s.uniqueBytes
        messageExpiry := if last then s.messageExpiry.erase (m.expires, m.id) else s.messageExpiry
        bytes := s.bytes - m.wire.length
        pending := s.pending - 1
        sessions := s.sessions.insert c (s.without t id d) } := by
  rw [drop, ht]
  dsimp only
  rw [hd]
  rfl

theorem drop_of_none (h : (s.sessions[c]?).bind (fun t => t.pending[id]?) = none) :
    s.drop c id = s := by
  rw [drop]
  cases ht : s.sessions[c]? with
  | none => rfl
  | some t =>
    rw [ht, bind_some] at h
    simp only [h]

theorem drop_cases (s : Store) (c : Str) (id : Nat) :
    s.drop c id = s ∨ ∃ t d, s.sessions[c]? = some t ∧ t.pending[id]? = some d := by
  cases h : (s.sessions[c]?).bind (fun t => t.pending[id]?) with
  | none => exact .inl (drop_of_none h)
  | some d =>
    obtain ⟨t, ht, hd⟩ := bind_eq_some_iff.1 h
    exact .inr ⟨t, d, ht, hd⟩

theorem localTo_drop (c : Str) (id : Nat) : LocalTo c s (s.drop c id) := by
  rcases s.drop_cases c id with heq | ⟨t, d, ht, hd⟩
  · rw [heq]
    exact .refl c s
  rw [drop_of_get ht hd]
  refine ⟨{ SameRest.refl s with }, ?_, fun c' hc => by
    rw [get_insert, if_neg hc]⟩
  exact sameBodies_setMessage rfl

theorem sessions_drop_self (id : Nat) (ht : s.sessions[c]? = some t) :
    (s.drop c id).sessions[c]? = some ((t.pending[id]?).elim t (s.without t id)) := by
  cases hd : t.pending[id]? with
  | none =>
    rw [drop_of_none (by rw [ht]; exact hd), ht]
    rfl
  | some d => simp [drop_of_get ht hd]

/-! ## Erasing a session -/

theorem localTo_dropAll (c : Str) : LocalTo c s (s.dropAll c) := by
  rw [dropAll]
  cases s.sessions[c]? with
  | none => exact .refl c s
  | some t => exact LocalTo.foldl (fun s (e : Nat × DeliveryState) => localTo_drop c e.1) _ s

theorem localTo_unlinkSession (c : Str) : LocalTo c s (s.unlinkSession c) := by
  rw [unlinkSession]
  cases s.sessions[c]? with
  | none => exact .refl c s
  | some t =>
    have hfold : ∀ store : Store, LocalTo c store
        (t.subscriptions.toList.foldl (fun s e => s.setSubscription c e.1 none) store) :=
      LocalTo.foldl (fun s (e : Str × StoredSubscription) => localTo_setSubscription c e.1 none) _
    have hcount : ∀ n, LocalTo c s { s with isolatedSessions := n } := fun n =>
      ⟨{ SameRest.refl s with }, fun _ => rfl, fun _ _ => rfl⟩
    have hbytes : ∀ (store : Store) (n : Nat), LocalTo c store { store with metadataBytes := n } :=
      fun store n =>
        ⟨{ SameRest.refl store with }, fun _ => rfl, fun _ _ => rfl⟩
    refine LocalTo.trans ?_ (hbytes _ _)
    split
    · exact (hcount _).trans (hfold _)
    · exact hfold _

def emptied (s : Store) (c : Str) : Store :=
  let s := (s.dropAll c).scheduleSession c 0
  if s.indexing then s.unlinkSession c else s

theorem eraseSession_eq (c : Str) :
    s.eraseSession c = { s.emptied c with sessions := (s.emptied c).sessions.erase c } := rfl

theorem localTo_emptied (c : Str) : LocalTo c s (s.emptied c) := by
  have h := (localTo_dropAll (s := s) c).trans (localTo_scheduleSession c 0)
  rw [emptied]
  split
  · exact h.trans (localTo_unlinkSession c)
  · exact h

/-- The net effect of a long chain of steps. -/
theorem sessions_eraseSession (c : Str) : (s.eraseSession c).sessions = s.sessions.erase c := by
  refine ExtTreeMap.ext_getElem? fun c' => ?_
  rw [eraseSession_eq, get_erase, get_erase]
  by_cases hc : c = c'
  · rw [if_pos hc, if_pos hc]
  · rw [if_neg hc, if_neg hc, (localTo_emptied c).others c' hc]

theorem attach_of_get (ht : s.sessions[c]? = some t) (hid : t.pending[id]? = none)
    (r packet : Nat) :
    s.attach c id r packet = { s.reference r t.ref with
        bytes := s.bytes + (s.messages r).wire.length
        pending := s.pending + 1
        sessions := s.sessions.insert c
          { t with
            pending := t.pending.insert id { message := r, packet := packet }
            packets := if packet ≠ 0 then t.packets.insert packet id else t.packets
            nextPacket := if packet ≠ 0 then packet % 65535 + 1 else t.nextPacket
            bytes := t.bytes + (s.messages r).wire.length } } := by
  have hnot : t.pending.contains id = false := by
    rw [← ExtTreeMap.isSome_getElem?_eq_contains, hid]
    rfl
  rw [attach, ht]
  simp only [hnot, Bool.false_eq_true, if_false]

/-! ## The head of a session -/

def head (t : Session) : Session :=
  { t with
    scheduledExpiry := 0, nextPacket := 0, bytes := 0, pending := ∅, packets := ∅
    livePacketIds := ∅, recoveryAcks := [], recoveryClaims := ∅ }

def SameHeads (s s' : Store) : Prop :=
  ∀ c : Str, (s'.sessions[c]?).map head = (s.sessions[c]?).map head

namespace SameHeads

theorem refl (s : Store) : SameHeads s s := fun _ => rfl

theorem trans {s₁ s₂ s₃} (h : SameHeads s₁ s₂) (h' : SameHeads s₂ s₃) : SameHeads s₁ s₃ :=
  fun c => (h' c).trans (h c)

variable {s s' : Store}

theorem of_sessions (h : s'.sessions = s.sessions) : SameHeads s s' := fun c => by rw [h]

theorem get (h : SameHeads s s') {c : Str} {t} (ht : s.sessions[c]? = some t) :
    ∃ t', s'.sessions[c]? = some t' ∧ head t' = head t := by
  have := h c
  rw [ht, map_some] at this
  exact map_eq_some_iff.1 this

end SameHeads

theorem sameHeads_put {t'} (ht : s.sessions[c]? = some t) (h : head t' = head t) :
    SameHeads s (s.put c t') := by
  intro c'
  rw [put, get_insert]
  by_cases hc : c = c'
  · rw [if_pos hc, ← hc, ht, map_some, map_some, h]
  · rw [if_neg hc]

theorem sameHeads_drop (c : Str) (id : Nat) : SameHeads s (s.drop c id) := by
  rcases s.drop_cases c id with heq | ⟨t, d, ht, hd⟩
  · rw [heq]
    exact .refl s
  refine (sameHeads_put ht (show head (s.without t id d) = head t from rfl)).trans
    (.of_sessions ?_)
  rw [drop_of_get ht hd]
  rfl

theorem sameHeads_scheduleSession (c : Str) (deadline : Int) :
    SameHeads s (s.scheduleSession c deadline) := by
  intro c'
  rw [sessions_scheduleSession]
  split
  · rw [map_map]
    rfl
  · rfl

end Store

end Mqtts.Durable
