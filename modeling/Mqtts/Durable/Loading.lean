import Mqtts.Durable.Keeps
import Mqtts.Durable.Restore
import Mqtts.Lib.Runs

/-!
# The ledger of a store that is opened

`restore` starts from an empty store, loads the checkpoint, replays the records behind its cuts,
builds the indexes and checks the limits. Every phase keeps the ledger sound; the limits only hold
at the end, when `validate_state` has compared them.
-/

namespace Mqtts.Durable

open Std (ExtTreeMap ExtTreeSet)
open Option Maps Codec Runs

/-! ## What the decoder of a checkpoint accepts -/

theorem yields_checkpointMessage (cfg : Config) (nextId : Nat) :
    Yields (readCheckpointMessage cfg nextId) (fun m => m.id ≤ nextId) := by
  refine (yields_any _).bind fun id _ => (yields_any _).bind fun partition _ => ?_
  refine yields_refuse.bind fun _ hid => ?_
  refine (yields_any _).bind fun expires _ => (yields_any _).bind fun wire _ => yields_pure ?_
  simp only [not_or, not_lt] at hid
  exact hid.2.2

theorem decodeCheckpoint_ids {cfg data c}
    (h : decodeCheckpoint cfg data = .ok c) : ∀ m ∈ c.messages, m.id ≤ c.nextId := by
  refine Yields.run (d := _) (P := fun c : Checkpoint => ∀ m ∈ c.messages, m.id ≤ c.nextId) ?_ h
  refine (yields_any _).bind fun magic _ => ?_
  cases checkpointVersion magic with
  | none => exact yields_fail
  | some version =>
    refine (yields_any _).bind fun partitions _ => (yields_any _).bind fun _ _ => ?_
    refine (yields_any _).bind fun nextId _ => (yields_any _).bind fun cuts _ => ?_
    refine (yields_any _).bind fun messageCount _ => (yields_any _).bind fun _ _ => ?_
    refine (yields_times (yields_checkpointMessage cfg nextId) _).bind fun messages hmessages => ?_
    refine (yields_any _).bind fun sessionCount _ => (yields_any _).bind fun _ _ => ?_
    refine (yields_any _).bind fun sessions _ => (yields_any _).bind fun _ _ => yields_pure ?_
    exact hmessages.2

namespace Store

variable {cfg : Config} {now : Int} {s s' : Store}

theorem sound_empty : Sound {} := by
  have hnone : ∀ c : Str, ({} : Store).sessions[c]? = none := fun c => by simp
  have hload : ∀ f : Nat → Nat, ({} : Store).load f = 0 := fun f => mapSum_empty _
  refine ⟨fun c t ht => ?_, fun {c id r} hr => ?_, fun r => le_rfl, ?_, ?_, fun {c t} ht => ?_,
    fun r => (hload _).symm, rfl⟩
  · rw [hnone] at ht
    cases ht
  · rw [hnone] at hr
    simp [account] at hr
  · rw [pending_eq_load, hload]
  · exact (mapSum_empty _).symm
  · rw [hnone] at ht
    cases ht

variable {c : Str} {t : Session} {start : Store}

theorem sound_put (h : s.Sound) {t'} (ht : s.sessions[c]? = some t)
    (haccount : account (some t') = account (some t)) (hclient : t'.client = t.client) :
    (s.put c t').Sound :=
  (still_put (haccount.trans (congrArg account ht.symm))
    fun hkeyed => hclient.trans (hkeyed c t ht)).sound h

open Still

theorem sound_join (h : s.Sound) (hnone : s.sessions[c]? = none) (hbytes : t.bytes = 0)
    (hpending : t.pending = ∅) (hclient : t.client = c) :
    ({ s.put c t with objects := s.objects + 1 } : Store).Sound := by
  have hput : (s.put c t).Sound := by
    refine (still_put ?_ fun _ => hclient).sound h
    rw [hnone]
    exact Prod.ext hbytes (ExtTreeMap.ext_getElem? fun id => by simp [account, hpending])
  exact (numbers le_rfl (Nat.le_succ _)).sound hput

/-! ## Deliveries -/

theorem sound_restoreDelivery (h : s.Sound) {id r} (ht : s.sessions[c]? = some t)
    (hid : t.pending[id]? = none) (hr : r < s.objects) (hm : (s.messages r).id = id) (packet : Nat)
    : (s.restoreDelivery c t id r packet).Sound := by
  have hmore : OneMore s (s.restoreDelivery c t id r packet) c id r :=
    oneMore_insert (d := { message := r, packet := packet, attempted := packet ≠ 0
                           started := packet ≠ 0 }) ht hid hr hm rfl rfl rfl rfl
  exact hmore.sound_iff.2 h

theorem id_reference (r : Nat) (ref : SessionRef) (r' : Nat) :
    ((s.reference r ref).messages r').id = (s.messages r').id := by
  by_cases hr : r' = r
  · subst hr
    simp only [reference, setMessage, Function.update_self]
  · simp only [reference, setMessage, Function.update_of_ne hr]

/-! ## The checkpoint -/

def Referenced (s : Store) (referenced : ExtTreeMap Nat Nat) : Prop :=
  ∀ id r, referenced[id]? = some r → r < s.objects ∧ (s.messages r).id = id

theorem loadMessage_sound {n acc acc'}
    (h : acc.1.Sound ∧ acc.1.Referenced acc.2 ∧ acc.1.nextId = n) {m}
    (hid : m.id ≤ n) (hload : loadMessage acc m = .ok acc') :
    acc'.1.Sound ∧ acc'.1.Referenced acc'.2 ∧ acc'.1.nextId = n := by
  obtain ⟨hs, hreferenced, rfl⟩ := h
  unfold loadMessage at hload
  dsimp only at hload
  split at hload <;> cases hload
  refine ⟨(still_draft le_rfl rfl hid).sound hs, fun id r hget => ?_, rfl⟩
  dsimp only at hget ⊢
  rw [get_insert] at hget
  split at hget
  · next hsame =>
      cases hget
      simp [setMessage, hsame]
  · obtain ⟨hr, hm⟩ := hreferenced id r hget
    have hne : r ≠ acc.1.objects := by omega
    simp only [setMessage, Function.update_of_ne hne]
    exact ⟨by omega, hm⟩

theorem loadDelivery_sound {referenced delivery} (h : s.Sound ∧ s.Referenced referenced)
    (hload : loadDelivery referenced c s delivery = .ok s') :
    s'.Sound ∧ s'.Referenced referenced := by
  unfold loadDelivery at hload
  split at hload
  · next r t hr ht =>
      split_ifs at hload with hnot
      cases hload
      obtain ⟨hlt, hm⟩ := h.2 _ _ hr
      refine ⟨sound_restoreDelivery h.1 ht (get_of_not_contains hnot) hlt hm delivery.2,
        fun id r' hget => ?_⟩
      obtain ⟨hlt', hm'⟩ := h.2 id r' hget
      exact ⟨hlt', (id_reference r t.ref r').trans hm'⟩
  · cases hload

theorem loadSession_sound {referenced c}
    (h : s.Sound ∧ s.Referenced referenced) (hload : loadSession referenced s c = .ok s') :
    s'.Sound ∧ s'.Referenced referenced := by
  unfold loadSession at hload
  split_ifs at hload with hnot
  have hjoin := sound_join h.1 (t := storedSession s.objects c) (get_of_not_contains hnot)
    rfl rfl rfl
  refine foldlM_invariant (I := fun s => s.Sound ∧ s.Referenced referenced)
    (fun _ h hstep => loadDelivery_sound h hstep) ⟨hjoin, fun id r hget => ?_⟩ hload
  obtain ⟨hr, hm⟩ := h.2 id r hget
  exact ⟨Nat.lt_succ_of_lt hr, hm⟩

theorem openCheckpoint_sound {file cuts}
    (h : openCheckpoint cfg file = .ok (s, cuts)) : s.Sound := by
  unfold openCheckpoint at h
  split at h
  · cases h
    exact sound_empty
  · split_ifs at h
    obtain ⟨body, -, h⟩ := exists_of_bind_ok h
    obtain ⟨c, hdecode, h⟩ := exists_of_bind_ok h
    obtain ⟨s₁, hload, h⟩ := exists_of_bind_ok h
    cases h
    unfold loadCheckpoint at hload
    obtain ⟨⟨s₂, referenced⟩, hmessages, hsessions⟩ := exists_of_bind_ok hload
    have hstart : Sound { nextId := c.nextId } :=
      (numbers (Nat.zero_le _) le_rfl).sound sound_empty
    have hempty : Referenced { nextId := c.nextId } ∅ := fun id r hget => by simp at hget
    obtain ⟨hs₂, hreferenced, -⟩ := foldlM_invariant
      (I := fun acc : Store × ExtTreeMap Nat Nat =>
        acc.1.Sound ∧ acc.1.Referenced acc.2 ∧ acc.1.nextId = c.nextId)
      (fun hm h hstep => loadMessage_sound h (decodeCheckpoint_ids hdecode _ hm) hstep)
      ⟨hstart, hempty, rfl⟩ hmessages
    exact (foldlM_invariant (I := fun s => s.Sound ∧ s.Referenced referenced)
      (fun _ h hstep => loadSession_sound h hstep) ⟨hs₂, hreferenced⟩ hsessions).1

/-! ## Control records -/

theorem named_eq_some {generation} (h : s.named c generation = some t) : s.sessions[c]? = some t :=
  (filter_eq_some_iff.1 h).1

section

variable (h : s.Sound)
include h

theorem sound_eraseSession (c : Str) : (s.eraseSession c).Sound := by
  have hkeeps : Keeps {} [c] s (s.eraseSession c) := keeps_eraseSession c
  exact hkeeps.sound h

theorem sound_drop (c : Str) (id : Nat) : (s.drop c id).Sound := by
  have hkeeps : Keeps {} [] s (s.drop c id) := keeps_drop c id
  exact hkeeps.sound h

theorem replayConnect_sound (client owner : Str) (generation epoch expiry : Nat)
    (deadline : Int) (clean : Bool) :
    (s.replayConnect client owner generation epoch expiry deadline clean).Sound := by
  unfold replayConnect
  have hnumber : Sound { s with nextId := max s.nextId (max generation epoch) } :=
    (numbers (le_max_left _ _) le_rfl).sound h
  generalize hstart : ({ s with nextId := max s.nextId (max generation epoch) } : Store) = s₁
    at hnumber
  dsimp only
  cases hkept : (s₁.sessions[client]?).filter (fun t => !clean && t.generation == generation) with
  | some t =>
    have ht : s₁.sessions[client]? = some t := (filter_eq_some_iff.1 hkept).1
    simp only [isNone_some, Bool.false_eq_true, and_false, if_false, getD_some,
      isSome_some, if_true]
    split
    · exact hnumber
    · exact sound_put hnumber ht rfl (hnumber.keyed client t ht).symm
  | none =>
    simp only [isNone_none, and_true, getD_none, isSome_none]
    obtain ⟨s₂, hs₂, hsound, hnone⟩ : ∃ s₂,
        (if (s₁.sessions[client]?).isSome then s₁.eraseSession client else s₁) = s₂ ∧
        s₂.Sound ∧ s₂.sessions[client]? = none := by
      split
      · exact ⟨_, rfl, sound_eraseSession hnumber client, by
          rw [sessions_eraseSession, get_erase, if_pos rfl]⟩
      · next hfound => exact ⟨_, rfl, hnumber, by simpa using hfound⟩
    rw [hs₂]
    split
    · exact hsound
    · exact sound_join hsound hnone rfl rfl rfl

theorem replayDisconnect_sound (client : Str) (generation epoch expiry : Nat)
    (deadline : Int) : (s.replayDisconnect client generation epoch expiry deadline).Sound := by
  unfold replayDisconnect
  cases hnamed : (s.named client generation).filter (fun t => t.epoch == epoch) with
  | none => exact h
  | some t =>
    have ht := named_eq_some (filter_eq_some_iff.1 hnamed).1
    have hput : (s.put client
        { t with expiry := expiry, deadline := deadline, online := false }).Sound :=
      sound_put h ht rfl rfl
    dsimp only
    split
    · exact sound_eraseSession hput client
    · exact hput

theorem replayAck_sound {client generation id packet}
    (hack : s.replayAck client generation id packet = .ok s') : s'.Sound := by
  unfold replayAck at hack
  split at hack
  · cases hack
    exact h
  · next t hnamed =>
      have ht := named_eq_some hnamed
      split at hack
      · split at hack <;> cases hack
        have hput : (s.put client { t with recoveryClaims := t.recoveryClaims.erase id }).Sound :=
          sound_put h ht rfl rfl
        exact sound_drop hput client id
      · cases hack
        exact sound_put h ht rfl rfl

theorem replayClaim_sound (client : Str) (generation : Nat) (claim : Nat × Nat) :
    (s.replayClaim client generation claim).Sound := by
  unfold replayClaim
  cases hnamed : s.named client generation with
  | none => exact h
  | some t =>
    have ht := named_eq_some hnamed
    dsimp only
    cases hd : t.pending[claim.1]? with
    | none => exact sound_put h ht rfl rfl
    | some d => exact sound_put h ht (account_insert hd rfl) rfl

theorem replayHeartbeat_sound (e : HeartbeatEntry) : (s.replayHeartbeat e).Sound := by
  unfold replayHeartbeat
  cases hnamed : s.named e.client e.generation with
  | none => exact h
  | some t =>
    dsimp only
    split
    · exact sound_put h (named_eq_some hnamed) rfl rfl
    · exact h

theorem replayControl_sound {record} (hreplay : s.replayControl record = .ok s') : s'.Sound := by
  have hsubs : ∀ (client : Str) (generation : Nat)
    (f : Session → ExtTreeMap Str StoredSubscription),
      ((s.named client generation).elim s fun t =>
        s.put client { t with subscriptions := f t }).Sound := by
    intro client generation f
    cases hnamed : s.named client generation with
    | none => exact h
    | some t => exact sound_put h (named_eq_some hnamed) rfl rfl
  cases record with
  | connect client owner generation epoch expiry deadline clean =>
    simp only [replayControl] at hreplay
    split at hreplay <;> cases hreplay
    exact replayConnect_sound h client owner generation epoch expiry deadline clean
  | disconnect client generation epoch expiry deadline =>
    cases hreplay
    exact replayDisconnect_sound h client generation epoch expiry deadline
  | subscribe client generation filter sub =>
    cases hreplay
    exact hsubs client generation fun t => t.subscriptions.insert filter sub
  | unsubscribe client generation filter =>
    cases hreplay
    exact hsubs client generation fun t => t.subscriptions.erase filter
  | ack client generation id packet => exact replayAck_sound h hreplay
  | claim client generation claims =>
    cases hreplay
    exact foldl_invariant (I := Sound)
      (fun _ claim h => replayClaim_sound h client generation claim) claims h
  | heartbeat entries =>
    cases hreplay
    exact foldl_invariant (I := Sound) (fun _ e h => replayHeartbeat_sound h e) entries h

theorem replayStates_sound {acknowledgements log}
    (hreplay : s.replayStates acknowledgements log = .ok s') : s'.Sound := by
  refine foldlM_invariant (fun _ h hstep => ?_) h hreplay
  obtain ⟨record, -, hstep⟩ := exists_of_bind_ok hstep
  cases record with
  | none =>
    cases hstep
    exact h
  | some record => exact replayControl_sound h hstep

/-! ## Expiry and what the replay leaves -/

theorem expireStartup_sound (now : Int) : (s.expireStartup now).Sound := by
  refine foldl_invariant (fun s c h => ?_) s.sessions.keys h
  unfold expireStartupSession
  cases ht : s.sessions[c]? with
  | none => exact h
  | some t =>
    have hput : (s.put c { t with online := false }).Sound := sound_put h ht rfl rfl
    dsimp only
    split
    · exact sound_eraseSession hput c
    refine foldl_invariant (fun s e h => ?_) _ hput
    unfold dropExpired
    dsimp only
    split
    · exact sound_drop h c e.1
    · exact h

theorem clearRecovery_sound : s.clearRecovery.Sound := by
  have hget : ∀ c : Str, s.clearRecovery.sessions[c]? =
      (s.sessions[c]?).map fun t => { t with recoveryAcks := [], recoveryClaims := ∅ } := by
    intro c
    rw [clearRecovery, ExtTreeMap.getElem?_map]
  have hstill : Still s s.clearRecovery := by
    refine { refl s with accounts := fun c => ?_, keyed := fun hkeyed c t ht => ?_ }
    · rw [hget]
      cases s.sessions[c]? <;> rfl
    · rw [hget] at ht
      obtain ⟨t₀, ht₀, rfl⟩ := map_eq_some_iff.1 ht
      exact hkeyed c t₀ ht₀
  exact hstill.sound h

end

/-! ## Message records -/

theorem replayRecipient_sound {r recipient} (h : s.Sound ∧ r < s.objects)
    (hreplay : replayRecipient now r s recipient = .ok s') : s'.Sound ∧ r < s'.objects := by
  unfold replayRecipient at hreplay
  split at hreplay
  · cases hreplay
    exact h
  · next t hnamed =>
      dsimp only at hreplay
      split at hreplay
      · cases hreplay
        exact h
      · split at hreplay
        · cases hreplay
          exact h
        · split_ifs at hreplay with hnot
          cases hreplay
          exact ⟨sound_restoreDelivery h.1 (named_eq_some hnamed) (get_of_not_contains hnot)
            h.2 rfl _, h.2⟩

theorem replayMessage_sound (h : s.Sound) {partition record}
    (hreplay : s.replayMessage now partition record = .ok s') : s'.Sound := by
  unfold replayMessage at hreplay
  obtain ⟨s₁, hrecipients, hlast⟩ := exists_of_bind_ok hreplay
  cases hlast
  have hdraft : Sound { s.setMessage s.objects
      { id := record.id, expires := record.expires, partition := partition, wire := record.wire
        committed := true } with
      nextId := max s.nextId record.id
      objects := s.objects + 1 } :=
    (still_draft (le_max_left _ _) rfl (le_max_right _ _)).sound h
  have hall := foldlM_invariant (I := fun s₁ => s₁.Sound ∧ s.objects < s₁.objects)
    (fun _ h hstep => replayRecipient_sound h hstep) ⟨hdraft, Nat.lt_succ_self _⟩ hrecipients
  refine foldl_invariant (fun s₁ gap h => ?_) record.gaps hall.1
  unfold replayGap
  cases s₁.named gap.1 gap.2 with
  | none => exact h
  | some t =>
    have hkeeps : Keeps {} [] s₁ (s₁.markOverflow ⟨gap.1, t.object⟩ record.id) :=
      keeps_markOverflow _ _
    exact hkeeps.sound h

theorem replayLogs_sound (h : s.Sound) {states messages}
    (hreplay : s.replayLogs cfg now states messages = .ok s') : s'.Sound := by
  unfold replayLogs at hreplay
  obtain ⟨s₁, h₁, hreplay⟩ := exists_of_bind_ok hreplay
  obtain ⟨s₂, h₂, hreplay⟩ := exists_of_bind_ok hreplay
  obtain ⟨s₃, h₃, hreplay⟩ := exists_of_bind_ok hreplay
  cases hreplay
  have hfirst : s₁.Sound := foldlM_invariant (fun _ h hstep => replayStates_sound h hstep) h h₁
  have hsecond : s₂.Sound := foldlM_invariant (fun _ h hstep => replayStates_sound h hstep)
    (expireStartup_sound hfirst now) h₂
  have hthird : s₃.Sound := by
    refine foldlM_invariant (fun _ h hstep => ?_) hsecond h₃
    refine foldlM_invariant (fun _ h hstep => ?_) h hstep
    obtain ⟨record, -, hstep⟩ := exists_of_bind_ok hstep
    exact replayMessage_sound h hstep
  exact expireStartup_sound (clearRecovery_sound hthird) now

/-! ## Indexes and the last check -/

structure Alike (start s : Store) : Prop where
  sound : s.Sound
  accounts : ∀ c : Str, account (s.sessions[c]?) = account (start.sessions[c]?)

theorem Alike.keeps (h : Alike start s) (hkeeps : Keeps {} [] s s')
    (haccounts : ∀ c : Str, account (s'.sessions[c]?) = account (s.sessions[c]?)) :
    Alike start s' :=
  ⟨hkeeps.sound h.sound, fun c => (haccounts c).trans (h.accounts c)⟩

theorem Alike.put (h : Alike start s) (hstart : start.Sound) {t'}
    (ht : start.sessions[c]? = some t) (haccount : account (some t') = account (some t))
    (hclient : t'.client = t.client) : Alike start (s.put c t') := by
  have hstill : Still s (s.put c t') :=
    still_put (by rw [haccount, h.accounts, ht]) fun _ => hclient.trans (hstart.keyed c t ht)
  exact ⟨hstill.sound h.sound, fun c' => (hstill.accounts c').trans (h.accounts c')⟩

theorem Alike.bounded (h : Alike start s) (hstart : start.Sound) (hb : start.Bounded cfg) :
    s.Bounded cfg := by
  have hpending : s.pending = start.pending := by
    rw [h.sound.exact.pending, hstart.exact.pending, pending_eq_load, pending_eq_load,
      load_of_accounts h.accounts]
  have hbytes : s.bytes = start.bytes := by
    rw [h.sound.exact.bytes, hstart.exact.bytes, bytes_of_accounts h.accounts]
  rw [bounded_iff] at hb ⊢
  simp only [hpending, hbytes, h.accounts]
  exact hb

theorem rebuildSession_alike (hstart : start.Sound) (h : Alike start s)
    (ht : start.sessions[c]? = some t) : Alike start (s.rebuildSession c t) := by
  rw [rebuildSession]
  have hput : Alike start (s.put c { t with scheduledExpiry := 0 }) := h.put hstart ht rfl rfl
  refine foldl_invariant (fun s d h => ?_) t.pending.toList ?_
  · refine h.keeps (keeps_scheduleMessage _) fun c' => ?_
    rw [scheduleMessage]
    split <;> rfl
  · have hsubs : ∀ {s₁ : Store}, Alike start s₁ → Alike start
        (t.subscriptions.toList.foldl (fun s sub =>
          let s := { s with metadataBytes := s.metadataBytes + subscriptionCost sub.1 }
          if sub.2.qos ≠ 0 then
            { s.addIndex c t.object sub.1 with subscriptions := s.subscriptions + 1 }
          else s) s₁) := by
      refine fun h => foldl_invariant (fun s₁ sub h => ?_) _ h
      split <;> exact h.keeps (.of_same { refl s₁ with } rfl) fun _ => rfl
    have hcount : Alike start { s with
        isolatedSessions :=
          if t.overflowSequence ≠ 0 then s.isolatedSessions + 1 else s.isolatedSessions
        metadataBytes := s.metadataBytes + sessionCost t.client t.owner
        sessions := s.sessions.insert c { t with scheduledExpiry := 0 } } :=
      hput.keeps (.of_same { refl _ with } rfl) fun _ => rfl
    have hlisted := hsubs hcount
    dsimp only at hlisted ⊢
    generalize t.subscriptions.toList.foldl _ _ = s₁ at hlisted ⊢
    split
    · exact hlisted
    refine hlisted.keeps (keeps_scheduleSession c _) fun c' => ?_
    rw [sessions_scheduleSession]
    split
    · cases s₁.sessions[c']? <;> rfl
    · rfl

theorem rebuildIndexes_sound (h : s.Sound) : s.rebuildIndexes.Sound := by
  have hclear : Still s { s with
      metadataBytes := 0, index := {}, messageExpiry := ∅, sessionExpiry := ∅
      isolatedSessions := 0, subscriptions := 0 } := { refl s with }
  have hall : ∀ (entries : List (Str × Session)) {s₁ : Store},
      (∀ e ∈ entries, s.sessions[e.1]? = some e.2) → Alike s s₁ →
        Alike s (entries.foldl (fun s e => s.rebuildSession e.1 e.2) s₁) := by
    intro entries
    induction entries with
    | nil => exact fun _ h₁ => h₁
    | cons e rest ih =>
      intro s₁ hget h₁
      exact ih (fun e' he' => hget e' (List.mem_cons_of_mem _ he'))
        (rebuildSession_alike h h₁ (hget e List.mem_cons_self))
  have hsessions := hall s.sessions.toList
    (fun e he => ExtTreeMap.mem_toList_iff_getElem?_eq_some.1 he) ⟨hclear.sound h, fun _ => rfl⟩
  rw [rebuildIndexes]
  generalize s.sessions.toList.foldl _ _ = s₁ at hsessions
  have hindexing : Still s₁ { s₁ with indexing := true } := { refl s₁ with }
  exact hindexing.sound hsessions.sound

theorem validateState_sound (h : s.Sound) (hvalid : s.validateState cfg = .ok s') :
    s'.Sound ∧ s'.Bounded cfg := by
  have hget : ∀ e ∈ s.sessions.toList, s.sessions[e.1]? = some e.2 :=
    fun e he => ExtTreeMap.mem_toList_iff_getElem?_eq_some.1 he
  unfold validateState at hvalid
  split at hvalid
  · cases hvalid
  split_ifs at hvalid with hlimits
  simp only [not_or, not_lt] at hlimits
  have hsteps : ∀ {s₁ : Store} {e : Str × Session} {s₂ : Store},
      validateSession cfg s₁ e = .ok s₂ → SessionBounded cfg e.2 ∧
        ∃ packets, s₂ = s₁.put e.1 { e.2 with packets := packets } := by
    intro s₁ e s₂ hstep
    unfold validateSession at hstep
    dsimp only at hstep
    split_ifs at hstep with hok
    obtain ⟨packets, -, hlast⟩ := exists_of_bind_ok hstep
    cases hlast
    simp only [not_or, not_lt] at hok
    exact ⟨⟨hok.2.2.2.1, hok.2.2.2.2⟩, packets, rfl⟩
  have halike : Alike s s' := by
    refine foldlM_invariant (I := Alike s) (fun {s₁ e s₂} he h₁ hstep => ?_)
      ⟨h, fun _ => rfl⟩ hvalid
    obtain ⟨-, packets, rfl⟩ := hsteps hstep
    exact h₁.put h (hget e he) rfl rfl
  have hbounded : s.Bounded cfg := by
    refine ⟨hlimits.2.1, hlimits.2.2, fun {c t} ht => ?_⟩
    exact foldlM_forall (P := fun e : Str × Session => SessionBounded cfg e.2)
      (fun _ _ _ hstep => (hsteps hstep).1) hvalid (c, t)
      (ExtTreeMap.mem_toList_iff_getElem?_eq_some.2 ht)
  exact ⟨halike.sound, halike.bounded h hbounded⟩

/-- Every store that is opened counts what it holds, within the limits. -/
theorem restore_sound {files cuts retainCut}
    (h : restore cfg now files = .ok (s, cuts, retainCut)) : s.Sound ∧ s.Bounded cfg := by
  unfold restore at h
  obtain ⟨⟨s₁, cuts₁⟩, h₁, h⟩ := exists_of_bind_ok h
  obtain ⟨states, -, h⟩ := exists_of_bind_ok h
  obtain ⟨messages, -, h⟩ := exists_of_bind_ok h
  obtain ⟨s₂, h₂, h⟩ := exists_of_bind_ok h
  obtain ⟨⟨retainCut₁, retain⟩, -, h⟩ := exists_of_bind_ok h
  obtain ⟨s₃, h₃, h⟩ := exists_of_bind_ok h
  cases h
  have hbuilt := rebuildIndexes_sound (replayLogs_sound (openCheckpoint_sound h₁) h₂)
  have hretain : Still s₂.rebuildIndexes { s₂.rebuildIndexes with retain := retain } :=
    { refl _ with }
  exact validateState_sound (hretain.sound hbuilt) h₃

end Store

end Mqtts.Durable
