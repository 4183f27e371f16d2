import Mqtts.Durable.Calls

/-!
# Callbacks and heartbeats

What the store does when a log reports the outcome of a record keeps the ledger, whatever the
callback is, but for a connection: it puts its session under the name of the client, and must not
find another one there.
-/

namespace Mqtts.Durable

open Std (ExtTreeMap ExtTreeSet)
open List Maps

namespace Store

variable {cfg : Config} {now : Int} {s : Store}

theorem keeps_installSession {client owner object generation epoch expiry deadline}
    (h : s.sessions[client]? = none ∨ ∃ t, s.sessions[client]? = some t ∧ t.object = object) :
    Keeps cfg [client] s
      (s.installSession client owner object generation epoch expiry deadline) := by
  refine Keeps.trans ?_ (keeps_scheduleSession client 0)
  rcases h with hnone | ⟨t, ht, hobject⟩
  · have hfind : s.find ⟨client, object⟩ = none := by rw [find, hnone]; rfl
    have hblank : account (some { object := object, client := client, owner := owner }) =
        account none := account_blank
    rw [hfind]
    exact keeps_join hnone (by exact hblank) rfl
  · rw [find_eq_some.2 ⟨ht, hobject⟩, Option.getD_some]
    refine .of_still (fun _ => still_put (by rw [ht]; rfl) fun _ => rfl) fun c' hc' =>
      grip_put (.inl mem_cons_self) hc'

theorem keeps_connectCommitted {client owner old object generation epoch expiry deadline clean}
    (h : (old.isSome && clean) = false → ∃ t, s.sessions[client]? = some t ∧ t.object = object) :
    Keeps cfg [client] s
      (s.connectCommitted client owner old object generation epoch expiry deadline clean).2 := by
  rw [connectCommitted]
  cases hreplaced : old.isSome && clean with
  | true =>
    have herase : Keeps cfg [client] s (s.eraseSession client) := keeps_eraseSession client
    split
    · exact herase
    · refine (herase.trans (keeps_installSession (.inl ?_))).trans
        (.of_same { Still.refl _ with } rfl)
      rw [sessions_eraseSession, get_erase, if_pos rfl]
  | false =>
    split
    · exact .refl s
    · exact keeps_installSession (.inr (h hreplaced))

theorem keeps_disconnectCommitted (ref : SessionRef) (expiry : Nat) (deadline : Int) :
    Keeps cfg [ref.client] s (s.disconnectCommitted ref expiry deadline) := by
  rw [disconnectCommitted]
  cases hfind : s.find ref with
  | none => exact .refl s
  | some t =>
    have hput : Keeps cfg [ref.client] s (s.put ref.client
        { t with online := false, livePacketIds := ∅, expiry := expiry, deadline := deadline }) :=
      keeps_put (find_eq_some.1 hfind).1 rfl rfl (.inr rfl)
    dsimp only
    split
    · exact hput.trans (keeps_eraseSession _)
    · exact hput.trans (keeps_scheduleSession _ _)

theorem keeps_messageCommitted (object : Nat) (overflows : List SessionRef) (skipped : Nat) :
    Keeps cfg [] s (s.messageCommitted object overflows skipped) := by
  refine Keeps.trans ?_ (keeps_scheduleMessage object)
  have hmark : Keeps cfg [] s
      (overflows.foldl (fun s ref => s.markOverflow ref (s.messages object).id) s) :=
    .foldl (fun _ ref => keeps_markOverflow ref _) overflows s
  generalize overflows.foldl _ s = s₁ at hmark
  have hskip : Keeps cfg [] s₁ { s₁ with overflowSkipped := s₁.overflowSkipped + skipped } :=
    .of_same { Still.refl s₁ with } rfl
  exact (hmark.trans hskip).trans (.of_same (still_setMessage rfl) rfl)

theorem keeps_claimCommitted (ref : SessionRef) (claims : List (Nat × Nat)) (sequences : List Nat) :
    Keeps cfg [] s (s.claimCommitted ref claims sequences) := by
  refine Keeps.trans (.foldl (fun s claim => ?_) claims s) (keeps_markAttempted ref sequences)
  exact keeps_modifyDelivery ref claim.1 fun _ => rfl

theorem keeps_heartbeatCommitted (live : List (SessionRef × Nat × Int)) :
    Keeps cfg [] s (s.heartbeatCommitted live) := by
  refine .foldl (fun s e => ?_) live s
  refine keeps_modify e.1 (fun t => ?_) (fun t => ?_) (.inr fun t => ?_) <;> split <;> rfl

theorem keeps_releaseAll {own} : ∀ (refs : List SessionRef) s,
    (∀ ref ∈ refs, ref.client ∈ own) → Keeps cfg own s (refs.foldl notBusy s)
  | [], s, _ => .refl s
  | ref :: refs, _, h =>
    (keeps_notBusy ref (h ref mem_cons_self)).trans
      (keeps_releaseAll refs _ fun ref' hmem => h ref' (mem_cons_of_mem _ hmem))

theorem Holding.notBusy {ref} (h : s.Holding ref) :
    ∃ t, (s.notBusy ref).sessions[ref.client]? = some t ∧ t.object = ref.object := by
  obtain ⟨t, ht, hgrip⟩ := Option.map_eq_some_iff.1 h
  have hobject : t.object = ref.object := congrArg Prod.fst hgrip
  refine ⟨{ t with busy := false }, ?_, hobject⟩
  rw [Store.notBusy, sessions_modify, if_pos rfl, ht, Option.map_some, if_pos hobject]

theorem keeps_applyCallback {reply ok callback} (hfit : callback.Fit)
    (hholding : ∀ ref ∈ callback.holds, s.Holding ref) :
    Keeps cfg (callback.holds.map (·.client)) s (s.applyCallback now reply ok callback).2 := by
  have hsub : ∀ {ref : SessionRef} {filter : Str} {sub : Option StoredSubscription} (s : Store),
      Keeps cfg [ref.client] s
        ((s.find ref).elim s fun _ => s.setSubscription ref.client filter sub) := by
    intro ref filter sub s
    cases s.find ref with
    | none => exact .refl s
    | some t => exact keeps_setSubscription _ _ _
  have hown : ∀ ref : SessionRef, Keeps cfg [ref.client] s (s.notBusy ref) := fun ref =>
    keeps_notBusy ref mem_cons_self
  cases callback with
  | connect client owner old object generation epoch expiry deadline clean =>
    have hhold : s.Holding ⟨client, old.getD object⟩ := hholding _ mem_cons_self
    obtain ⟨s₁, hs₁, hkeeps, hget⟩ : ∃ s₁,
        (old.map fun object => (⟨client, object⟩ : SessionRef)).elim s s.notBusy = s₁ ∧
        Keeps cfg [client] s s₁ ∧
        ∃ t, s₁.sessions[client]? = some t ∧ t.object = old.getD object := by
      cases old with
      | none =>
        obtain ⟨t, ht, hgrip⟩ := Option.map_eq_some_iff.1 hhold
        exact ⟨s, rfl, .refl s, t, ht, congrArg Prod.fst hgrip⟩
      | some o => exact ⟨_, rfl, hown ⟨client, o⟩, hhold.notBusy⟩
    rw [applyCallback, hs₁]
    split
    · refine hkeeps.trans (keeps_connectCommitted fun hreplaced => ?_)
      rw [hfit hreplaced] at hget
      exact hget
    · exact hkeeps
  | disconnect ref expiry deadline =>
    rw [applyCallback]
    split
    · exact (hown ref).trans (keeps_disconnectCommitted ref expiry deadline)
    · exact hown ref
  | subscribe ref filter sub reservation =>
    have hreserve : Keeps cfg [ref.client] s
        { s.notBusy ref with metadataReserved := s.metadataReserved - reservation } :=
      (hown ref).trans (.of_same { Still.refl _ with } rfl)
    rw [applyCallback]
    split
    · exact hreserve.trans (hsub _)
    · exact hreserve
  | unsubscribe ref filter =>
    rw [applyCallback]
    split
    · exact (hown ref).trans (hsub _)
    · exact hown ref
  | message object overflows skipped =>
    have hbusy : Keeps cfg (overflows.map (·.client)) s (overflows.foldl notBusy s) :=
      keeps_releaseAll overflows s fun _ hmem => mem_map_of_mem hmem
    rw [applyCallback]
    split
    · exact hbusy.trans (keeps_messageCommitted object overflows skipped).wide
    · exact hbusy
  | claim ref epoch claims =>
    rw [applyCallback]
    split
    · have hclaims : Keeps cfg [] s _ :=
        keeps_claimCommitted ref claims (reply.deliveries.map (·.sequence))
      dsimp only
      split
      · exact hclaims.trans (.of_same { Still.refl _ with } rfl)
      · exact hclaims
    · exact .refl s
  | ack ref id =>
    rw [applyCallback]
    split
    · cases s.find ref with
      | none => exact .refl s
      | some t => exact keeps_drop _ _
    · exact .refl s
  | heartbeat live =>
    rw [applyCallback]
    split
    · exact keeps_heartbeatCommitted live
    · exact .refl s
  | retained mutation => exact .of_same { Still.refl s with } rfl

/-- `Fit` and the hold on the session say that a connection finds no other session. -/
theorem keeps_runCallback {job} (hfit : job.callback.Fit)
    (hholding : ∀ ref ∈ job.callback.holds, s.Holding ref) (ok : Bool) :
    Keeps cfg (job.callback.holds.map (·.client)) s (s.runCallback now job ok).2 := by
  refine Keeps.trans ?_ (keeps_applyCallback hfit ?_)
  · exact .of_same { Still.refl s with } rfl
  · exact hholding

/-! ## Heartbeats -/

/-- What the loops of a heartbeat do: the store changes in what the ledger does not see, and the
records that go to the logs hold no session. -/
structure Beats (cfg : Config) (h h' : HeartbeatState) : Prop where
  keeps : Keeps cfg [] h.store h'.store
  jobs : ∃ sent, h'.jobs = h.jobs ++ sent ∧ ∀ e ∈ sent, e.2.callback.holds = [] ∧ e.2.callback.Fit

theorem Beats.quiet {h h'} (hkeeps : Keeps cfg [] h.store h'.store)
    (hjobs : h'.jobs = h.jobs) : Beats cfg h h' :=
  ⟨hkeeps, [], by rw [hjobs, append_nil], fun e he => absurd he not_mem_nil⟩

theorem Beats.trans {h₁ h₂ h₃} (h : Beats cfg h₁ h₂) (h' : Beats cfg h₂ h₃) : Beats cfg h₁ h₃ := by
  obtain ⟨sent, heq, hsent⟩ := h.jobs
  obtain ⟨sent', heq', hsent'⟩ := h'.jobs
  refine ⟨h.keeps.trans h'.keeps, sent ++ sent', by rw [heq', heq, append_assoc], fun e he => ?_⟩
  exact (mem_append.1 he).elim (hsent e) (hsent' e)

theorem beats_heartbeatShard (partition : Nat) (failed : Bool) : ∀ rounds online h,
      Beats cfg h (heartbeatShard now cfg partition failed rounds online h).2
  | 0, _, h => .quiet (.refl _) rfl
  | rounds + 1, online, h => by
    rw [heartbeatShard]
    split
    · exact .quiet (.refl _) rfl
    rcases takeBatch cfg 0 5 online with ⟨live, rest⟩
    dsimp only
    split
    · exact .quiet (.refl _) rfl
    rw [enqueue]
    cases ha : h.store.admission cfg (h.append failed) (heartbeatJob now live).size with
    | some a =>
      have hfinal := admission_final ha
      cases a with
      | queued log job => exact hfinal.elim
      | deferred | full e | error e | replied r => exact .quiet (.refl _) rfl
    | none =>
      refine Beats.trans (⟨?_, [(.state partition, heartbeatJob now live)], rfl, ?_⟩ :
        Beats cfg h _) (beats_heartbeatShard partition failed rounds rest _)
      · exact .of_same { Still.refl h.store with } rfl
      · intro e he
        obtain rfl := mem_singleton.1 he
        exact ⟨rfl, trivial⟩

theorem beats_heartbeatShards (failed : Nat → Bool) (online : List Session) : ∀ partitions h,
      Beats cfg h (heartbeatShards now cfg failed online partitions h)
  | [], h => .quiet (.refl _) rfl
  | p :: rest, h => by
    rw [heartbeatShards]
    have hshard : Beats cfg h (heartbeatShard now cfg p (failed p) _ _ h).2 :=
      beats_heartbeatShard p (failed p) (online.filter fun t => cfg.partitionOf t.client ==
        p).length
        (online.filter fun t => cfg.partitionOf t.client == p) h
    dsimp only
    split
    · exact hshard.trans (beats_heartbeatShards failed online rest _)
    · exact hshard

/-- A heartbeat is a pass of `expire` and records that hold nothing. -/
theorem keeps_heartbeat (failed : Nat → Bool) (fulls : List Bool) :
    Keeps cfg [] s (s.heartbeat now cfg failed fulls).store ∧
      ∀ e ∈ (s.heartbeat now cfg failed fulls).jobs,
        e.2.callback.holds = [] ∧ e.2.callback.Fit := by
  rw [heartbeat]
  split
  · exact ⟨.refl s, fun e he => absurd he not_mem_nil⟩
  obtain ⟨hkeeps, sent, hsent, hjobs⟩ : Beats cfg { store := s.expire now, fulls := fulls }
      (heartbeatShards now cfg failed _ _ { store := s.expire now, fulls := fulls }) :=
    beats_heartbeatShards failed
      (((s.expire now).sessions.toList.map (·.2)).filter fun t => t.online && !t.busy)
      (List.range cfg.partitions) _
  refine ⟨(keeps_expire now).trans hkeeps, fun e he => hjobs e ?_⟩
  rw [hsent] at he
  exact he

end Store

end Mqtts.Durable
