import Mqtts.Durable.Keeps
import Mqtts.Topic.Clients

/-!
# UNSUBSCRIBE

`handle_unsubscribe` takes the filters of the packet one by one. The durable store is told first,
and a failure there closes the connection without an UNSUBACK. Then the filter leaves the list of
the handler, and `unsubscribe_topic_cluster` tells the topic tree and the router. What this returns
is only logged: the filter is answered with Success in any case. In strict mode a router that fails
gets the client subscribed in the tree again.

So a filter for which the router fails stays in the tree, and a filter that shares its levels with
another subscription of the client takes that one with it.
-/

namespace Mqtts.Unsubscribe

open List Durable SortUnique TopicTree SubscriberSet TreeOp

/-! ## The handler -/

/-- `LocalSubscription`; `add_subscription` refuses an empty filter. -/
structure LocalSubscription where
  filter : Str
  options : SubscriptionOptions
  filter_ne : filter ≠ []

/-- Whether there is a `router_client_`, and `cluster_enabled`. -/
inductive Cluster where
  | alone
  | async
  | strict

structure State where
  client : Str
  connected : Bool
  /-- `durable_epoch_` is not 0. -/
  durable : Bool
  cluster : Cluster
  subscriptions : List LocalSubscription
  store : Store
  tree : TopicTree

/-- A filter with the answers that the durable store and the router give for it. -/
structure Round where
  filter : Str
  stored : Bool
  routed : Bool

inductive Reply where
  | notConnected
  /-- `MQ_ERR_INTERNAL`, with the socket closed. -/
  | internal
  | unsuback (packetId : Nat) (codes : List UInt8)

def restoredOptions (client : Str) (subscribers : List SubscriberInfo) : SubscriptionOptions :=
  match subscribers.find? (·.clientId == client) with
  | some i =>
    { qos := i.qos, noLocal := i.noLocal, retainAsPublished := i.retainAsPublished
      retainHandling := i.retainHandling }
  | none => {}

namespace State

variable (o : SetOrder) (sort : ClientSort) (x : State)

def removeSubscription (filter : Str) : List LocalSubscription :=
  if filter = [] then x.subscriptions else x.subscriptions.filter fun s => s.filter ≠ filter

def unsubscribeTopicCluster (r : Round) : TopicTree :=
  match x.cluster with
  | .alone => (unsubscribe x.client r.filter).apply x.tree
  | .async => if r.routed then (unsubscribe x.client r.filter).apply x.tree else x.tree
  | .strict =>
    match x.tree.findSubscribers o sort r.filter with
    | .error _ => x.tree
    | .ok subscribers =>
      match x.tree.unsubscribe r.filter x.client with
      | .error _ => x.tree
      | .ok t =>
        if r.routed then t
        else
          let restored := restoredOptions x.client subscribers
          (subscribe x.client r.filter restored).apply t

def round (r : Round) : State :=
  { x with
    store := if x.durable then x.store.setSubscription x.client r.filter none else x.store
    subscriptions := x.removeSubscription r.filter
    tree := x.unsubscribeTopicCluster o sort r }

def handleRounds (packetId : Nat) : List Round → State → List UInt8 → Reply × State
  | [], x, codes => (.unsuback packetId codes, x)
  | r :: rounds, x, codes =>
    if x.durable && !r.stored then (.internal, x)
    else handleRounds packetId rounds (x.round o sort r) (codes ++ [0x00])

def handleUnsubscribe (packetId : Nat) (rounds : List Round) : Reply × State :=
  if x.connected then handleRounds o sort packetId rounds x [] else (.notConnected, x)

/-! ## What UNSUBACK says -/

def recorded (c filter : Str) : Option StoredSubscription :=
  (x.store.sessions[c]?).bind (·.subscriptions[filter]?)

def Entry (path : List Str) (i : SubscriberInfo) : Prop :=
  i ∈ (x.tree.root.subscribersAt path).elems

/-- The client has no subscription to the filters any more, and every other subscription is
what it was. -/
structure Truthful (x' : State) (filters : List Str) : Prop where
  listed : x'.subscriptions = x.subscriptions.filter fun s => s.filter ∉ filters
  recorded : ∀ c f, x'.recorded c f =
    if c = x.client ∧ f ∈ filters then none else x.recorded c f
  removed : ∀ f ∈ filters, ¬ x'.tree.HeldAt x.client (splitLevels f)
  others : ∀ path i, i.clientId ≠ x.client → (x'.Entry path i ↔ x.Entry path i)
  own : ∀ s ∈ x.subscriptions, s.filter ∉ filters → ∀ i, i.clientId = x.client →
    (x'.Entry (splitLevels s.filter) i ↔ x.Entry (splitLevels s.filter) i)
  elsewhere : ∀ path, (∀ f ∈ filters, splitLevels f ≠ path) →
    ∀ i, x'.Entry path i ↔ x.Entry path i

def Clears (r : Round) : Prop :=
  (r.filter ≠ [] ∧ x.client ≠ [] ∧ r.filter.length ≤ 65535) ∧
    (x.cluster = .alone ∨ r.routed ∨
      x.cluster = .strict ∧ accepts r.filter x.client = false)

/-- Every filter of the packet under whose levels the tree holds the client is cleared, and
no other subscription of the client has these levels. A session that is not durable has no
record. -/
structure Heeds (rounds : List Round) : Prop where
  cleared : ∀ r ∈ rounds, x.tree.HeldAt x.client (splitLevels r.filter) →
    ∃ r' ∈ rounds, splitLevels r'.filter = splitLevels r.filter ∧ x.Clears r'
  apart : ∀ s ∈ x.subscriptions, s.filter ∉ rounds.map (·.filter) →
    x.tree.HeldAt x.client (splitLevels s.filter) →
      ∀ r ∈ rounds, splitLevels r.filter ≠ splitLevels s.filter
  unrecorded : x.durable = false → ∀ r ∈ rounds, x.recorded x.client r.filter = none

variable {o sort x} {r : Round} {rounds : List Round} {path : List Str} {i : SubscriberInfo}

/-! ## One round -/

theorem unsubscribeTopicCluster_cases : (x.unsubscribeTopicCluster o sort r = x.tree ∧
      ¬ (x.Clears r ∧ x.tree.HeldAt x.client (splitLevels r.filter))) ∨
    ∃ t, x.tree.unsubscribe r.filter x.client = .ok t ∧
      (x.Clears r ∧ x.unsubscribeTopicCluster o sort r = t ∨
        ¬ x.Clears r ∧ ∃ options, accepts r.filter x.client ∧
          x.unsubscribeTopicCluster o sort r =
            (subscribe x.client r.filter options).apply t) := by
  have hok := @exists_unsubscribe x.tree r.filter x.client
  rw [unsubscribeTopicCluster]
  cases hu : x.tree.unsubscribe r.filter x.client with
  | error e =>
    refine .inl ⟨?_, fun ⟨hclears, hheld⟩ => ?_⟩
    · have happly : (unsubscribe x.client r.filter).apply x.tree = x.tree := by
        rw [apply, hu]
        rfl
      cases x.cluster with
      | alone => exact happly
      | async => simp only [happly, ite_self]
      | strict => cases x.tree.findSubscribers o sort r.filter <;> rfl
    · obtain ⟨t, ht⟩ := hok.2 ⟨hclears.1, hheld⟩
      cases hu.symm.trans ht
  | ok t =>
    obtain ⟨hvalid, -⟩ := hok.1 ⟨t, hu⟩
    have happly := apply_unsubscribe hu
    cases hc : x.cluster with
    | alone => exact .inr ⟨t, rfl, .inl ⟨⟨hvalid, .inl hc⟩, happly⟩⟩
    | async =>
      cases hr : r.routed with
      | true => exact .inr ⟨t, rfl, .inl ⟨⟨hvalid, .inr (.inl hr)⟩, happly⟩⟩
      | false => exact .inl ⟨rfl, fun h => by simp [Clears, hc, hr] at h⟩
    | strict =>
      obtain ⟨found, hfound, -⟩ :=
        x.tree.findSubscribers_ok hvalid.1 hvalid.2.2 o sort
      simp only [hfound]
      cases hr : r.routed with
      | true => exact .inr ⟨t, rfl, .inl ⟨⟨hvalid, .inr (.inl hr)⟩, rfl⟩⟩
      | false =>
        refine .inr ⟨t, rfl, ?_⟩
        cases ha : accepts r.filter x.client with
        | true => exact .inr ⟨fun h => by simp [Clears, hc, hr, ha] at h, _, rfl, rfl⟩
        | false =>
          refine .inl ⟨⟨hvalid, .inr (.inr ⟨hc, ha⟩)⟩, ?_⟩
          rw [apply, subscribe_error ha]
          rfl

/-- What one round does to the tree, -/
theorem entry_round (h : ¬ (i.clientId = x.client ∧ splitLevels r.filter = path)) :
    (x.round o sort r).Entry path i ↔ x.Entry path i := by
  show i ∈ ((x.unsubscribeTopicCluster o sort r).root.subscribersAt path).elems ↔ _
  rcases @unsubscribeTopicCluster_cases o sort x r with
    ⟨heq, -⟩ | ⟨t, ht, ⟨-, heq⟩ | ⟨-, options, ha, heq⟩⟩
  · rw [heq]
    rfl
  · rw [heq, mem_unsubscribe ht, and_iff_left h]
    rfl
  · rw [heq, mem_apply_subscribe ha, mem_unsubscribe ht, and_iff_left h, and_iff_left h,
      or_iff_right]
    · rfl
    · rintro ⟨rfl, hp⟩
      exact h ⟨rfl, hp⟩

theorem heldAt_round : (x.round o sort r).tree.HeldAt x.client path ↔
    x.tree.HeldAt x.client path ∧ ¬ (splitLevels r.filter = path ∧ x.Clears r) := by
  show (x.unsubscribeTopicCluster o sort r).HeldAt x.client path ↔ _
  rcases @unsubscribeTopicCluster_cases o sort x r with
    ⟨heq, hnot⟩ | ⟨t, ht, ⟨hclears, heq⟩ | ⟨hclears, options, ha, heq⟩⟩
  · rw [heq, iff_self_and]
    rintro hheld ⟨rfl, hclears⟩
    exact hnot ⟨hclears, hheld⟩
  · rw [heq, TopicTree.HeldAt, has_unsubscribe ht]
    simp only [true_and, hclears, and_true]
    rfl
  · rw [heq, TopicTree.HeldAt, has_apply_subscribe, has_unsubscribe ht]
    simp only [ha, hclears, and_false, not_false_eq_true, and_true, true_and]
    constructor
    · rintro (h | rfl)
      · exact h.1
      · exact (exists_unsubscribe.1 ⟨t, ht⟩).2
    · intro h
      exact (em (splitLevels r.filter = path)).elim .inr fun hp => .inl ⟨h, hp⟩

theorem recorded_setSubscription (s : Store) (client f : Str) (sub : Option StoredSubscription)
    (c f' : Str) : ((s.setSubscription client f sub).sessions[c]?).bind (·.subscriptions[f']?) =
      if c = client ∧ f' = f then (s.sessions[client]?).bind fun _ => sub
      else (s.sessions[c]?).bind (·.subscriptions[f']?) := by
  rw [Store.sessions_setSubscription]
  by_cases hc : client = c
  · subst hc
    cases s.sessions[client]? with
    | none => simp
    | some t =>
      simp only [if_true, Option.map_some, Option.bind_some, true_and, @eq_comm _ f']
      cases sub with
      | none => exact Maps.get_erase ..
      | some sub =>
        rw [Option.elim, Maps.get_insert, Maps.get_erase]
        split <;> rfl
  · simp [hc, Ne.symm hc]

theorem recorded_round (c f : Str) : (x.round o sort r).recorded c f =
    if x.durable ∧ c = x.client ∧ f = r.filter then none else x.recorded c f := by
  rw [recorded, recorded, round]
  by_cases hd : x.durable
  · simp only [hd, if_true, true_and, recorded_setSubscription, Option.bind_fun_none]
  · simp [hd]

theorem removeSubscription_eq (f : Str) :
    x.removeSubscription f = x.subscriptions.filter (fun s => s.filter ≠ f) := by
  rw [removeSubscription]
  split
  · next hf => simp [hf, LocalSubscription.filter_ne]
  · rfl

/-! ## All rounds -/

theorem handleRounds_unsuback {packetId id x' codes'} : ∀ {rounds x codes},
      handleRounds o sort packetId rounds x codes = (.unsuback id codes', x') →
        x' = rounds.foldl (round o sort) x ∧ codes' = codes ++ rounds.map fun _ => 0x00
  | [], x, codes, h => by
    cases h
    exact ⟨rfl, (append_nil _).symm⟩
  | r :: rounds, x, codes, h => by
    rw [handleRounds] at h
    split_ifs at h
    · cases h
    · obtain ⟨hx, hcodes⟩ := handleRounds_unsuback h
      exact ⟨hx, by rw [hcodes, append_assoc]; rfl⟩

theorem heldAt_rounds : ∀ {rounds : List Round} {x},
    (rounds.foldl (round o sort) x).tree.HeldAt x.client path ↔ x.tree.HeldAt x.client path ∧
      ¬ ∃ r ∈ rounds, splitLevels r.filter = path ∧ x.Clears r
  | [], x => by simp
  | r :: rounds, x => by
    refine (heldAt_rounds (x := x.round o sort r)).trans ?_
    rw [show (x.round o sort r).client = x.client from rfl, heldAt_round, and_assoc]
    simp only [mem_cons, exists_eq_or_imp, not_or]
    rfl

/-- and what all of them do. -/
theorem entry_rounds : ∀ {rounds : List Round} {x},
    (∀ r ∈ rounds, ¬ (i.clientId = x.client ∧ splitLevels r.filter = path)) →
      ((rounds.foldl (round o sort) x).Entry path i ↔ x.Entry path i)
  | [], _, _ => .rfl
  | r :: rounds, x, h => by
    obtain ⟨hr, hrounds⟩ := forall_mem_cons.1 h
    exact (entry_rounds (x := x.round o sort r) hrounds).trans (entry_round hr)

theorem recorded_rounds (c f : Str) : ∀ {rounds : List Round} {x},
    (rounds.foldl (round o sort) x).recorded c f =
      if x.durable ∧ c = x.client ∧ f ∈ rounds.map (·.filter) then none
      else x.recorded c f
  | [], x => by simp
  | r :: rounds, x => by
    refine (recorded_rounds c f (x := x.round o sort r)).trans ?_
    rw [show (x.round o sort r).client = x.client from rfl,
      show (x.round o sort r).durable = x.durable from rfl, recorded_round]
    simp only [map_cons, mem_cons, and_or_left, ite_or]
    split <;> simp

theorem subscriptions_rounds : ∀ {rounds : List Round} {x},
    (rounds.foldl (round o sort) x).subscriptions =
      x.subscriptions.filter fun s => s.filter ∉ rounds.map (·.filter)
  | [], x => by simp
  | r :: rounds, x => by
    refine (subscriptions_rounds (x := x.round o sort r)).trans ?_
    rw [round, removeSubscription_eq, filter_filter]
    refine filter_congr fun s _ => ?_
    simp only [map_cons, mem_cons, not_or, Bool.decide_and, Bool.and_comm]

/-- Every filter is answered with Success, and this is true exactly when the rounds heed the
tree. -/
theorem unsuback_truthful_iff {x'} {packetId id : Nat} {codes}
    (h : x.handleUnsubscribe o sort packetId rounds = (.unsuback id codes, x')) :
    codes = rounds.map (fun _ => 0x00) ∧
      (x.Truthful x' (rounds.map (·.filter)) ↔ x.Heeds rounds) := by
  rw [handleUnsubscribe] at h
  split at h
  swap
  · cases h
  obtain ⟨rfl, hcodes⟩ := handleRounds_unsuback h
  refine ⟨hcodes, ⟨fun ht => ⟨fun r hr hheld => ?_, fun s hs hnot hheld r hr heq => ?_,
    fun hd r hr => ?_⟩, fun hh => ⟨subscriptions_rounds, fun c f => ?_, fun f hf hheld => ?_,
    fun path i hi => ?_, fun s hs hnot i hi => ?_, fun path hpath i => ?_⟩⟩⟩
  · have hgone := ht.removed _ (mem_map_of_mem hr)
    rw [heldAt_rounds, not_and, not_not] at hgone
    exact hgone hheld
  · obtain ⟨i, hi, hclient⟩ := has_iff.1 hheld
    refine ht.removed _ (mem_map_of_mem hr) ?_
    rw [heq]
    exact has_iff.2 ⟨i, (ht.own s hs hnot i hclient).2 hi, hclient⟩
  · have hrecord := ht.recorded x.client r.filter
    rwa [recorded_rounds, if_neg (by simp [hd]), if_pos ⟨rfl, mem_map_of_mem hr⟩] at hrecord
  · rw [recorded_rounds]
    cases hd : x.durable with
    | true => simp
    | false =>
      simp only [Bool.false_eq_true, false_and, if_false]
      split
      · next hf =>
          obtain ⟨r, hr, rfl⟩ := mem_map.1 hf.2
          rw [hf.1, hh.unrecorded hd r hr]
      · rfl
  · obtain ⟨r, hr, rfl⟩ := mem_map.1 hf
    rw [heldAt_rounds] at hheld
    exact hheld.2 (hh.cleared r hr hheld.1)
  · exact entry_rounds fun _ _ heq => hi heq.1
  · by_cases hheld : x.tree.HeldAt x.client (splitLevels s.filter)
    · exact entry_rounds fun r hr heq => hh.apart s hs hnot hheld r hr heq.2
    have hout : ∀ {y : State}, ¬ y.tree.HeldAt x.client (splitLevels s.filter) →
        ¬ y.Entry (splitLevels s.filter) i :=
      fun hy hentry => hy (has_iff.2 ⟨i, hentry, hi⟩)
    exact iff_of_false (hout fun hafter => hheld (heldAt_rounds.1 hafter).1) (hout hheld)
  · exact entry_rounds fun r hr heq => hpath _ (mem_map_of_mem hr) heq.2

def sample (cluster : Cluster) : State where
  client := [0x63]
  connected := true
  durable := false
  cluster := cluster
  subscriptions := [⟨[0x61], {}, by simp⟩]
  store := {}
  tree := runOps [.subscribe [0x63] [0x61] {}]

theorem heldAt_sample {cluster} : (sample cluster).tree.HeldAt [0x63] [[0x61]] := by
  unfold TopicTree.HeldAt
  rfl

/-- A client with three subscriptions, beside another client. -/
def threeSubscriptions : State :=
  { sample .async with
    subscriptions := [⟨[0x61], {}, by simp⟩, ⟨[0x62], {}, by simp⟩, ⟨[0x65], {}, by simp⟩]
    tree := runOps [.subscribe [0x63] [0x61] {}, .subscribe [0x63] [0x62] {},
      .subscribe [0x63] [0x65] {}, .subscribe [0x64] [0x61] {}] }

def twoFilters : List Round := [⟨[0x61], true, true⟩, ⟨[0x62], true, true⟩]

theorem heeds_twoFilters : threeSubscriptions.Heeds twoFilters where
  cleared r hr _ := by
    have hvalid : ∀ r ∈ twoFilters, (r.filter ≠ [] ∧ threeSubscriptions.client ≠ [] ∧
        r.filter.length ≤ 65535) ∧ r.routed := by
      decide
    exact ⟨r, hr, rfl, (hvalid r hr).1, .inr (.inl (hvalid r hr).2)⟩
  apart s hs hnot _ := by
    have hapart : ∀ s ∈ threeSubscriptions.subscriptions, s.filter ∉ twoFilters.map (·.filter) →
        ∀ r ∈ twoFilters, splitLevels r.filter ≠ splitLevels s.filter := by
      decide
    exact hapart s hs hnot
  unrecorded _ _ _ := rfl

/-- Two of the three are unsubscribed; the third and the other client are still in the tree. -/
theorem unsuback_truthful_routed : ∃ x',
    threeSubscriptions.handleUnsubscribe .listed (stable _) 1 twoFilters =
        (.unsuback 1 [0x00, 0x00], x') ∧
      threeSubscriptions.Truthful x' (twoFilters.map (·.filter)) ∧
      x'.subscriptions.map (·.filter) = [[0x65]] ∧
      x'.Entry [[0x65]] (.ofOptions [0x63] {}) ∧ x'.Entry [[0x61]] (.ofOptions [0x64] {}) := by
  have hrun : threeSubscriptions.handleUnsubscribe .listed (stable _) 1 twoFilters =
      (.unsuback 1 [0x00, 0x00], _) := rfl
  have htruthful := (unsuback_truthful_iff hrun).2.2 heeds_twoFilters
  have hown : threeSubscriptions.Entry [[0x65]] (.ofOptions [0x63] {}) := by
    unfold Entry
    decide +kernel
  have hother : threeSubscriptions.Entry [[0x61]] (.ofOptions [0x64] {}) := by
    unfold Entry
    decide +kernel
  refine ⟨_, hrun, htruthful, ?_, (htruthful.elsewhere _ (by decide) _).2 hown,
    (htruthful.others _ _ (by decide)).2 hother⟩
  rw [htruthful.listed]
  decide

/-- The router fails, and the client stays in the tree or comes back to it. A packet with `a/`
takes the client from the levels of `a`. -/
theorem unsuback_untruthful :
    (∀ cluster ≠ .alone, ∃ x', (sample cluster).handleUnsubscribe .listed (stable _) 1
        [⟨[0x61], true, false⟩] = (.unsuback 1 [0x00], x') ∧
      ¬ (sample cluster).Truthful x' [[0x61]]) ∧
    ∃ x', (sample .alone).handleUnsubscribe .listed (stable _) 1
        [⟨[0x61, slash], true, true⟩] = (.unsuback 1 [0x00], x') ∧
      ¬ (sample .alone).Truthful x' [[0x61, slash]] := by
  refine ⟨fun cluster hne => ⟨_, rfl, fun ht => ?_⟩, _, rfl, fun ht => ?_⟩
  · refine ht.removed _ mem_cons_self (heldAt_round.2 ⟨heldAt_sample, ?_⟩)
    rintro ⟨-, -, hc | hr | ⟨-, ha⟩⟩
    · exact hne hc
    · cases hr
    · cases ha
  · obtain ⟨i, hi, hclient⟩ := has_iff.1 (@heldAt_sample .alone)
    have hafter := (ht.own _ mem_cons_self (by simp [slash]) i hclient).2 hi
    exact ht.removed _ mem_cons_self (has_iff.2 ⟨i, hafter, hclient⟩)

/-! ## A router that fails -/

theorem restoredOptions_spec {client} {found : List SubscriberInfo}
    (h : ∃ k ∈ found, k.clientId = client) :
    ∃ k ∈ found, k.clientId = client ∧ .ofOptions client (restoredOptions client found) = k := by
  obtain ⟨k, hk, hclient⟩ := h
  cases hj : found.find? (·.clientId == client) with
  | none => exact absurd hclient (by simpa using find?_eq_none.1 hj k hk)
  | some j =>
    have hclient : j.clientId = client := by simpa using find?_some hj
    refine ⟨j, mem_of_find?_eq_some hj, hclient, ?_⟩
    rw [restoredOptions, hj, ← hclient]
    rfl

/-- The filter can be subscribed to again, and every subscription of the client that the search
for it finds is the one to the filter. -/
def Singled (filter : Str) : Prop :=
  accepts filter x.client ∧ ∀ path i, i.clientId = x.client →
    filterMatches path (splitLevels filter) → x.Entry path i → x.Entry (splitLevels filter) i

/-- The tree after a removal that the router fails in strict mode. -/
def unrouted (o : SetOrder) (sort : ClientSort) (x : State) (filter : Str) : TopicTree :=
  { x with cluster := .strict }.unsubscribeTopicCluster o sort ⟨filter, true, false⟩

theorem unrouted_eq {filter t} (h : x.tree.unsubscribe filter x.client = .ok t)
    (haccepts : accepts filter x.client) :
    ∃ k ∈ sortUnique sort (x.tree.root.collect o true (splitLevels filter)), k.clientId = x.client ∧
        ∀ path i, i ∈ ((x.unrouted o sort filter).root.subscribersAt path).elems ↔
          i = k ∧ splitLevels filter = path ∨
            x.Entry path i ∧ ¬ (i.clientId = x.client ∧ splitLevels filter = path) := by
  obtain ⟨hvalid, hheld⟩ := exists_unsubscribe.1 ⟨t, h⟩
  obtain ⟨i, hi, hclient⟩ := has_iff.1 hheld
  obtain ⟨j, hj, hkey⟩ := exists_mem_sortUnique sort
    ((Node.mem_collect (o := o) _ _).2 ⟨_, filterMatches_self _, hi⟩)
  obtain ⟨k, hk, hkclient, hoptions⟩ := restoredOptions_spec ⟨j, hj, hkey.trans hclient⟩
  refine ⟨k, hk, hkclient, fun path i => ?_⟩
  have hfound : x.tree.findSubscribers o sort filter = .ok (sortUnique sort
      (x.tree.root.collect o true (splitLevels filter))) := by
    simp [findSubscribers, splitTopicLevels, hvalid.1, Nat.not_lt.2 hvalid.2.2]
  simp only [unrouted, unsubscribeTopicCluster, hfound, h]
  rw [if_neg Bool.false_ne_true, mem_apply_subscribe haccepts, mem_unsubscribe h, hoptions]
  tauto

/-- A removal that the router fails leaves the tree as it was under every order, exactly if the
search singles out the subscription, or there is none. -/
theorem unrouted_restores_iff (x : State) (filter : Str) :
    (∀ o sort path i, i ∈ ((x.unrouted o sort filter).root.subscribersAt path).elems ↔
        x.Entry path i) ↔
      ((∃ t, x.tree.unsubscribe filter x.client = .ok t) → x.Singled filter) := by
  constructor
  · rintro hall ⟨t, ht⟩
    have haccepts : accepts filter x.client := by
      by_contra hnot
      obtain ⟨hvalid, hheld⟩ := exists_unsubscribe.1 ⟨t, ht⟩
      obtain ⟨i, hi, hclient⟩ := has_iff.1 hheld
      obtain ⟨found, hfound, -⟩ :=
        x.tree.findSubscribers_ok hvalid.1 hvalid.2.2 .listed (stable _)
      have hback := (hall .listed (stable _) _ i).2 hi
      simp only [unrouted, unsubscribeTopicCluster, hfound, ht] at hback
      rw [if_neg Bool.false_ne_true, apply, subscribe_error (Bool.eq_false_iff.2 hnot)] at hback
      exact ((mem_unsubscribe ht).1 hback).2 ⟨hclient, rfl⟩
    refine ⟨haccepts, fun path i hclient hmatch hentry => ?_⟩
    -- The search may prefer this entry to all others of the client.
    obtain ⟨sort, hi⟩ := exists_sort_choosing (·.clientId)
      ((@Node.mem_collect .listed _ _ _).2 ⟨path, hmatch, hentry⟩)
    obtain ⟨k, hk, hkclient, hmem⟩ := unrouted_eq ht haccepts
    have hsame : k = i := inj_on_of_nodup_map (nodup_sortUnique sort _) hk hi
      (hkclient.trans hclient.symm)
    rw [← hsame]
    exact (hall _ _ _ k).1 ((hmem _ k).2 (.inl ⟨rfl, rfl⟩))
  · intro h o sort path i
    cases hu : x.tree.unsubscribe filter x.client with
    | error e =>
      have heq : x.unrouted o sort filter = x.tree := by
        simp only [unrouted, unsubscribeTopicCluster, hu]
        cases x.tree.findSubscribers o sort filter <;> rfl
      rw [heq]
      rfl
    | ok t =>
      obtain ⟨haccepts, hsingled⟩ := h ⟨t, hu⟩
      obtain ⟨k, hk, hclient, hmem⟩ := @unrouted_eq o sort x filter t hu haccepts
      obtain ⟨path', hmatch, hentry⟩ := (Node.mem_collect _ _).1 (mem_of_mem_sortUnique hk)
      have hown : x.Entry (splitLevels filter) k := hsingled path' k hclient hmatch hentry
      rw [hmem]
      constructor
      · rintro (⟨rfl, rfl⟩ | ⟨hi, -⟩)
        · exact hown
        · exact hi
      · intro hi
        by_cases hsame : i.clientId = x.client ∧ splitLevels filter = path
        · obtain ⟨hi', rfl⟩ := hsame
          refine .inl ⟨?_, rfl⟩
          exact inj_on_of_nodup_map (nodup _) hi hown (hi'.trans hclient.symm)
        · exact .inr ⟨hi, hsame⟩

/-- The client has `a` with QoS 1 and `#` with QoS 0. It gets `a` back with the options of `#`
when the search prefers those, and a removal of `#/` takes `#` for good. -/
theorem unrouted_differs :
    let x := { sample .strict with
      tree := runOps [.subscribe [0x63] [0x61] { qos := 1 }, .subscribe [0x63] [0x23] {}] }
    let other := SubscriberInfo.ofOptions [0x63] {}
    (∃ sort, other ∈ ((x.unrouted .listed sort [0x61]).root.subscribersAt [[0x61]]).elems) ∧
      ∀ o sort, ((x.unrouted o sort [0x23, slash]).root.subscribersAt [[0x23]]).elems = [] := by
  intro x other
  exact ⟨⟨preferring _ (x.tree.root.collect .listed true [[0x61]]) other, by decide⟩,
    fun o sort => rfl⟩

end State

end Mqtts.Unsubscribe
