import Mqtts.Topic.Tree

/-!
# Live fan-out of a publication

A publication is handed to the clients that `find_subscribers` returns, after
`plan_subscription_deliveries` has decided No Local and the delivery QoS. The plan merges the
entries of one client: No Local is decided per subscription, and the highest QoS of those that
remain counts. `findSubscribers` collapses its result by client id before the plan sees it, so of
several entries that one client holds on the topic's path only one reaches the plan, and the sort
decides which.
-/

namespace Mqtts

open List Assoc SortUnique

/-! ## Publications and plans -/

/-- A publication that `forward_publish_by_topic` accepts: its topic is not empty, has
no wildcard and no NUL, and comes from a length-prefixed string. -/
structure Publication where
  sender : Str
  topic : Str
  qos : Nat
  retain : Bool
  topic_ne : topic ≠ []
  topic_length : topic.length ≤ 65535
  topic_plain : ∀ b ∈ topic, b ≠ 0x2b ∧ b ≠ 0x23 ∧ b ≠ 0

structure PlannedDelivery where
  clientId : Str
  qos : Nat
  retain : Bool
  subscriptionQos : Nat

/-- No Local holds a delivery back: the subscriber is the sender, and the setting or the
subscription says so. -/
def suppressed (sender : Str) (implicitNoLocal : Bool) (client : Str) (noLocal : Bool) : Bool :=
  client == sender && (implicitNoLocal || noLocal)

def deliveryOf (p : Publication) (s : SubscriberInfo) : PlannedDelivery :=
  { clientId := s.clientId, qos := min s.qos p.qos,
    retain := s.retainAsPublished && p.retain, subscriptionQos := s.qos }

/-- One round of the loop of `plan_subscription_deliveries`. -/
def planStep (p : Publication) (implicitNoLocal : Bool) (planned : List PlannedDelivery)
    (s : SubscriberInfo) : List PlannedDelivery :=
  if suppressed p.sender implicitNoLocal s.clientId s.noLocal then planned
  else
    match planned.find? (·.clientId == s.clientId) with
    | none => planned ++ [deliveryOf p s]
    | some chosen =>
      if s.qos > chosen.subscriptionQos then
        planned.map fun d => if d.clientId == s.clientId then deliveryOf p s else d
      else planned

def planSubscriptionDeliveries (p : Publication) (implicitNoLocal : Bool)
    (subscribers : List SubscriberInfo) : List PlannedDelivery :=
  subscribers.foldl (planStep p implicitNoLocal) []

def liveDeliveries (t : TopicTree) (o : SetOrder) (sort : ClientSort) (p : Publication)
    (implicitNoLocal : Bool) : List PlannedDelivery :=
  match t.findSubscribers o sort p.topic with
  | .ok subscribers => planSubscriptionDeliveries p implicitNoLocal subscribers
  | .error _ => []

theorem foldl_planStep (p : Publication) (implicitNoLocal : Bool) :
    ∀ (subscribers : List SubscriberInfo) planned, (subscribers.map (·.clientId)).Nodup →
      (∀ s ∈ subscribers, ∀ d ∈ planned, d.clientId ≠ s.clientId) →
      subscribers.foldl (planStep p implicitNoLocal) planned = planned ++ (subscribers.filter
          (fun s => !suppressed p.sender implicitNoLocal s.clientId s.noLocal)).map (deliveryOf p)
  | [], planned, _, _ => by simp
  | s :: rest, planned, hnd, hnew => by
    rw [map_cons, nodup_cons] at hnd
    obtain ⟨hs, hrest⟩ := hnd
    have hnew' : ∀ r ∈ rest, ∀ d ∈ planned, d.clientId ≠ r.clientId :=
      fun r hr => hnew r (mem_cons_of_mem _ hr)
    rw [foldl_cons]
    cases hsup : suppressed p.sender implicitNoLocal s.clientId s.noLocal with
    | true =>
      have hstep : planStep p implicitNoLocal planned s = planned := by simp [planStep, hsup]
      rw [hstep, foldl_planStep p implicitNoLocal rest planned hrest hnew']
      simp [hsup]
    | false =>
      have hfind : planned.find? (·.clientId == s.clientId) = none := by
        rw [List.find?_eq_none]
        intro d hd
        simpa using hnew s mem_cons_self d hd
      have hstep : planStep p implicitNoLocal planned s = planned ++ [deliveryOf p s] := by
        simp [planStep, hsup, hfind]
      have hnew'' : ∀ r ∈ rest, ∀ d ∈ planned ++ [deliveryOf p s], d.clientId ≠ r.clientId := by
        intro r hr d hd heq
        rcases mem_append.1 hd with hd | hd
        · exact hnew' r hr d hd heq
        · rw [mem_singleton.1 hd] at heq
          exact hs (mem_map.2 ⟨r, hr, heq.symm⟩)
      rw [hstep, foldl_planStep p implicitNoLocal rest _ hrest hnew'']
      simp [hsup]

/-- What the two functions compute together: the entries that the collapse leaves, less
the suppressed ones. -/
theorem liveDeliveries_eq (t : TopicTree) (o : SetOrder) (sort : ClientSort) (p : Publication)
    (implicitNoLocal : Bool) :
    liveDeliveries t o sort p implicitNoLocal =
      ((sortUnique sort (t.root.collect o true (splitLevels p.topic))).filter
        (fun s => !suppressed p.sender implicitNoLocal s.clientId s.noLocal)).map
          (deliveryOf p) := by
  have hlen : ¬ p.topic.length > 65535 := by have := p.topic_length; omega
  simp only [liveDeliveries, TopicTree.findSubscribers, TopicTree.splitTopicLevels, p.topic_ne,
    if_false, hlen, planSubscriptionDeliveries]
  rw [foldl_planStep p implicitNoLocal _ [] (nodup_sortUnique sort _) (by simp), nil_append]

variable {t : TopicTree} {p : Publication}

theorem mem_liveDeliveries {o} {sort : ClientSort} {implicitNoLocal d} :
    d ∈ liveDeliveries t o sort p implicitNoLocal ↔
      ∃ s ∈ sortUnique sort (t.root.collect o true (splitLevels p.topic)),
        suppressed p.sender implicitNoLocal s.clientId s.noLocal = false ∧ deliveryOf p s = d := by
  rw [liveDeliveries_eq]
  simp [and_assoc]

theorem nodup_liveDeliveries (t : TopicTree) (o : SetOrder) (sort : ClientSort) (p : Publication)
    (implicitNoLocal : Bool) :
    ((liveDeliveries t o sort p implicitNoLocal).map (·.clientId)).Nodup := by
  rw [liveDeliveries_eq, map_map]
  exact (nodup_sortUnique sort _).sublist (filter_sublist.map _)

/-! ## The specification

The clients' subscriptions are a table from client and filter to options: subscribing
to a filter again replaces the options. The table speaks of whole filters and of MQTT
matching, and knows nothing of the tree. -/

abbrev Subscriptions := List ((Str × Str) × SubscriptionOptions)

def TreeOp.record (table : Subscriptions) : TreeOp → Subscriptions
  | .subscribe client filter options =>
    if TopicTree.accepts filter client then assocSet (client, filter) options table else table
  | .unsubscribe client filter => table.filter fun e => e.1 ≠ (client, filter)

def subscriptionsOf (ops : List TreeOp) : Subscriptions := ops.foldl TreeOp.record []

/-! ### The tree and the table

A filter and the same filter with a `/` at its end share a node of the tree. -/

def TreeOp.client : TreeOp → Str
  | .subscribe client _ _ => client
  | .unsubscribe client _ => client

def TreeOp.topicFilter : TreeOp → Str
  | .subscribe _ filter _ => filter
  | .unsubscribe _ filter => filter

/-- In its calls no client names a filter both with and without a `/` at its end. -/
def OneSpelling (ops : List TreeOp) : Prop :=
  ∀ op ∈ ops, ∀ op' ∈ ops, op.client = op'.client →
    trimSlash op.topicFilter = trimSlash op'.topicFilter → op.topicFilter = op'.topicFilter

instance (ops : List TreeOp) : Decidable (OneSpelling ops) := by
  unfold OneSpelling
  infer_instance

section Table

open TreeOp TopicTree

variable {ops : List TreeOp} {table : Subscriptions} {c f : Str} {o : SubscriptionOptions}

theorem subscriptionsOf_append_singleton (ops : List TreeOp) (op : TreeOp) :
    subscriptionsOf (ops ++ [op]) = op.record (subscriptionsOf ops) := by
  simp [subscriptionsOf]

theorem nodup_keys_record (h : (table.map Prod.fst).Nodup) (op : TreeOp) :
    ((op.record table).map Prod.fst).Nodup := by
  cases op with
  | subscribe c f o =>
    rw [record]
    split
    · exact nodup_keys_assocSet h
    · exact h
  | unsubscribe c f => exact h.sublist (filter_sublist.map _)

theorem nodup_keys_subscriptionsOf (ops : List TreeOp) :
    ((subscriptionsOf ops).map Prod.fst).Nodup := by
  induction ops using List.reverseRecOn with
  | nil => exact nodup_nil
  | append_singleton ops op ih =>
    rw [subscriptionsOf_append_singleton]
    exact nodup_keys_record ih op

theorem mem_record_unsubscribe {x g} : ((x, g), o) ∈ (unsubscribe c f).record table ↔
    ((x, g), o) ∈ table ∧ ¬ (x = c ∧ g = f) := by
  simp only [record, mem_filter, ne_eq, Prod.mk.injEq, decide_eq_true_eq]

theorem subscribe_mem_of_mem (h : ((c, f), o) ∈ subscriptionsOf ops) :
    accepts f c ∧ subscribe c f o ∈ ops := by
  induction ops using List.reverseRecOn with
  | nil => cases h
  | append_singleton ops op ih =>
    have hold (h : ((c, f), o) ∈ subscriptionsOf ops) :
        accepts f c ∧ subscribe c f o ∈ ops ++ [op] :=
      ⟨(ih h).1, mem_append_left _ (ih h).2⟩
    rw [subscriptionsOf_append_singleton] at h
    cases op with
    | unsubscribe c' f' => exact hold (mem_record_unsubscribe.1 h).1
    | subscribe c' f' o' =>
      rw [record] at h
      split at h
      · next ha =>
        rcases mem_assocSet h with heq | h
        · cases heq
          exact ⟨ha, by simp⟩
        · exact hold h
      · exact hold h

theorem OneSpelling.of_append {op} (h : OneSpelling (ops ++ [op])) : OneSpelling ops :=
  fun a ha b hb => h a (mem_append_left _ ha) b (mem_append_left _ hb)

/-- A filter in the table and a filter of the same client in the calls that share a node are
the same. -/
theorem OneSpelling.eq_of_split {op} (h : OneSpelling (ops ++ [op]))
    (hmem : ((op.client, f), o) ∈ subscriptionsOf ops)
    (hsplit : splitLevels f = splitLevels op.topicFilter) : f = op.topicFilter := by
  obtain ⟨ha, hop⟩ := subscribe_mem_of_mem hmem
  have hf : f ≠ [] := (valid_of_accepts ha).1
  have hg : op.topicFilter ≠ [] := by
    intro hg
    rw [hg] at hsplit
    exact splitLevels_ne_nil hf hsplit
  exact h _ (mem_append_left _ hop) op (by simp) rfl ((splitLevels_eq_iff hf hg).1 hsplit)

/-- The entries at a path of the tree are those that the table has for the filters with this
path. -/
theorem mem_runOps_iff (h : OneSpelling ops) {path i} :
    i ∈ ((runOps ops).root.subscribersAt path).elems ↔
      ∃ f o, ((i.clientId, f), o) ∈ subscriptionsOf ops ∧ splitLevels f = path ∧
        i = .ofOptions i.clientId o := by
  induction ops using List.reverseRecOn with
  | nil => simp [runOps, new, Node.subscribersAt_empty, subscriptionsOf]
  | append_singleton ops op ih =>
    have ih := ih h.of_append
    -- A call on a node that the client has by another filter is what the spelling excludes.
    have hsame {f o} (hm : ((i.clientId, f), o) ∈ subscriptionsOf ops) (hc : i.clientId = op.client)
        (hp : splitLevels f = splitLevels op.topicFilter) : f = op.topicFilter := by
      rw [hc] at hm
      exact h.eq_of_split hm hp
    rw [runOps_append_singleton, subscriptionsOf_append_singleton]
    cases op with
    | subscribe c g o' =>
      cases ha : accepts g c with
      | false => simpa [TreeOp.apply, subscribe_error ha, Except.toOption, record, ha] using ih
      | true =>
        rw [mem_apply_subscribe ha, ih, record, if_pos ha]
        simp only [mem_assocSet_iff (nodup_keys_subscriptionsOf ops), ne_eq, Prod.mk.injEq]
        constructor
        · rintro (⟨rfl, hp⟩ | ⟨⟨f, o, hm, hp, hi⟩, hne⟩)
          · exact ⟨g, o', .inl ⟨⟨rfl, rfl⟩, rfl⟩, hp, rfl⟩
          · exact ⟨f, o, .inr ⟨fun heq => hne ⟨heq.1, heq.2 ▸ hp⟩, hm⟩, hp, hi⟩
        · rintro ⟨f, o, ⟨⟨hc, rfl⟩, rfl⟩ | ⟨hne, hm⟩, hp, hi⟩
          · exact .inl ⟨hc ▸ hi, hp⟩
          · exact .inr ⟨⟨f, o, hm, hp, hi⟩,
              fun heq => hne ⟨heq.1, hsame hm heq.1 (hp.trans heq.2.symm)⟩⟩
    | unsubscribe c g =>
      simp only [mem_record_unsubscribe]
      cases hu : (runOps ops).unsubscribe g c with
      | ok t' =>
        rw [apply_unsubscribe hu, mem_unsubscribe hu, ih]
        constructor
        · rintro ⟨⟨f, o, hm, hp, hi⟩, hne⟩
          exact ⟨f, o, ⟨hm, fun heq => hne ⟨heq.1, heq.2 ▸ hp⟩⟩, hp, hi⟩
        · rintro ⟨f, o, ⟨hm, hne⟩, hp, hi⟩
          exact ⟨⟨f, o, hm, hp, hi⟩, fun heq => hne ⟨heq.1, hsame hm heq.1 (hp.trans heq.2.symm)⟩⟩
      | error e =>
        -- The call fails only where there is nothing to remove.
        have happly : (TreeOp.unsubscribe c g).apply (runOps ops) = runOps ops := by
          simp [TreeOp.apply, hu, Except.toOption]
        rw [happly, ih]
        constructor
        · rintro ⟨f, o, hm, hp, hi⟩
          refine ⟨f, o, ⟨hm, ?_⟩, hp, hi⟩
          rintro ⟨rfl, rfl⟩
          have hmem := ih.2 ⟨f, o, hm, hp, hi⟩
          subst hp
          obtain ⟨t', ht⟩ := exists_unsubscribe.2 ⟨valid_of_accepts (subscribe_mem_of_mem hm).1,
            SubscriberSet.has_iff.2 ⟨i, hmem, rfl⟩⟩
          rw [hu] at ht
          cases ht
        · rintro ⟨f, o, ⟨hm, -⟩, hp, hi⟩
          exact ⟨f, o, hm, hp, hi⟩

end Table

/-! ### What a publication should give -/

def wantedQos (table : Subscriptions) (p : Publication) (client : Str) : List Nat :=
  (table.filter fun e => e.1.1 == client && mqttMatches e.1.2 p.topic &&
    !suppressed p.sender false client e.2.noLocal).map (·.2.qos)

def grantedQos (table : Subscriptions) (p : Publication) (client : Str) : Nat :=
  min p.qos ((wantedQos table p client).foldr max 0)

/-- The deliveries are right: one for each client with a matching subscription that is
not suppressed, none for any other, with the QoS granted. -/
structure FanOutCorrect (table : Subscriptions) (p : Publication) (ds : List PlannedDelivery) :
    Prop where
  once : (ds.map (·.clientId)).Nodup
  reached : ∀ c, c ∈ ds.map (·.clientId) ↔ wantedQos table p c ≠ []
  qos : ∀ d ∈ ds, d.qos = grantedQos table p d.clientId

/-! ## When fan-out is right -/

def HeldFor (t : TopicTree) (p : Publication) (s : SubscriberInfo) : Prop :=
  ∃ path, filterMatches path (splitLevels p.topic) ∧ s ∈ (t.root.subscribersAt path).elems

theorem mem_collect_iff_heldFor {o s} :
    s ∈ t.root.collect o true (splitLevels p.topic) ↔ HeldFor t p s :=
  Node.mem_collect _ _

section Reached

variable {implicitNoLocal : Bool}

theorem exists_sort_leaving {s} (hs : HeldFor t p s) : ∃ sort : ClientSort,
      s ∈ sortUnique sort (t.root.collect .listed true (splitLevels p.topic)) :=
  exists_sort_choosing _ (mem_collect_iff_heldFor.2 hs)

theorem deliveryOf_mem_iff {sort : ClientSort} {s}
    (hs : s ∈ sortUnique sort (t.root.collect .listed true (splitLevels p.topic))) :
    s.clientId ∈ (liveDeliveries t .listed sort p implicitNoLocal).map (·.clientId) ↔
      deliveryOf p s ∈ liveDeliveries t .listed sort p implicitNoLocal ∧
        suppressed p.sender implicitNoLocal s.clientId s.noLocal = false := by
  constructor <;> intro h
  · obtain ⟨d, hd, hds⟩ := mem_map.1 h
    obtain ⟨r, hr, hsup, rfl⟩ := mem_liveDeliveries.1 hd
    have hrs : r = s := inj_on_of_nodup_map (nodup_sortUnique sort _) hr hs hds
    subst hrs
    exact ⟨hd, hsup⟩
  · exact mem_map.2 ⟨_, h.1, rfl⟩

/-- A client is reached under every order and sort exactly when it holds an entry on the
path and No Local suppresses none of them. -/
theorem always_reached_iff {client} :
    (∀ o sort, client ∈ (liveDeliveries t o sort p implicitNoLocal).map (·.clientId)) ↔
      (∃ s, HeldFor t p s ∧ s.clientId = client) ∧ ∀ s, HeldFor t p s → s.clientId = client →
          suppressed p.sender implicitNoLocal s.clientId s.noLocal = false := by
  constructor
  · intro h
    constructor
    · obtain ⟨d, hd, rfl⟩ := mem_map.1 (h .listed (stable _))
      obtain ⟨s, hs, -, rfl⟩ := mem_liveDeliveries.1 hd
      exact ⟨s, mem_collect_iff_heldFor.1 (mem_of_mem_sortUnique hs), rfl⟩
    · rintro s hs rfl
      obtain ⟨sort, hleft⟩ := exists_sort_leaving hs
      exact ((deliveryOf_mem_iff hleft).1 (h .listed sort)).2
  · rintro ⟨⟨s, hs, rfl⟩, hall⟩ o sort
    obtain ⟨r, hr, hrs⟩ := exists_mem_sortUnique sort (mem_collect_iff_heldFor (o := o).2 hs)
    have hsup := hall r (mem_collect_iff_heldFor.1 (mem_of_mem_sortUnique hr)) hrs
    exact mem_map.2 ⟨_, mem_liveDeliveries.2 ⟨r, hr, hsup, rfl⟩, hrs⟩

end Reached

/-! ## The condition on the subscriptions -/

/-- The subscriptions of a client that match the publication agree on No Local and, unless it
holds them back, on the QoS that the publication's leaves of theirs. -/
def SubscriptionsAgree (table : Subscriptions) (p : Publication) : Prop :=
  ∀ e ∈ table, ∀ e' ∈ table, e.1.1 = e'.1.1 →
    mqttMatches e.1.2 p.topic → mqttMatches e'.1.2 p.topic →
      suppressed p.sender false e.1.1 e.2.noLocal = suppressed p.sender false e'.1.1 e'.2.noLocal ∧
      (suppressed p.sender false e.1.1 e.2.noLocal = false →
        min e.2.qos p.qos = min e'.2.qos p.qos)

instance (table : Subscriptions) (p : Publication) : Decidable (SubscriptionsAgree table p) := by
  unfold SubscriptionsAgree
  infer_instance

/-- A `/` at the end of a filter or of the topic makes no difference: no client uses a filter
with and without it, and no filter held matches the topic in one reading only. -/
structure SlashesPlain (ops : List TreeOp) (topic : Str) : Prop where
  spelling : OneSpelling ops
  verdict : ∀ e ∈ subscriptionsOf ops,
    mqttMatches (trimSlash e.1.2) (trimSlash topic) = mqttMatches e.1.2 topic

/-- Without a `/` at the end of the filters and the topic there is nothing to ask. -/
theorem SlashesPlain.of_unslashed {ops : List TreeOp} {topic : Str}
    (hops : ∀ op ∈ ops, op.topicFilter.getLast? ≠ some slash)
    (htopic : topic.getLast? ≠ some slash) : SlashesPlain ops topic where
  spelling := by
    intro op hop op' hop' _ heq
    rwa [trimSlash_of_unslashed (hops op hop), trimSlash_of_unslashed (hops op' hop')] at heq
  verdict := by
    rintro ⟨⟨c, f⟩, o⟩ he
    have hf := hops _ (subscribe_mem_of_mem he).2
    rw [trimSlash_of_unslashed (s := f) hf, trimSlash_of_unslashed htopic]

section Agree

variable {ops : List TreeOp} {p : Publication} {s : SubscriberInfo}

theorem heldFor_iff (h : SlashesPlain ops p.topic) : HeldFor (runOps ops) p s ↔
    ∃ f o, ((s.clientId, f), o) ∈ subscriptionsOf ops ∧ mqttMatches f p.topic ∧
      s = .ofOptions s.clientId o := by
  have hverdict {f o} (hm : ((s.clientId, f), o) ∈ subscriptionsOf ops) :
      treeMatches f p.topic = mqttMatches f p.topic := by
    have hf := (TopicTree.valid_of_accepts (subscribe_mem_of_mem hm).1).1
    rw [treeMatches_eq hf p.topic_ne]
    exact h.verdict _ hm
  simp only [HeldFor, mem_runOps_iff h.spelling]
  constructor
  · rintro ⟨path, hmatch, f, o, hm, rfl, hs⟩
    refine ⟨f, o, hm, ?_, hs⟩
    rw [← hverdict hm]
    exact hmatch
  · rintro ⟨f, o, hm, hmatch, hs⟩
    rw [← hverdict hm] at hmatch
    exact ⟨_, hmatch, f, o, hm, rfl, hs⟩

variable {table : Subscriptions}

theorem mem_wantedQos {c q} : q ∈ wantedQos table p c ↔ ∃ f o, ((c, f), o) ∈ table ∧
    mqttMatches f p.topic ∧ suppressed p.sender false c o.noLocal = false ∧ o.qos = q := by
  simp only [wantedQos, mem_map, mem_filter, Bool.and_eq_true, beq_iff_eq, Bool.not_eq_true']
  constructor
  · rintro ⟨⟨⟨c', f⟩, o⟩, ⟨hm, ⟨rfl, hmatch⟩, hsup⟩, rfl⟩
    exact ⟨f, o, hm, hmatch, hsup, rfl⟩
  · rintro ⟨f, o, hm, hmatch, hsup, rfl⟩
    exact ⟨((c, f), o), ⟨hm, ⟨rfl, hmatch⟩, hsup⟩, rfl⟩

theorem min_foldr_max {n m : Nat} : ∀ {qs : List Nat}, qs ≠ [] → (∀ q ∈ qs, min q n = m) →
    min n (qs.foldr max 0) = m
  | [q], _, h => by
    have := h q mem_cons_self
    simpa [Nat.min_comm] using this
  | q :: r :: qs, _, h => by
    have hq := h q mem_cons_self
    have hrest := @min_foldr_max _ _ (r :: qs) (by simp) fun a ha => h a (mem_cons_of_mem _ ha)
    rw [foldr_cons]
    omega

theorem wanted_of_heldFor (h : SlashesPlain ops p.topic) (hs : HeldFor (runOps ops) p s)
    (hsup : suppressed p.sender false s.clientId s.noLocal = false) :
    wantedQos (subscriptionsOf ops) p s.clientId ≠ [] := by
  obtain ⟨f, o, hm, hmatch, hso⟩ := (heldFor_iff h).1 hs
  rw [hso] at hsup
  exact ne_nil_of_mem (mem_wantedQos.2 ⟨f, o, hm, hmatch, hsup, rfl⟩)

/-- A wanted QoS comes from a matching subscription, with which that of an entry agrees. -/
theorem SubscriptionsAgree.of_wanted (hagree : SubscriptionsAgree (subscriptionsOf ops) p)
    (h : SlashesPlain ops p.topic) (hs : HeldFor (runOps ops) p s) {q}
    (hq : q ∈ wantedQos (subscriptionsOf ops) p s.clientId) :
    suppressed p.sender false s.clientId s.noLocal = false ∧ min q p.qos = min s.qos p.qos := by
  obtain ⟨f, o, hm, hmatch, hs⟩ := (heldFor_iff h).1 hs
  obtain ⟨f', o', hm', hmatch', hsup, rfl⟩ := mem_wantedQos.1 hq
  have hboth := hagree _ hm' _ hm rfl hmatch' hmatch
  rw [hs]
  exact ⟨hboth.1 ▸ hsup, hboth.2 hsup⟩

theorem fanOutCorrect_of_agree (h : SlashesPlain ops p.topic)
    (hagree : SubscriptionsAgree (subscriptionsOf ops) p) (o : SetOrder) (sort : ClientSort) :
    FanOutCorrect (subscriptionsOf ops) p (liveDeliveries (runOps ops) o sort p false) where
  once := nodup_liveDeliveries _ o sort p false
  reached c := by
    rw [mem_map]
    constructor
    · rintro ⟨d, hd, rfl⟩
      obtain ⟨s, hs, hsup, rfl⟩ := mem_liveDeliveries.1 hd
      exact wanted_of_heldFor h (mem_collect_iff_heldFor.1 (mem_of_mem_sortUnique hs)) hsup
    · intro hw
      obtain ⟨q, hq⟩ := exists_mem_of_ne_nil _ hw
      obtain ⟨f, opts, hm, hmatch, -, -⟩ := mem_wantedQos.1 hq
      have hheld : HeldFor (runOps ops) p (.ofOptions c opts) :=
        (heldFor_iff h).2 ⟨f, opts, hm, hmatch, rfl⟩
      obtain ⟨r, hr, rfl⟩ := exists_mem_sortUnique sort (mem_collect_iff_heldFor (o := o).2 hheld)
      have hr' := mem_collect_iff_heldFor.1 (mem_of_mem_sortUnique hr)
      exact ⟨_, mem_liveDeliveries.2 ⟨r, hr, (hagree.of_wanted h hr' hq).1, rfl⟩, rfl⟩
  qos d hd := by
    obtain ⟨s, hs, hsup, rfl⟩ := mem_liveDeliveries.1 hd
    have hheld := mem_collect_iff_heldFor.1 (mem_of_mem_sortUnique hs)
    exact (min_foldr_max (wanted_of_heldFor h hheld hsup)
      fun q hq => (hagree.of_wanted h hheld hq).2).symm

/-- A sort may leave any entry of a client, so each of them has to give what is asked for. -/
theorem agree_of_fanOutCorrect (h : SlashesPlain ops p.topic)
    (hcorrect : ∀ o sort, FanOutCorrect (subscriptionsOf ops) p
      (liveDeliveries (runOps ops) o sort p false)) :
    SubscriptionsAgree (subscriptionsOf ops) p := by
  have hentry {c f o} (hm : ((c, f), o) ∈ subscriptionsOf ops) (hmatch : mqttMatches f p.topic) :
      (wantedQos (subscriptionsOf ops) p c ≠ [] ↔
        suppressed p.sender false c o.noLocal = false) ∧
      (suppressed p.sender false c o.noLocal = false →
        min o.qos p.qos = grantedQos (subscriptionsOf ops) p c) := by
    obtain ⟨sort, hs⟩ := exists_sort_leaving
      ((heldFor_iff h).2 ⟨f, o, hm, hmatch, rfl⟩ : HeldFor (runOps ops) p (.ofOptions c o))
    have hmem (hsup : suppressed p.sender false c o.noLocal = false) :
        deliveryOf p (.ofOptions c o) ∈ liveDeliveries (runOps ops) .listed sort p false :=
      mem_liveDeliveries.2 ⟨_, hs, hsup, rfl⟩
    refine ⟨⟨fun hw => ?_, fun hsup => ?_⟩, fun hsup => (hcorrect .listed sort).qos _ (hmem hsup)⟩
    · exact ((deliveryOf_mem_iff hs).1 (((hcorrect .listed sort).reached c).2 hw)).2
    · exact ((hcorrect .listed sort).reached c).1 (mem_map.2 ⟨_, hmem hsup, rfl⟩)
  rintro ⟨⟨c, f⟩, o⟩ he ⟨⟨c', f'⟩, o'⟩ he' (rfl : c = c') hf hf'
  have hiff := (hentry he hf).1.symm.trans (hentry he' hf').1
  refine ⟨Bool.eq_iff_iff.2 ?_, fun hsup => ?_⟩
  · rw [← not_iff_not, Bool.not_eq_true, Bool.not_eq_true]
    exact hiff
  · exact ((hentry he hf).2 hsup).trans ((hentry he' hf').2 (hiff.1 hsup)).symm

end Agree

/-- Where no `/` at the end makes a difference, fan-out is right for every order of the sets
and every sort exactly when the matching subscriptions of each client agree. -/
theorem fanOut_correct_iff {ops : List TreeOp} {p : Publication} (h : SlashesPlain ops p.topic) :
    (∀ o sort, FanOutCorrect (subscriptionsOf ops) p
        (liveDeliveries (runOps ops) o sort p false)) ↔
      SubscriptionsAgree (subscriptionsOf ops) p :=
  ⟨agree_of_fanOutCorrect h, fanOutCorrect_of_agree h⟩

/-- A client `c` that subscribes to `a` with No Local and to `#` without it, and then
publishes to `a`: the second subscription asks for the delivery. -/
def overlappingOps : List TreeOp :=
  [.subscribe [0x63] [0x61] { qos := 1, noLocal := true }, .subscribe [0x63] hashLevel { qos := 1 }]

def ownPublication : Publication :=
  { sender := [0x63], topic := [0x61], qos := 1, retain := false,
    topic_ne := by decide, topic_length := by decide, topic_plain := by simp }

/-- The filters `a` and `#` of `c` overlap, and the publication leaves the same QoS of both. -/
def agreeingOps : List TreeOp :=
  [.subscribe [0x63] [0x61] { qos := 1 }, .subscribe [0x63] hashLevel { qos := 2 },
    .subscribe [0x64] [0x61] { qos := 0 }, .subscribe [0x64] [0x62] { qos := 2 },
    .unsubscribe [0x64] [0x62]]

theorem fanOut_correct_agreeing :
    (liveDeliveries (runOps agreeingOps) .listed (stable _) ownPublication false).map
        (fun d => (d.clientId, d.qos)) = [([0x63], 1), ([0x64], 0)] ∧
      FanOutCorrect (subscriptionsOf agreeingOps) ownPublication
        (liveDeliveries (runOps agreeingOps) .listed (stable _) ownPublication false) :=
  ⟨by decide,
    (fanOut_correct_iff (.of_unslashed (by decide) (by decide))).2 (by decide) .listed (stable _)⟩

/-- Even a stable sort keeps the entry of `a`, and the delivery is lost. -/
theorem overlapping_delivery_lost :
    liveDeliveries (runOps overlappingOps) .listed (stable _) ownPublication false = [] ∧
      ¬ FanOutCorrect (subscriptionsOf overlappingOps) ownPublication
        (liveDeliveries (runOps overlappingOps) .listed (stable _) ownPublication false) := by
  have hnone :
      liveDeliveries (runOps overlappingOps) .listed (stable _) ownPublication false = [] := by
    decide
  refine ⟨hnone, fun h => ?_⟩
  have hwanted : wantedQos (subscriptionsOf overlappingOps) ownPublication [0x63] ≠ [] := by decide
  have hreached := (h.reached [0x63]).2 hwanted
  rw [hnone] at hreached
  cases hreached

end Mqtts
