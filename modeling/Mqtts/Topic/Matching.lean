import Mqtts.Topic.FanOut

/-!
# What the topic tree finds, against the MQTT rules

A search should return the clients that hold a filter which matches the topic. The tree keeps a
filter at the path that `splitLevels` cuts, and cuts the topic the same way, so both lose a trailing
empty level. Three things can go wrong: the filter `a/` is found for the topic `a`; the filter `a/+`
is not found for the topic `a/`; and since `a` and `a/` share a node, unsubscribing from one takes
the other with it.
-/

namespace Mqtts

open Assoc SortUnique TreeOp TopicTree

/-! ## Calls that succeed -/

/-- The call returns `MQ_SUCCESS`. -/
def TreeOp.succeeds (t : TopicTree) : TreeOp → Bool
  | .subscribe client filter options => (t.subscribe filter client options).toOption.isSome
  | .unsubscribe client filter => (t.unsubscribe filter client).toOption.isSome

def allSucceed (t : TopicTree) : List TreeOp → Bool
  | [] => true
  | op :: ops => op.succeeds t && allSucceed (op.apply t) ops

theorem allSucceed_append_singleton (ops : List TreeOp) (op : TreeOp) (t : TopicTree) :
    allSucceed t (ops ++ [op]) = (allSucceed t ops && op.succeeds (ops.foldl apply t)) := by
  induction ops generalizing t with
  | nil => simp [allSucceed]
  | cons o os ih => simp [allSucceed, ih, Bool.and_assoc]

variable {client filter x : Str}

theorem has_apply_unsubscribe {t}
    (h : (unsubscribe client filter).succeeds t) (x : Str) (path : List Str) :
    (((unsubscribe client filter).apply t).root.subscribersAt path).has x ↔
      (t.root.subscribersAt path).has x ∧ ¬ (x = client ∧ splitLevels filter = path) := by
  cases hok : t.unsubscribe filter client with
  | error e => simp [TreeOp.succeeds, hok, Except.toOption] at h
  | ok t' => simpa [TreeOp.apply, hok, Except.toOption] using has_unsubscribe hok

/-! ## Filters held -/

/-- The client subscribed to the filter and did not unsubscribe from it, over the table of whole
filters. -/
def Holds (table : Subscriptions) (client filter : Str) : Prop :=
  (client, filter) ∈ table.map Prod.fst

theorem holds_record_subscribe {table f options} (h : accepts filter client) :
    Holds ((subscribe client filter options).record table) x f ↔
      (x = client ∧ f = filter) ∨ Holds table x f := by
  simp only [Holds, record, h, if_true, mem_keys_assocSet, Prod.mk.injEq]

theorem holds_record_unsubscribe {table f} :
    Holds ((unsubscribe client filter).record table) x f ↔
      Holds table x f ∧ ¬ (x = client ∧ f = filter) := by
  simp only [Holds, record, List.mem_map, List.mem_filter, decide_eq_true_eq, ne_eq]
  constructor
  · rintro ⟨e, ⟨hm, hk⟩, he⟩
    exact ⟨⟨e, hm, he⟩, fun h => hk (by rw [he, h.1, h.2])⟩
  · rintro ⟨⟨e, hm, he⟩, hk⟩
    exact ⟨e, ⟨hm, fun h => hk (Prod.mk.inj (he.symm.trans h))⟩, he⟩

theorem accepts_of_succeeds {t options} (h : (subscribe client filter options).succeeds t) :
    accepts filter client := by
  cases ha : accepts filter client with
  | true => rfl
  | false => simp [TreeOp.succeeds, subscribe_error ha, Except.toOption] at h

/-- A client that the tree has at a path holds a filter with this path. The converse
fails: a removal takes the client from a path that two of its filters may share. -/
theorem exists_holds_of_has {ops} (hops : allSucceed .new ops)
    {path} (h : ((runOps ops).root.subscribersAt path).has x) :
    ∃ f, Holds (subscriptionsOf ops) x f ∧ splitLevels f = path := by
  induction ops using List.reverseRecOn with
  | nil => simp [runOps, new, Node.subscribersAt_empty, SubscriberSet.has] at h
  | append_singleton ops op ih =>
    rw [allSucceed_append_singleton, Bool.and_eq_true] at hops
    obtain ⟨hops, hop⟩ := hops
    have htable : subscriptionsOf (ops ++ [op]) = op.record (subscriptionsOf ops) := by
      simp [subscriptionsOf]
    rw [runOps_append_singleton] at h
    rw [htable]
    cases op with
    | subscribe c g o =>
      have hacc := accepts_of_succeeds hop
      rcases (has_apply_subscribe _ c g x o path).1 h with h | ⟨-, rfl, hp⟩
      · obtain ⟨f, hf, hp⟩ := ih hops h
        exact ⟨f, (holds_record_subscribe hacc).2 (.inr hf), hp⟩
      · exact ⟨g, (holds_record_subscribe hacc).2 (.inl ⟨rfl, rfl⟩), hp⟩
    | unsubscribe c g =>
      obtain ⟨h, hne⟩ := (has_apply_unsubscribe hop x path).1 h
      obtain ⟨f, hf, hp⟩ := ih hops h
      refine ⟨f, holds_record_unsubscribe.2 ⟨hf, ?_⟩, hp⟩
      rintro ⟨rfl, rfl⟩
      exact hne ⟨rfl, hp⟩

/-- A filter that a client unsubscribes from is not named by another of its calls with a `/`
more or less at the end. -/
def RemovalsApart (ops : List TreeOp) : Prop :=
  ∀ op ∈ ops, ∀ op' ∈ ops, op = .unsubscribe op.client op.topicFilter → op.client = op'.client →
    trimSlash op.topicFilter = trimSlash op'.topicFilter → op.topicFilter = op'.topicFilter

instance (ops : List TreeOp) : Decidable (RemovalsApart ops) := by
  unfold RemovalsApart
  infer_instance

theorem exists_options_of_holds {table f} (h : Holds table x f) : ∃ o, ((x, f), o) ∈ table := by
  obtain ⟨⟨k, o⟩, he, rfl⟩ := List.mem_map.1 h
  exact ⟨o, he⟩

theorem filter_ne_of_holds {ops f} (h : Holds (subscriptionsOf ops) x f) : f ≠ [] := by
  obtain ⟨o, ho⟩ := exists_options_of_holds h
  exact (valid_of_accepts (subscribe_mem_of_mem ho).1).1

theorem has_of_holds {ops} (hops : allSucceed .new ops) (happart : RemovalsApart ops) {f}
    (h : Holds (subscriptionsOf ops) x f) :
    ((runOps ops).root.subscribersAt (splitLevels f)).has x := by
  induction ops using List.reverseRecOn with
  | nil => cases h
  | append_singleton ops op ih =>
    rw [allSucceed_append_singleton, Bool.and_eq_true] at hops
    have ih := ih hops.1 fun a ha b hb =>
      happart a (List.mem_append_left _ ha) b (List.mem_append_left _ hb)
    rw [subscriptionsOf_append_singleton] at h
    rw [runOps_append_singleton]
    cases op with
    | subscribe c g o =>
      have hacc := accepts_of_succeeds hops.2
      rw [has_apply_subscribe]
      rcases (holds_record_subscribe hacc).1 h with ⟨rfl, rfl⟩ | h
      · exact .inr ⟨hacc, rfl, rfl⟩
      · exact .inl (ih h)
    | unsubscribe c g =>
      obtain ⟨h, hne⟩ := holds_record_unsubscribe.1 h
      refine (has_apply_unsubscribe hops.2 x _).2 ⟨ih h, fun ⟨hx, hg⟩ => hne ⟨hx, ?_⟩⟩
      -- The removal takes the node of another filter only if both are in the calls.
      obtain ⟨o, ho⟩ := exists_options_of_holds h
      have hop := (subscribe_mem_of_mem ho).2
      have hf := filter_ne_of_holds h
      have hg' : g ≠ [] := by
        rintro rfl
        exact splitLevels_ne_nil hf hg.symm
      exact (happart (.unsubscribe c g) (by simp) _ (List.mem_append_left _ hop) rfl hx.symm
        ((splitLevels_eq_iff hg' hf).1 hg)).symm

/-! ## The search -/

/-- What a search should return: the clients that hold a filter which matches. -/
def FindsMatching (table : Subscriptions) (topic : Str)
    (found : Except TreeError (List SubscriberInfo)) : Prop :=
  ∃ entries, found = .ok entries ∧ ∀ client, client ∈ entries.map (·.clientId) ↔
      ∃ f, Holds table client f ∧ mqttMatches f topic

theorem TopicTree.findSubscribers_ok (t : TopicTree) {topic : Str} (hne : topic ≠ [])
    (hlen : topic.length ≤ 65535) (o : SetOrder) (sort : ClientSort) :
    ∃ entries, t.findSubscribers o sort topic = .ok entries ∧
      ∀ client, client ∈ entries.map (·.clientId) ↔ ∃ path,
        filterMatches path (splitLevels topic) ∧
          (t.root.subscribersAt path).has client := by
  have hl : ¬ topic.length > 65535 := by omega
  refine ⟨sortUnique sort (t.root.collect o true (splitLevels topic)),
    by simp [findSubscribers, splitTopicLevels, hne, hl], fun client => ?_⟩
  simp only [List.mem_map, SubscriberSet.has_iff]
  constructor
  · rintro ⟨i, hi, rfl⟩
    obtain ⟨path, hm, hmem⟩ := (Node.mem_collect _ _).1 (mem_of_mem_sortUnique hi)
    exact ⟨path, hm, i, hmem, rfl⟩
  · rintro ⟨path, hm, i, hi, rfl⟩
    exact exists_mem_sortUnique sort ((Node.mem_collect (o := o) _ _).2 ⟨path, hm, hi⟩)

/-- A search returns the clients that hold a filter which matches once filter and topic have
lost a `/` at the end. -/
theorem findSubscribers_clients {ops : List TreeOp} (hops : allSucceed .new ops)
    (happart : RemovalsApart ops) {topic : Str} (hne : topic ≠ []) (hlen : topic.length ≤ 65535)
    (o : SetOrder) (sort : ClientSort) :
    ∃ entries, (runOps ops).findSubscribers o sort topic = .ok entries ∧
      ∀ client, client ∈ entries.map (·.clientId) ↔
        ∃ f, Holds (subscriptionsOf ops) client f ∧
          mqttMatches (trimSlash f) (trimSlash topic) := by
  obtain ⟨entries, hfound, hmem⟩ := (runOps ops).findSubscribers_ok hne hlen o sort
  refine ⟨entries, hfound, fun client => (hmem client).trans ⟨?_, ?_⟩⟩
  · rintro ⟨path, hm, hhas⟩
    obtain ⟨f, hf, rfl⟩ := exists_holds_of_has hops hhas
    refine ⟨f, hf, ?_⟩
    rw [← treeMatches_eq (filter_ne_of_holds hf) hne]
    exact hm
  · rintro ⟨f, hf, hm⟩
    rw [← treeMatches_eq (filter_ne_of_holds hf) hne] at hm
    exact ⟨_, hm, has_of_holds hops happart hf⟩

/-- Where a lost `/` does no harm: a client with a filter that matches only without the `/`
at the ends holds another that matches as it is, and one with a filter that matches only as
it is holds another that matches without. -/
structure SlashesHarmless (table : Subscriptions) (topic : Str) : Prop where
  wrongHit : ∀ client f, Holds table client f → mqttMatches (trimSlash f) (trimSlash topic) →
    mqttMatches f topic = false → ∃ g, Holds table client g ∧ mqttMatches g topic
  miss : ∀ client f, Holds table client f → mqttMatches f topic →
    mqttMatches (trimSlash f) (trimSlash topic) = false →
      ∃ g, Holds table client g ∧ mqttMatches (trimSlash g) (trimSlash topic)

/-- Without a `/` at the end of the filters held and of the topic there is nothing to ask. -/
theorem SlashesHarmless.of_unslashed {table : Subscriptions} {topic : Str}
    (hheld : ∀ client f, Holds table client f → f.getLast? ≠ some slash)
    (htopic : topic.getLast? ≠ some slash) : SlashesHarmless table topic where
  wrongHit client f hf hm hno := by
    rw [trimSlash_of_unslashed (hheld client f hf), trimSlash_of_unslashed htopic, hno] at hm
    cases hm
  miss client f hf hm hno := by
    rw [trimSlash_of_unslashed (hheld client f hf), trimSlash_of_unslashed htopic, hm] at hno
    cases hno

/-- After calls that all succeeded, with removals apart, a search returns the clients with a
matching filter exactly when the lost `/` do no harm. -/
theorem findSubscribers_matches_iff {ops : List TreeOp} (hops : allSucceed .new ops)
    (happart : RemovalsApart ops) {topic : Str} (hne : topic ≠ []) (hlen : topic.length ≤ 65535)
    (o : SetOrder) (sort : ClientSort) :
    FindsMatching (subscriptionsOf ops) topic ((runOps ops).findSubscribers o sort topic) ↔
      SlashesHarmless (subscriptionsOf ops) topic := by
  obtain ⟨entries, hfound, hclients⟩ := findSubscribers_clients hops happart hne hlen o sort
  constructor
  · rintro ⟨entries', hfound', hmatch⟩
    rw [hfound] at hfound'
    cases hfound'
    refine ⟨fun client f hf hm _ => ?_, fun client f hf hm _ => ?_⟩
    · exact (hmatch client).1 ((hclients client).2 ⟨f, hf, hm⟩)
    · exact (hclients client).1 ((hmatch client).2 ⟨f, hf, hm⟩)
  · intro h
    refine ⟨entries, hfound, fun client => (hclients client).trans ⟨?_, ?_⟩⟩
    · rintro ⟨f, hf, hm⟩
      cases hq : mqttMatches f topic with
      | true => exact ⟨f, hf, hq⟩
      | false => exact h.wrongHit client f hf hm hq
    · rintro ⟨f, hf, hm⟩
      cases ht : mqttMatches (trimSlash f) (trimSlash topic) with
      | true => exact ⟨f, hf, ht⟩
      | false => exact h.miss client f hf hm ht

def trailingOps : List TreeOp :=
  [.subscribe [0x63] [0x61, slash] {}, .subscribe [0x64] [0x61, slash, 0x2b] {}]

theorem trailingOps_table : (subscriptionsOf trailingOps).map Prod.fst =
    [([0x63], [0x61, slash]), ([0x64], [0x61, slash, 0x2b])] := by
  decide

/-- The client `c` is found for the topic `a`, and the client `d` is not found for the topic
`a/`. -/
theorem trailingSlash_mismatched : allSucceed .new trailingOps ∧
      ¬ FindsMatching (subscriptionsOf trailingOps) [0x61]
        ((runOps trailingOps).findSubscribers .listed (stable _) [0x61]) ∧
      ¬ FindsMatching (subscriptionsOf trailingOps) [0x61, slash]
        ((runOps trailingOps).findSubscribers .listed (stable _) [0x61, slash]) := by
  refine ⟨by decide, ?_, ?_⟩ <;> rintro ⟨entries, hfound, hmatch⟩
  · have hentries : (runOps trailingOps).findSubscribers .listed (stable _) [0x61] =
        .ok [.ofOptions [0x63] {}] := by rfl
    rw [hentries] at hfound
    cases hfound
    obtain ⟨f, hf, hm⟩ := (hmatch [0x63]).1 (by decide)
    rw [Holds, trailingOps_table] at hf
    obtain rfl : f = [0x61, slash] := by simpa using hf
    exact absurd hm (by decide)
  · have hentries : (runOps trailingOps).findSubscribers .listed (stable _) [0x61, slash] =
        .ok [.ofOptions [0x63] {}] := by rfl
    rw [hentries] at hfound
    cases hfound
    have hheld : Holds (subscriptionsOf trailingOps) [0x64] [0x61, slash, 0x2b] := by
      show _ ∈ (subscriptionsOf trailingOps).map Prod.fst
      decide
    exact absurd ((hmatch [0x64]).2 ⟨_, hheld, by decide⟩) (by decide)

/-- The two clients from above, and a third that holds `b` and `b/` and has left `c`: for the
topic `b` its filter `b/` is found wrongly, and `b` rightly. -/
def harmlessOps : List TreeOp :=
  trailingOps ++ [.subscribe [0x65] [0x62] {}, .subscribe [0x65] [0x62, slash] {},
    .subscribe [0x65] [0x63] {}, .unsubscribe [0x65] [0x63]]

theorem findSubscribers_harmless :
    FindsMatching (subscriptionsOf harmlessOps) [0x62]
      ((runOps harmlessOps).findSubscribers .listed (stable _) [0x62]) := by
  refine (findSubscribers_matches_iff (by decide) (by decide) (by decide) (by decide) .listed
    (stable _)).2 ?_
  constructor
  · have hall : ∀ key ∈ (subscriptionsOf harmlessOps).map Prod.fst, mqttMatches (trimSlash key.2)
        (trimSlash [0x62]) → mqttMatches key.2 [0x62] ∨ key.1 = [0x65] := by decide
    intro client f hf hm hno
    rcases hall _ hf hm with hyes | hclient
    · cases hno.symm.trans hyes
    · obtain rfl : client = [0x65] := hclient
      exact ⟨[0x62], by rw [Holds]; decide, by decide⟩
  · have hall : ∀ key ∈ (subscriptionsOf harmlessOps).map Prod.fst, mqttMatches key.2 [0x62] →
        mqttMatches (trimSlash key.2) (trimSlash [0x62]) := by decide
    exact fun client f hf hm hno => Bool.noConfusion (hno.symm.trans (hall _ hf hm))

end Mqtts
