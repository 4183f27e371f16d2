import Mqtts.Cluster.Route

/-!
# How many copies a remote subscriber gets

Each target of the router is one request to its node, and each request delivers to every matching
client there.
-/

namespace Mqtts

open List SortUnique Cluster TopicTree

variable {c : Cluster} {ch : Choices} {p : Publication} {publisher server client : Str}

/-! ## The targets -/

/-- The full client ids, distinct, that hold a matching subscription. -/
def Cluster.routedIds (c : Cluster) (p : Publication) : List Str :=
  ((c.subscriptions.filter fun s => accepts s.filter s.client &&
      filterMatches (splitLevels s.filter) (splitLevels p.topic)).map
    (fun s => makeFullClientId s.server s.client)).dedup

theorem accepts_fullId {s : ClusterSubscription} (hc : s.client ≠ []) :
    accepts s.filter (makeFullClientId s.server s.client) =
      accepts s.filter s.client := by
  have h1 : (makeFullClientId s.server s.client).isEmpty = false := by simp [makeFullClientId]
  have h2 : s.client.isEmpty = false := isEmpty_eq_false_iff.2 hc
  rw [accepts, accepts, h1, h2]

theorem routerOps_subscribe : ∀ op ∈ c.routerOps, ∃ x f o, op = .subscribe x f o := by
  intro op hop
  obtain ⟨s, -, rfl⟩ := mem_map.1 hop
  exact ⟨_, _, _, rfl⟩

/-- They are the clients that the router's tree has for the topic. -/
theorem mem_routedIds {full : Str} :
    full ∈ c.routedIds p ↔ ∃ i, HeldFor c.routerTree p i ∧ i.clientId = full := by
  have hheld : (∃ i, HeldFor c.routerTree p i ∧ i.clientId = full) ↔
      ∃ path, filterMatches path (splitLevels p.topic) ∧
        (c.routerTree.root.subscribersAt path).has full := by
    simp only [HeldFor, SubscriberSet.has_iff]
    constructor
    · rintro ⟨i, ⟨path, hm, hi⟩, he⟩
      exact ⟨path, hm, i, hi, he⟩
    · rintro ⟨path, hm, i, hi, he⟩
      exact ⟨i, ⟨path, hm, hi⟩, he⟩
  rw [hheld]
  simp only [routedIds, mem_dedup, mem_map, mem_filter, Bool.and_eq_true,
    routerTree, has_runOps routerOps_subscribe]
  constructor
  · rintro ⟨s, ⟨hs, ha, hm⟩, rfl⟩
    refine ⟨_, hm, s.filter, { qos := s.options.qos }, mem_map.2 ⟨s, hs, rfl⟩, ?_, rfl⟩
    rw [accepts_fullId (c.client_ne s hs)]
    exact ha
  · rintro ⟨path, hm, f, o, hop, ha, rfl⟩
    obtain ⟨s, hs, heq⟩ := mem_map.1 hop
    obtain ⟨rfl, rfl, -⟩ := heq
    rw [accepts_fullId (c.client_ne s hs)] at ha
    exact ⟨s, ⟨hs, ha, hm⟩, rfl⟩

theorem atSign_mem_of_routed {full} (h : full ∈ c.routedIds p) : atSign ∈ full := by
  simp only [routedIds, mem_dedup, mem_map] at h
  obtain ⟨s, -, rfl⟩ := h
  simp [makeFullClientId]

def targetOf (s : SubscriberInfo) : RouteTarget :=
  { serverId := serverPart s.clientId, clientId := clientPart s.clientId, qos := s.qos }

theorem routeTargetsOf_eq (publisher : Str) : ∀ {found}, (∀ s ∈ found, atSign ∈ s.clientId) →
      routeTargetsOf publisher found =
        .ok ((found.filter fun s => serverPart s.clientId ≠ publisher).map targetOf)
  | [], _ => rfl
  | s :: rest, h => by
    have hs : ¬ atSign ∉ s.clientId := not_not.2 (h s mem_cons_self)
    rw [routeTargetsOf, if_neg hs,
      routeTargetsOf_eq publisher fun r hr => h r (mem_cons_of_mem _ hr)]
    by_cases hp : serverPart s.clientId = publisher
    · simp [hp]
    · simp [hp, targetOf]

theorem nodup_routedIds : (c.routedIds p).Nodup := nodup_dedup _

variable (o : SetOrder) (sort : ClientSort)

theorem router_found_perm :
    ((sortUnique sort (c.routerTree.root.collect o true (splitLevels p.topic))).map
      (·.clientId)).Perm (c.routedIds p) := by
  refine (perm_ext_iff_of_nodup (nodup_sortUnique sort _) nodup_routedIds).2 ?_
  intro full
  rw [mem_routedIds, mem_map]
  constructor <;> rintro ⟨i, hi, rfl⟩
  · exact ⟨i, mem_collect_iff_heldFor.1 (mem_of_mem_sortUnique hi), rfl⟩
  · exact exists_mem_sortUnique sort (mem_collect_iff_heldFor.2 hi)

/-- `find_route_targets` succeeds, and has as many targets on a node other than the
publisher's as there are routed ids naming the node. -/
theorem findRouteTargets_ok (publisher : Str) :
    ∃ targets, findRouteTargets c.routerTree o sort p.topic publisher = .ok targets ∧
      (∀ t ∈ targets, t.serverId ≠ publisher) ∧
      ∀ server, server ≠ publisher → targets.countP (·.serverId == server) =
          (c.routedIds p).countP (serverPart · == server) := by
  have hlen : ¬ p.topic.length > 65535 := by have := p.topic_length; omega
  set found := sortUnique sort (c.routerTree.root.collect o true (splitLevels p.topic)) with hf
  have hperm := router_found_perm (c := c) (p := p) o sort
  have hat : ∀ s ∈ found, atSign ∈ s.clientId := by
    intro s hs
    exact atSign_mem_of_routed (hperm.mem_iff.1 (mem_map.2 ⟨s, hs, rfl⟩))
  refine ⟨(found.filter fun s => serverPart s.clientId ≠ publisher).map targetOf, ?_, ?_, ?_⟩
  · simp only [findRouteTargets, findSubscribers, splitTopicLevels, p.topic_ne, if_false, hlen]
    exact routeTargetsOf_eq publisher hat
  · intro t ht
    obtain ⟨s, hs, rfl⟩ := mem_map.1 ht
    exact of_decide_eq_true (mem_filter.1 hs).2
  · intro server hne
    rw [countP_map, countP_filter, ← hperm.countP_eq, countP_map, ← hf]
    refine countP_congr fun s _ => ?_
    simp only [Function.comp_apply, targetOf, Bool.and_eq_true, beq_iff_eq, decide_eq_true_eq]
    exact ⟨fun h => h.1, fun h => ⟨h, h ▸ hne⟩⟩

/-! ## Resolving and forwarding -/

variable {n : ServerInfo} {t : RouteTarget}

theorem getNode_of_mem (hn : n ∈ c.nodes) : c.getNode n.serverId = some n := by
  unfold getNode
  cases h : c.nodes.find? (·.serverId == n.serverId) with
  | none => simpa using List.find?_eq_none.1 h n hn
  | some m =>
    have hm : m.serverId = n.serverId := by simpa using List.find?_some h
    rw [inj_on_of_nodup_map c.ids_nodup (mem_of_find?_eq_some h) hn hm]

theorem serverId_resolve {t'} (h : c.resolve t = some t') : t'.serverId = t.serverId := by
  obtain ⟨n, -, rfl⟩ := Option.map_eq_some_iff.1 h
  rfl

theorem countP_resolve (hn : n ∈ c.nodes) (targets : List RouteTarget) :
    (targets.filterMap c.resolve).countP (·.serverId == n.serverId) =
      targets.countP (·.serverId == n.serverId) := by
  rw [countP_filterMap]
  refine countP_congr fun t _ => ?_
  cases hr : c.resolve t with
  | some t' => simp [serverId_resolve hr]
  | none =>
    have hg : c.getNode t.serverId = none := by simpa [resolve] using hr
    have hne : t.serverId ≠ n.serverId := by
      intro h
      rw [h, getNode_of_mem hn] at hg
      cases hg
    simp [hne]

/-- A target with the address of its node, which is not the publisher's. -/
def AddressedTo (c : Cluster) (publisher : Str) (t : RouteTarget) : Prop :=
  t.serverId ≠ publisher ∧
    ∃ n ∈ c.nodes, t.serverId = n.serverId ∧ t.host = n.host ∧ t.forwardingPort = n.forwardingPort

theorem addressedTo_resolve {t'} (h : c.resolve t = some t') (hne : t.serverId ≠ publisher) :
    AddressedTo c publisher t' := by
  obtain ⟨n, hn, rfl⟩ := Option.map_eq_some_iff.1 h
  have hid : n.serverId = t.serverId := by simpa using List.find?_some hn
  exact ⟨hne, n, mem_of_find?_eq_some hn, hid.symm, rfl, rfl⟩

/-- Every request is handled before the deadline that it carries. -/
def Choices.InTime (ch : Choices) (expiry : Option Nat) : Prop :=
  ∀ interval ∈ expiry, ∀ i, ch.receivedMs i < ch.sentMs i + interval * 1000

/-- The durable stores of the other nodes are not asked: those that have one get neither QoS
above 0 nor a retained publication. -/
def Cluster.StoresAside (c : Cluster) (publisher : Str) (p : Publication) : Prop :=
  ∀ n ∈ c.nodes, n.serverId ≠ publisher → c.durable n.serverId → p.qos = 0 ∧ p.retain = false

variable {expiry : Option Nat}

theorem remaining_ne_zero (hexpiry : expiry ≠ some 0) (htime : ch.InTime expiry) (i : Nat) :
    ((expiry.map (expiryDeadline (ch.sentMs i))).map (remainingExpiry (ch.receivedMs i)) ==
      some 0) = false := by
  cases expiry with
  | none => rfl
  | some interval =>
    have hpos : interval ≠ 0 := fun h => hexpiry (by rw [h])
    have hlt := htime interval rfl i
    have hne : remainingExpiry (ch.receivedMs i) (expiryDeadline (ch.sentMs i) interval) ≠ 0 := by
      rw [expiryDeadline, if_neg hpos, remainingExpiry, if_neg (by omega)]
      omega
    simpa using hne

theorem forwardPublishByTopic_eq {answer} (hexpiry : (expiry == some 0) = false)
    (hstore : c.durable server → p.qos = 0 ∧ p.retain = false) :
    c.forwardPublishByTopic server expiry answer o sort p =
      .ok { live := c.nodeDeliveries server o sort p } := by
  cases hdurable : c.durable server with
  | false => simp [forwardPublishByTopic, storePublish, hdurable, hexpiry]
  | true =>
    obtain ⟨hqos, hretain⟩ := hstore hdurable
    simp [forwardPublishByTopic, storePublish, hdurable, hexpiry, hqos, hretain]

theorem find_address (hn : n ∈ c.nodes) :
    c.nodes.find? (fun m => m.host == n.host && m.forwardingPort == n.forwardingPort) = some n := by
  cases hf : c.nodes.find? fun m => m.host == n.host && m.forwardingPort == n.forwardingPort with
  | none => simpa using List.find?_eq_none.1 hf n hn
  | some m =>
    have hm : m.host = n.host ∧ m.forwardingPort = n.forwardingPort := by
      simpa using List.find?_some hf
    rw [inj_on_of_nodup_map c.addresses_nodup (mem_of_find?_eq_some hf) hn (Prod.ext hm.1 hm.2)]

section Requests

variable (hexpiry : expiry ≠ some 0) (htime : ch.InTime expiry)
  (hstores : c.StoresAside publisher p)
include hexpiry htime hstores

theorem forwardPublish_of_addressed (h : AddressedTo c publisher t) (i : Nat) :
    c.forwardPublish t.host t.forwardingPort ch i expiry p =
      .ok (t.serverId, { live := c.nodeDeliveries t.serverId ch.order (ch.requestSort i) p }) := by
  obtain ⟨hne, n, hn, hid, hhost, hport⟩ := h
  have hvalid : ¬ (n.host = [] ∨ n.forwardingPort = 0) := not_or.2 (c.reachable n hn)
  rw [hid] at hne
  rw [hid, hhost, hport]
  simp only [forwardPublish, if_neg hvalid, find_address hn,
    forwardPublishByTopic_eq _ _ (remaining_ne_zero hexpiry htime i) (hstores n hn hne)]

/-- Each target is one request to its node. -/
theorem forwardAll_eq : ∀ {targets}, (∀ t ∈ targets, AddressedTo c publisher t) → ∀ i,
    c.forwardAll ch expiry p i targets =
      .ok ((targets.zipIdx i).map fun t => (t.1.serverId,
        { live := c.nodeDeliveries t.1.serverId ch.order (ch.requestSort t.2) p }))
  | [], _, _ => rfl
  | t :: ts, h, i => by
    rw [forwardAll, forwardPublish_of_addressed hexpiry htime hstores (h t mem_cons_self),
      forwardAll_eq (fun s hs => h s (mem_cons_of_mem _ hs)) (i + 1)]
    rfl

end Requests

/-! ## Counting requests -/

/-- The number of forwarding requests that a publication causes to a node other than the
publisher's: one per routed id that names the node, and one for a retained publication
when there is none. -/
def Cluster.requestsTo (c : Cluster) (p : Publication) (server : Str) : Nat :=
  let routed := (c.routedIds p).countP (serverPart · == server)
  if p.retain ∧ routed = 0 then 1 else routed

theorem addressedTo_retainTargets {qos available} :
    ∀ t ∈ c.retainTargets publisher qos available, AddressedTo c publisher t := by
  intro t ht
  obtain ⟨n, hn, rfl⟩ := mem_map.1 ht
  obtain ⟨hmem, hother⟩ := mem_filter.1 hn
  exact ⟨(of_decide_eq_true hother).1, n, hmem, rfl, rfl, rfl⟩

theorem countP_retainTargets (hn : n ∈ c.nodes) (hp : n.serverId ≠ publisher) (qos : Nat)
    (available : List RouteTarget) :
    (c.retainTargets publisher qos available).countP (·.serverId == n.serverId) =
      if available.countP (·.serverId == n.serverId) = 0 then 1 else 0 := by
  have hnone : available.countP (·.serverId == n.serverId) = 0 ↔
      available.all (fun t => t.serverId ≠ n.serverId) := by
    simp [countP_eq_zero, all_eq_true]
  rw [retainTargets, countP_map, countP_filter]
  have hsame : ∀ m ∈ c.nodes, m.serverId = n.serverId → m = n := fun m hm h =>
    inj_on_of_nodup_map c.ids_nodup hm hn h
  split_ifs with ha
  · rw [← count_eq_one_of_mem (c.ids_nodup.of_map _) hn, List.count]
    refine countP_congr fun m hm => ?_
    simp only [Function.comp_apply, Bool.and_eq_true, beq_iff_eq, decide_eq_true_eq]
    constructor
    · intro h
      exact hsame m hm h.1
    · rintro rfl
      exact ⟨rfl, hp, hnone.1 ha⟩
  · rw [countP_eq_zero]
    intro m hm
    simp only [Function.comp_apply, Bool.and_eq_true, beq_iff_eq, decide_eq_true_eq]
    rintro ⟨hid, -, hall⟩
    rw [hid] at hall
    exact ha (hnone.2 hall)

/-- The requests that a publication causes, node by node. -/
theorem forwardPublishCluster_ok (hexpiry : expiry ≠ some 0) (htime : ch.InTime expiry)
    (hstores : c.StoresAside publisher p) :
    ∃ targets : List RouteTarget, (∀ n ∈ c.nodes, n.serverId ≠ publisher →
        targets.countP (·.serverId == n.serverId) = c.requestsTo p n.serverId) ∧
      c.forwardPublishCluster ch publisher expiry p =
        .ok { atPublisher :=
                c.forwardPublishByTopic publisher expiry ch.localAnswer ch.order ch.localSort p
              forwarded := (targets.zipIdx 0).map fun t => (t.1.serverId,
                { live := c.nodeDeliveries t.1.serverId ch.order (ch.requestSort t.2) p }) } := by
  obtain ⟨found, hfound, hothers, hcount⟩ :=
    findRouteTargets_ok (c := c) (p := p) ch.order ch.routerSort publisher
  set available := found.filterMap c.resolve with hav
  set targets := if p.retain then available ++ c.retainTargets publisher p.qos available
    else available with htargets
  have haddr : ∀ t ∈ targets, AddressedTo c publisher t := by
    have havail : ∀ t ∈ available, AddressedTo c publisher t := by
      intro t ht
      obtain ⟨t₀, ht₀, hr⟩ := mem_filterMap.1 ht
      exact addressedTo_resolve hr (hothers t₀ ht₀)
    intro t ht
    rw [htargets] at ht
    split at ht
    · rcases mem_append.1 ht with ht | ht
      · exact havail t ht
      · exact addressedTo_retainTargets t ht
    · exact havail t ht
  refine ⟨targets, ?_, ?_⟩
  · intro n hn hp
    have hbase : available.countP (·.serverId == n.serverId) =
        (c.routedIds p).countP (serverPart · == n.serverId) := by
      rw [hav, countP_resolve hn, hcount _ hp]
    rw [htargets, requestsTo]
    cases p.retain with
    | false => simpa using hbase
    | true =>
      rw [if_pos rfl, countP_append, countP_retainTargets hn hp, hbase]
      by_cases h0 : (c.routedIds p).countP (serverPart · == n.serverId) = 0 <;> simp [h0]
  · have hroute : c.handlePublishRoute ch publisher p =
        if targets.isEmpty then .error .routeEmpty else .ok targets := by
      simp only [handlePublishRoute, hfound]
      rfl
    simp only [forwardPublishCluster, hroute]
    cases hne : targets.isEmpty with
    | true =>
      have hnil : targets = [] := isEmpty_iff.1 hne
      simp [hnil]
    | false => simp [forwardAll_eq hexpiry htime hstores haddr]

/-! ## Copies -/

theorem countP_nodeDeliveries : (c.nodeDeliveries server o sort p).countP (·.clientId == client) =
      if client ∈ (c.nodeDeliveries server o sort p).map (·.clientId) then 1 else 0 := by
  have hnd := nodup_liveDeliveries (c.brokerTree server) o sort p c.implicitNoLocal
  have hcount := hnd.count (a := client)
  rwa [List.count, countP_map] at hcount

/-- The copies that a client gets are those of the requests to its node. -/
theorem received_eq (targets : List RouteTarget) (atPublisher : Except RouteError NodeDeliveries) :
    ClusterResult.received
      { atPublisher
        forwarded := (targets.zipIdx 0).map fun t => (t.1.serverId,
          { live := c.nodeDeliveries t.1.serverId ch.order (ch.requestSort t.2) p }) }
      server client =
    (((targets.zipIdx 0).filter fun t => t.1.serverId == server).map fun t =>
      (c.nodeDeliveries server ch.order (ch.requestSort t.2) p).countP
        (·.clientId == client)).sum := by
  simp only [ClusterResult.received, filter_map, map_map]
  congr 1
  refine map_congr_left fun t ht => ?_
  have hid : t.1.serverId = server := by simpa using (mem_filter.1 ht).2
  simp [hid, NodeDeliveries.copies]

theorem length_requests (server : Str) (targets : List RouteTarget) :
    ((targets.zipIdx 0).filter fun t => t.1.serverId == server).length =
      targets.countP (·.serverId == server) := by
  rw [← countP_eq_length_filter]
  conv_rhs => rw [← zipIdx_map_fst 0 targets, countP_map]
  rfl

/-- A client connected to a node has a matching subscription. -/
def Cluster.Subscribed (c : Cluster) (p : Publication) (server client : Str) : Prop :=
  ∃ s ∈ c.subscriptions, s.server = server ∧ s.client = client ∧
    accepts s.filter s.client ∧ mqttMatches s.filter p.topic

/-- The node's own fan-out reaches the client: it holds an entry on the topic's path, and
No Local suppresses none of them. -/
def Cluster.Reached (c : Cluster) (p : Publication) (server client : Str) : Prop :=
  (∃ s, HeldFor (c.brokerTree server) p s ∧ s.clientId = client) ∧
    ∀ s, HeldFor (c.brokerTree server) p s → s.clientId = client →
      suppressed p.sender c.implicitNoLocal s.clientId s.noLocal = false

instance : Decidable (c.Reached p server client) :=
  let found := Node.collect .listed true (splitLevels p.topic) (c.brokerTree server).root
  decidable_of_iff ((∃ s ∈ found, s.clientId = client) ∧ ∀ s ∈ found, s.clientId = client →
      suppressed p.sender c.implicitNoLocal s.clientId s.noLocal = false) (by
    simp only [found, mem_collect_iff_heldFor, Reached])

/-- For a publication that reaches every node in time and no durable store, every remote
subscriber gets exactly one copy, whatever the sets' orders and the sorts, exactly when the
node of each gets exactly one request and its own fan-out reaches it. -/
theorem cluster_once_iff {c : Cluster} {publisher : Str} {expiry : Option Nat} {p : Publication}
    (hexpiry : expiry ≠ some 0) (hstores : c.StoresAside publisher p) :
    (∀ ch : Choices, ch.InTime expiry → ∃ r, c.forwardPublishCluster ch publisher expiry p = .ok r ∧
      ∀ n ∈ c.nodes, n.serverId ≠ publisher → ∀ client, c.Subscribed p n.serverId client →
        r.received n.serverId client = 1) ↔
      ∀ n ∈ c.nodes, n.serverId ≠ publisher → ∀ client, c.Subscribed p n.serverId client →
        c.requestsTo p n.serverId = 1 ∧ c.Reached p n.serverId client := by
  constructor
  · intro h n hn hp client hsub
    -- With one sort for every request the copies are requests times copies per request.
    have hmul : ∀ o sort, c.requestsTo p n.serverId *
        (if client ∈ (c.nodeDeliveries n.serverId o sort p).map (·.clientId) then 1 else 0) =
          1 := by
      intro o sort
      let ch : Choices := { order := o, routerSort := sort, localSort := sort,
                            requestSort := fun _ => sort, receivedMs := fun _ => -1 }
      have htime : ch.InTime expiry := by
        intro interval _ i
        simp only [ch]
        omega
      obtain ⟨targets, hcount, hok⟩ := forwardPublishCluster_ok hexpiry htime hstores
      obtain ⟨r, hr, hone⟩ := h ch htime
      rw [hok] at hr
      cases hr
      have hone := hone n hn hp client hsub
      rw [received_eq] at hone
      simp only [ch, countP_nodeDeliveries, map_const', sum_replicate_nat,
        length_requests, hcount n hn hp] at hone
      exact hone
    have hall : ∀ o sort, client ∈ (c.nodeDeliveries n.serverId o sort p).map (·.clientId) := by
      intro o sort
      by_contra hno
      have := hmul o sort
      rw [if_neg hno] at this
      omega
    refine ⟨?_, always_reached_iff.1 hall⟩
    have := hmul .listed (stable _)
    rwa [if_pos (hall _ _), Nat.mul_one] at this
  · intro h ch htime
    obtain ⟨targets, hcount, hok⟩ := forwardPublishCluster_ok hexpiry htime hstores
    refine ⟨_, hok, fun n hn hp client hsub => ?_⟩
    obtain ⟨hreq, hreach⟩ := h n hn hp client hsub
    have hlen := (length_requests n.serverId targets).trans (hcount n hn hp)
    rw [hreq] at hlen
    obtain ⟨t, ht⟩ := length_eq_one_iff.1 hlen
    rw [received_eq, ht]
    have hmem : client ∈
        (c.nodeDeliveries n.serverId ch.order (ch.requestSort t.2) p).map (·.clientId) :=
      always_reached_iff.2 hreach ch.order (ch.requestSort t.2)
    rw [map_singleton, sum_singleton, countP_nodeDeliveries, if_pos hmem]

def twoSubscribers : Cluster where
  nodes := [⟨[0x41], [0x61], 1, 1⟩, ⟨[0x42], [0x62], 1, 1⟩]
  subscriptions := [⟨[0x42], [0x78], [0x61], {}⟩, ⟨[0x42], [0x79], [0x61], {}⟩]
  implicitNoLocal := false
  ids_nodup := by decide
  addresses_nodup := by decide
  reachable := by decide
  client_ne := by decide

def plainChoices : Choices :=
  { order := .listed, routerSort := stable _, localSort := stable _,
    requestSort := fun _ => stable _ }

/-- A publication to `a` on the first node reaches each of the two clients twice. -/
theorem twoSubscribers_duplicated :
    ∃ ch r, twoSubscribers.forwardPublishCluster ch [0x41] none ownPublication = .ok r ∧
      r.received [0x42] [0x78] = 2 ∧ r.received [0x42] [0x79] = 2 :=
  ⟨plainChoices, _, rfl, by decide, by decide⟩

/-- One subscriber on each of two further nodes; the publisher's node has a durable store. -/
def spreadSubscribers : Cluster where
  nodes := [⟨[0x41], [0x61], 1, 1⟩, ⟨[0x42], [0x62], 1, 1⟩, ⟨[0x43], [0x63], 1, 1⟩]
  subscriptions := [⟨[0x42], [0x78], [0x61], {}⟩, ⟨[0x43], [0x79], hashLevel, {}⟩]
  implicitNoLocal := false
  durable := (· == [0x41])
  ids_nodup := by decide
  addresses_nodup := by decide
  reachable := by decide
  client_ne := by decide

theorem cluster_once_spread :
    ∃ ch r, ch.InTime (some 5) ∧
      spreadSubscribers.forwardPublishCluster ch [0x41] (some 5) ownPublication = .ok r ∧
      r.received [0x42] [0x78] = 1 ∧ r.received [0x43] [0x79] = 1 := by
  have hstores : spreadSubscribers.StoresAside [0x41] ownPublication := by
    rw [StoresAside]
    decide
  have hsingle : ∀ n ∈ spreadSubscribers.nodes, n.serverId ≠ [0x41] →
      ∀ s ∈ spreadSubscribers.subscriptions, s.server = n.serverId →
        spreadSubscribers.requestsTo ownPublication n.serverId = 1 ∧
          spreadSubscribers.Reached ownPublication n.serverId s.client := by
    decide
  have htime : plainChoices.InTime (some 5) := by
    rintro _ ⟨⟩ i
    simp [plainChoices]
  obtain ⟨r, hr, hone⟩ := (cluster_once_iff (by decide) hstores).2
    (fun n hn hne _ ⟨s, hs, hserver, hclient, _⟩ => hclient ▸ hsingle n hn hne s hs hserver)
    plainChoices htime
  refine ⟨plainChoices, r, htime, hr, ?_, ?_⟩
  · exact hone ⟨[0x42], [0x62], 1, 1⟩ (by decide) (by decide) [0x78]
      ⟨⟨[0x42], [0x78], [0x61], {}⟩, by decide⟩
  · exact hone ⟨[0x43], [0x63], 1, 1⟩ (by decide) (by decide) [0x79]
      ⟨⟨[0x43], [0x79], hashLevel, {}⟩, by decide⟩

end Mqtts
