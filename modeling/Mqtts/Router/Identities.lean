import Mqtts.Cluster.Once
import Mqtts.Router.Agreement

/-!
# Which subscriptions the router can tell apart

The router joins the server and the client id with an `@`, and splits at the first one. The triple
that is unsubscribed need not be subscribed: `unsubscribe` of `n@m` and `b` finds the client `m@b`
of `n`, and of the filter `a/` the filter `a`.
-/

namespace Mqtts

open List TopicTree

namespace Router

structure Triple where
  server : Str
  client : Str
  filter : Str
  deriving DecidableEq

namespace Triple

variable (s : Triple)

def full : Str := makeFullClientId s.server s.client

def key : Str := makeSubscriptionKey s.server s.client s.filter

end Triple

def accepted (subs : List Triple) : List Triple :=
  subs.filter fun s => accepts s.filter s.full

variable (qos : Triple → UInt8)

def registered (subs : List Triple) : PersistentTree :=
  subs.foldl (fun t s => (t.subscribe s.server s.filter s.client (qos s)).2) .new

variable {subs : List Triple} {qos}

open Triple

theorem tree_registered : (registered qos subs).tree = runOps (subs.map fun s =>
    .subscribe s.full s.filter { qos := (qos s).toNat }) := by
  rw [runOps, foldl_map]
  refine (foldl_hom PersistentTree.tree fun t s => ?_).symm
  rw [TreeOp.apply, PersistentTree.subscribe, full]
  cases t.tree.subscribe s.filter (makeFullClientId s.server s.client) _ <;> rfl

theorem has_registered {path x} : ((registered qos subs).tree.root.subscribersAt path).has x ↔
    ∃ s ∈ accepted subs, s.full = x ∧ splitLevels s.filter = path := by
  rw [tree_registered, has_runOps]
  · simp only [mem_map, TreeOp.subscribe.injEq, accepted, mem_filter]
    constructor
    · rintro ⟨_, _, ⟨s, hs, rfl, rfl, -⟩, ha, hp⟩
      exact ⟨s, ⟨hs, ha⟩, rfl, hp⟩
    · rintro ⟨s, ⟨hs, ha⟩, rfl, hp⟩
      exact ⟨_, _, ⟨s, hs, rfl, rfl, rfl⟩, ha, hp⟩
  · intro op hop
    obtain ⟨s, -, rfl⟩ := mem_map.1 hop
    exact ⟨_, _, _, rfl⟩

/-- The pairs that the router returns. -/
theorem mem_targets {o sort topic} (publisher : Str) (h0 : topic ≠ []) (hl : topic.length ≤ 65535) :
    ∃ targets, findRouteTargets (registered qos subs).tree o sort topic publisher = .ok targets ∧
      ∀ server client, (∃ t ∈ targets, t.serverId = server ∧ t.clientId = client) ↔
        ∃ s ∈ accepted subs, (serverPart s.full = server ∧ clientPart s.full = client) ∧
          filterMatches (splitLevels s.filter) (splitLevels topic) ∧ server ≠ publisher := by
  set found := SortUnique.sortUnique sort
    ((registered qos subs).tree.root.collect o true (splitLevels topic))
  have hfound : ∀ x, (∃ i ∈ found, i.clientId = x) ↔ ∃ s ∈ accepted subs, s.full = x ∧
      filterMatches (splitLevels s.filter) (splitLevels topic) := by
    intro x
    constructor
    · rintro ⟨i, hi, rfl⟩
      obtain ⟨path, hm, hi⟩ := (Node.mem_collect _ _).1 (SortUnique.mem_of_mem_sortUnique hi)
      obtain ⟨s, hs, he, rfl⟩ := has_registered.1 (SubscriberSet.has_iff.2 ⟨i, hi, rfl⟩)
      exact ⟨s, hs, he, hm⟩
    · rintro ⟨s, hs, rfl, hm⟩
      obtain ⟨i, hi, he⟩ := SubscriberSet.has_iff.1 (has_registered.2 ⟨s, hs, rfl, rfl⟩)
      obtain ⟨j, hj, hk⟩ :=
        SortUnique.exists_mem_sortUnique sort ((Node.mem_collect _ _).2 ⟨_, hm, hi⟩)
      exact ⟨j, hj, hk.trans he⟩
  refine ⟨(found.filter fun i => serverPart i.clientId ≠ publisher).map targetOf, ?_,
    fun server client => ?_⟩
  · simp only [findRouteTargets, findSubscribers, splitTopicLevels, h0, if_false, Nat.not_lt.2 hl]
    refine routeTargetsOf_eq publisher fun i hi => ?_
    obtain ⟨s, -, he, -⟩ := (hfound _).1 ⟨i, hi, rfl⟩
    rw [← he]
    simp [full, makeFullClientId]
  · simp only [mem_map, mem_filter, decide_eq_true_eq]
    constructor
    · rintro ⟨_, ⟨i, ⟨hi, hne⟩, rfl⟩, rfl, rfl⟩
      obtain ⟨s, hs, he, hm⟩ := (hfound _).1 ⟨i, hi, rfl⟩
      exact ⟨s, hs, he ▸ ⟨rfl, rfl⟩, hm, hne⟩
    · rintro ⟨s, hs, ⟨rfl, rfl⟩, hm, hne⟩
      obtain ⟨i, hi, he⟩ := (hfound _).2 ⟨s, hs, rfl, hm⟩
      rw [← he] at hne ⊢
      exact ⟨_, ⟨i, ⟨hi, hne⟩, rfl⟩, rfl, rfl⟩

theorem parts_full {server client : Str} (h : atSign ∉ server) :
    serverPart (makeFullClientId server client) = server ∧
      clientPart (makeFullClientId server client) = client := by
  have hs : ∀ c ∈ server, decide (c ≠ atSign) := fun c hc => by
    simpa using ne_of_mem_of_not_mem hc h
  rw [serverPart, clientPart, makeFullClientId, takeWhile_append_of_pos hs,
    dropWhile_append_of_pos hs]
  simp

theorem makeFullClientId_inj {server client server' client'} (h : atSign ∉ server)
    (h' : atSign ∉ server')
    (he : makeFullClientId server client = makeFullClientId server' client') :
    server = server' ∧ client = client' := by
  have hparts := @parts_full _ client h
  rw [he, (parts_full h').1, (parts_full h').2] at hparts
  exact ⟨hparts.1.symm, hparts.2.symm⟩

/-- The removal of `x` finds the subscription `s` in the tree: the same text before and after
the `@`, and the same levels. -/
def Triple.Hits (x s : Triple) : Prop :=
  x.full = s.full ∧ splitLevels x.filter = splitLevels s.filter ∧ x.filter.length ≤ 65535

theorem filter_ne_of_hits {x s : Triple} (hs : s ∈ accepted subs) (h : x.Hits s) :
    x.filter ≠ [] := by
  intro hx
  have hlevels := h.2.1
  rw [hx] at hlevels
  exact splitLevels_ne_nil (valid_of_accepts (mem_filter.1 hs).2).1 hlevels.symm

theorem full_ne (x : Triple) : x.full ≠ [] := by
  rw [full, makeFullClientId]
  simp

/-- The router tells the subscriptions apart, and the removal of `x` leaves the others alone,
when no server id has an `@` in it, two subscriptions of a server differ in their text after it,
and the removal of `x` finds no other subscription. -/
theorem identities_iff (qos : Triple → UInt8) (subs : List Triple) (x : Triple) :
    ((∀ o sort topic publisher, topic ≠ [] → topic.length ≤ 65535 → ∃ targets,
      findRouteTargets (registered qos subs).tree o sort topic publisher = .ok targets ∧
        ∀ server client, (∃ t ∈ targets, t.serverId = server ∧ t.clientId = client) ↔
          ∃ s ∈ accepted subs, (s.server = server ∧ s.client = client) ∧
            filterMatches (splitLevels s.filter) (splitLevels topic) ∧ server ≠ publisher) ∧
      (∀ s ∈ accepted subs, ∀ s' ∈ accepted subs, s ≠ s' → s.key ≠ s'.key) ∧
      ∀ s ∈ accepted subs, x ≠ s →
        ((registered qos subs).unsubscribe x.server x.filter x.client).2.entries[s.key]? =
            (registered qos subs).entries[s.key]? ∧
          ((registered qos subs).unsubscribe x.server x.filter x.client).2.tree.HeldAt s.full
            (splitLevels s.filter)) ↔
    (∀ s ∈ accepted subs, atSign ∉ s.server ∧ ∀ s' ∈ accepted subs, s ≠ s' →
      s.server = s'.server → s.client ++ atSign :: s.filter ≠ s'.client ++ atSign :: s'.filter) ∧
      ∀ s ∈ accepted subs, x ≠ s → ¬ x.Hits s := by
  constructor
  · rintro ⟨hpairs, hkeys, hkept⟩
    refine ⟨fun s hs => ⟨fun hat => ?_, fun s' hs' hne hserver hrest => ?_⟩,
      fun s hs hne hhits => ?_⟩
    · -- the filter is a topic that it matches
      obtain ⟨h0, -, hl⟩ := valid_of_accepts (mem_filter.1 hs).2
      obtain ⟨targets, hok, hiff⟩ := hpairs .listed (SortUnique.stable _) s.filter [] h0 hl
      obtain ⟨targets', hok', hiff'⟩ := mem_targets [] h0 hl
      cases hok.symm.trans hok'
      have h := (hiff _ _).2 ⟨s, hs, ⟨rfl, rfl⟩, filterMatches_self _, ne_nil_of_mem hat⟩
      obtain ⟨s', -, ⟨he, -⟩, -⟩ := (hiff' _ _).1 h
      rw [← he] at hat
      simpa using mem_takeWhile_imp hat
    · refine hkeys s hs s' hs' hne ?_
      rw [key, makeSubscriptionKey, hserver, hrest]
      rfl
    · obtain ⟨hfull, hlevels, hl⟩ := hhits
      have hheld := (hkept s hs hne).2
      obtain ⟨t, hok⟩ := exists_unsubscribe.2
        ⟨⟨filter_ne_of_hits hs ⟨hfull, hlevels, hl⟩, full_ne x, hl⟩,
          (@has_registered qos subs _ _).2 ⟨s, hs, hfull.symm, hlevels.symm⟩⟩
      rw [PersistentTree.unsubscribe, ← full, hok] at hheld
      exact ((has_unsubscribe hok).1 hheld).2 ⟨hfull.symm, hlevels⟩
  · rintro ⟨h, hx⟩
    have hkeys : ∀ s ∈ accepted subs, ∀ s' ∈ accepted subs, s ≠ s' → s.key ≠ s'.key := by
      intro s hs s' hs' hne he
      obtain ⟨hserver, hrest⟩ := makeFullClientId_inj (h s hs).1 (h s' hs').1 he
      exact (h s hs).2 s' hs' hne hserver hrest
    refine ⟨fun o sort topic publisher h0 hl => ?_, hkeys, fun s hs hne => ?_⟩
    · obtain ⟨targets, hok, hiff⟩ := mem_targets publisher h0 hl
      refine ⟨targets, hok, fun server client => (hiff _ _).trans (exists_congr fun s =>
        and_congr_right fun hs => ?_)⟩
      rw [full, (parts_full (h s hs).1).1, (parts_full (h s hs).1).2]
    · have hheld := (@has_registered qos subs _ _).2 ⟨s, hs, rfl, rfl⟩
      rw [PersistentTree.unsubscribe]
      cases hok : (registered qos subs).tree.unsubscribe x.filter
          (makeFullClientId x.server x.client) with
      | error e => exact ⟨rfl, hheld⟩
      | ok t =>
        -- What the removal found can only be `x` itself, so `x` is a subscription too.
        obtain ⟨⟨-, -, hl⟩, hhas⟩ := exists_unsubscribe.1 ⟨t, hok⟩
        obtain ⟨s', hs', hfull, hlevels⟩ := has_registered.1 hhas
        have heq : x = s' := by
          by_contra hne'
          exact hx s' hs' hne' ⟨hfull.symm, hlevels.symm, hl⟩
        subst heq
        refine ⟨?_, (has_unsubscribe hok).2 ⟨hheld, fun heq => ?_⟩⟩
        · exact (Maps.get_erase _ _ _).trans (if_neg (hkeys x hs' s hs hne))
        · exact hx s hs hne ⟨heq.1.symm, heq.2, hl⟩

/-- The client `b` of the server `n@m` and the client `m@b` of `n` are one to the router. -/
theorem servers_mixed : ∃ x s : Triple, x ≠ s ∧ accepted [x, s] = [x, s] ∧ x.key = s.key ∧
    ∀ t : PersistentTree, t.unsubscribe x.server x.filter x.client =
      t.unsubscribe s.server s.filter s.client :=
  ⟨⟨[0x6e, 0x40, 0x6d], [0x62], [0x61]⟩, ⟨[0x6e], [0x6d, 0x40, 0x62], [0x61]⟩, by decide,
    by decide, rfl, fun _ => rfl⟩

end Router

end Mqtts
