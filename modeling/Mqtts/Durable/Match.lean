import Mqtts.Durable.Restore
import Mqtts.Durable.StateSpec
import Mqtts.Lib.Runs
import Mathlib.Data.List.Nodup

/-!
# Matching a topic against the stored subscriptions

`match` answers from the index, and the answer is the one of a scan over all subscriptions.
`set_subscription`, `erase_session` and `rebuild_indexes` establish or keep what ties the index to
the sessions, in runs of them in any order.
-/

namespace Mqtts.Durable

open Option List Maps
open Std (ExtTreeMap)

namespace Store

variable {s s' : Store}

/-! ## The subscriptions that belong into the index -/

def sessionEntries (c : Str) (t : Session) : List (Str × IndexedSubscription) :=
  t.subscriptions.toList.filterMap fun sub =>
    if sub.2.qos = 0 then none else some (c, ⟨t.object, sub.1⟩)

/-- The subscriptions that belong into the index: a rebuilt index is the fold of `add` over them. -/
def indexedEntries (s : Store) : List (Str × IndexedSubscription) :=
  s.sessions.toList.flatMap fun e => sessionEntries e.1 e.2

def listed (s : Store) (c filter : Str) : Option Nat :=
  (s.sessions[c]?).bind fun t =>
    (t.subscriptions[filter]?).bind fun sub => if sub.qos = 0 then none else some t.object

def Lists (s : Store) (c : Str) (e : IndexedSubscription) : Prop :=
  s.listed c e.filter = some e.object

variable {c : Str} {t : Session}

theorem mem_sessionEntries {c' e} : (c', e) ∈ sessionEntries c t ↔
    c' = c ∧ t.object = e.object ∧
      ∃ sub, t.subscriptions[e.filter]? = some sub ∧ sub.qos ≠ 0 := by
  obtain ⟨object, filter⟩ := e
  rw [sessionEntries, mem_filterMap]
  constructor
  · rintro ⟨⟨f, sub⟩, hmem, h⟩
    rw [ExtTreeMap.mem_toList_iff_getElem?_eq_some] at hmem
    by_cases hq : sub.qos = 0
    · simp [hq] at h
    · simp only [hq, if_false, Option.some.injEq, Prod.mk.injEq, IndexedSubscription.mk.injEq] at h
      obtain ⟨rfl, rfl, rfl⟩ := h
      exact ⟨rfl, rfl, sub, hmem, hq⟩
  · rintro ⟨rfl, rfl, sub, hsub, hq⟩
    refine ⟨(filter, sub), ExtTreeMap.mem_toList_iff_getElem?_eq_some.2 hsub, ?_⟩
    rw [if_neg hq]

theorem mem_indexedEntries {e} : (c, e) ∈ s.indexedEntries ↔ s.Lists c e := by
  rw [indexedEntries, mem_flatMap, Lists, listed, bind_eq_some_iff]
  constructor
  · rintro ⟨⟨c', t⟩, hmem, h⟩
    obtain ⟨rfl, hobject, sub, hsub, hq⟩ := mem_sessionEntries.1 h
    refine ⟨t, ExtTreeMap.mem_toList_iff_getElem?_eq_some.1 hmem, ?_⟩
    rw [hsub, bind_some, if_neg hq, hobject]
  · rintro ⟨t, ht, h⟩
    obtain ⟨sub, hsub, hq⟩ := bind_eq_some_iff.1 h
    split at hq
    · cases hq
    · rename_i hq'
      exact ⟨(c, t), ExtTreeMap.mem_toList_iff_getElem?_eq_some.2 ht,
        mem_sessionEntries.2 ⟨rfl, Option.some.inj hq, sub, hsub, hq'⟩⟩

theorem nodup_sessionEntries (c : Str) (t : Session) : (sessionEntries c t).Nodup := by
  refine pairwise_filterMap.2 (ExtTreeMap.distinct_keys_toList.imp ?_)
  rintro ⟨f, sub⟩ ⟨f', sub'⟩ hne b hb b' hb' rfl
  refine hne ?_
  split_ifs at hb
  split_ifs at hb'
  simp only [Option.some.injEq] at hb hb'
  rw [← hb] at hb'
  simp only [Prod.mk.injEq, IndexedSubscription.mk.injEq] at hb'
  exact Std.LawfulEqOrd.compare_eq_iff_eq.2 hb'.2.2.symm

theorem nodup_indexedEntries (s : Store) : s.indexedEntries.Nodup := by
  rw [indexedEntries, nodup_flatMap]
  refine ⟨fun e _ => nodup_sessionEntries e.1 e.2, ExtTreeMap.distinct_keys_toList.imp ?_⟩
  rintro ⟨c, t⟩ ⟨c', t'⟩ hne ⟨c'', e⟩ hmem hmem'
  have h1 := (mem_sessionEntries.1 hmem).1
  have h2 := (mem_sessionEntries.1 hmem').1
  exact hne (Std.LawfulEqOrd.compare_eq_iff_eq.2 (h1.symm.trans h2))

/-! ## The index against the sessions -/

/-- The index holds the subscriptions of QoS above 0, at the levels of their filters. -/
structure Indexed (s : Store) : Prop where
  indexing : s.indexing
  sound : s.index.Sound
  entries : ∀ p c e, s.index.get p c = some e ↔ p = topicLevels e.filter ∧ s.Lists c e

theorem Indexed.placed (h : s.Indexed) : s.index.Placed :=
  fun p c e hget => ((h.entries p c e).1 hget).1.symm

theorem listed_congr (h : SameHeads s s') (c filter : Str) :
    s'.listed c filter = s.listed c filter := by
  have hheads : ∀ s : Store, s.listed c filter = ((s.sessions[c]?).map head).bind (fun t =>
      (t.subscriptions[filter]?).bind fun sub => if sub.qos = 0 then none else some t.object) := by
    intro s
    rw [listed, bind_map]
    rfl
  rw [hheads, hheads, h c]

theorem Indexed.congr (h : s.Indexed) (hheads : SameHeads s s') (hindex : s'.index = s.index)
    (hindexing : s'.indexing = s.indexing) : s'.Indexed := by
  refine ⟨hindexing.trans h.indexing, hindex ▸ h.sound, fun p c e => ?_⟩
  rw [hindex, h.entries, Lists, Lists, listed_congr hheads]

theorem listed_removeSubscription (c filter c' filter' : Str) :
    (s.removeSubscription c filter).listed c' filter' =
      if c' = c ∧ filter' = filter then none else s.listed c' filter' := by
  rw [listed, sessions_removeSubscription, listed]
  by_cases hc : c = c'
  · subst hc
    rw [if_pos rfl, bind_map]
    simp only [Function.comp_def]
    by_cases hf : filter' = filter
    · subst hf
      simp
    · simp [hf, Ne.symm hf]
  · rw [if_neg hc, if_neg fun h => hc h.1.symm]

theorem index_removeSubscription (c filter : Str) : (s.removeSubscription c filter).index =
      if s.listed c filter = none then s.index else s.index.discard c filter := by
  rw [Store.removeSubscription, listed]
  cases ht : s.sessions[c]? with
  | none => rfl
  | some t =>
    rw [bind_some]
    dsimp only
    cases hsub : t.subscriptions[filter]? with
    | none => rfl
    | some previous =>
      by_cases hq : previous.qos = 0
      · simp [hq]
      · simp [hq, removeIndex]

theorem Indexed.removeSubscription (h : s.Indexed) (c filter : Str) :
    (s.removeSubscription c filter).Indexed := by
  have hindexing := (localTo_removeSubscription (s := s) c filter).rest.indexing
  have hindex := index_removeSubscription (s := s) c filter
  have hlisted := listed_removeSubscription (s := s) c filter
  by_cases hnone : s.listed c filter = none
  · -- nothing was listed, so nothing changes
    rw [if_pos hnone] at hindex
    refine ⟨hindexing.trans h.indexing, hindex ▸ h.sound, fun p c' e => ?_⟩
    rw [hindex, h.entries, Lists, Lists, hlisted]
    split
    · rename_i heq
      rw [heq.1, heq.2, hnone]
    · rfl
  · rw [if_neg hnone] at hindex
    refine ⟨hindexing.trans h.indexing, hindex ▸ h.sound.remove _ _, fun p c' e => ?_⟩
    rw [hindex, TopicIndex.discard, Arena.get_remove h.sound, Lists, hlisted]
    by_cases hp : p = topicLevels e.filter
    · subst hp
      have hiff : (topicLevels e.filter = topicLevels filter ∧ c' = c) ↔
          (c' = c ∧ e.filter = filter) :=
        ⟨fun hc => ⟨hc.2, topicLevels_injective hc.1⟩, fun hc => ⟨by rw [hc.2], hc.1⟩⟩
      rw [if_congr hiff rfl rfl]
      split
      · simp
      · exact h.entries _ _ _
    · constructor
      · intro hget
        split at hget
        · cases hget
        · exact absurd ((h.entries _ _ _).1 hget).1 hp
      · exact fun hc => absurd hc.1 hp

theorem listed_addSubscription (ht : s.sessions[c]? = some t) (filter : Str)
    (sub : StoredSubscription) (c' filter' : Str) :
    (s.addSubscription c filter sub).listed c' filter' =
      if c' = c ∧ filter' = filter then if sub.qos = 0 then none else some t.object
      else s.listed c' filter' := by
  rw [listed, sessions_addSubscription, listed]
  by_cases hc : c = c'
  · subst hc
    rw [if_pos rfl, ht]
    by_cases hf : filter' = filter
    · subst hf
      simp
    · simp [hf, Ne.symm hf]
  · rw [if_neg hc, if_neg fun h => hc h.1.symm]

theorem index_addSubscription (ht : s.sessions[c]? = some t) (filter : Str)
    (sub : StoredSubscription) : (s.addSubscription c filter sub).index =
      if sub.qos = 0 then s.index else s.index.add c t.object filter := by
  rw [Store.addSubscription, ht]
  by_cases hq : sub.qos = 0
  · simp [hq]
  · simp [hq, addIndex]

theorem get_add {index : TopicIndex} {Listed Listed' : Str → IndexedSubscription → Prop}
    (hsound : index.Sound)
    (hentries : ∀ p c e, index.get p c = some e ↔ p = topicLevels e.filter ∧ Listed c e)
    {filter object}
    (hlisted : ∀ c' e, Listed' c' e ↔ if c' = c ∧ e.filter = filter then e.object = object else
    Listed c' e) (p : List Str) (c' : Str) (e : IndexedSubscription) :
    (index.add c object filter).get p c' = some e ↔ p = topicLevels e.filter ∧ Listed' c' e := by
  obtain ⟨object', filter'⟩ := e
  rw [TopicIndex.add, Arena.get_insert hsound, hlisted]
  by_cases hnew : p = topicLevels filter ∧ c' = c
  · obtain ⟨rfl, rfl⟩ := hnew
    rw [if_pos ⟨rfl, rfl⟩]
    constructor
    · intro heq
      obtain ⟨rfl, rfl⟩ := IndexedSubscription.mk.inj (Option.some.inj heq)
      simp
    · rintro ⟨hp, hobject⟩
      obtain rfl := topicLevels_injective hp
      rw [if_pos ⟨rfl, rfl⟩] at hobject
      obtain rfl : object' = object := hobject
      rfl
  · rw [if_neg hnew, hentries]
    refine and_congr_right fun hp => ?_
    rw [if_neg fun hc => hnew ⟨hp.trans (by rw [hc.2]), hc.1⟩]

theorem Indexed.addSubscription (h : s.Indexed) {filter : Str} (hnone : s.listed c filter = none)
    (sub : StoredSubscription) : (s.addSubscription c filter sub).Indexed := by
  have hindexing := (localTo_addSubscription (s := s) c filter sub).rest.indexing
  cases ht : s.sessions[c]? with
  | none =>
    rw [Store.addSubscription, ht]
    exact h
  | some t =>
    have hindex := index_addSubscription ht filter sub
    have hlisted := listed_addSubscription ht filter sub
    by_cases hq : sub.qos = 0
    · simp only [hq, if_true] at hindex hlisted
      refine ⟨hindexing.trans h.indexing, hindex ▸ h.sound, fun p c' e => ?_⟩
      rw [hindex, h.entries, Lists, Lists, hlisted]
      split
      · rename_i heq
        rw [heq.1, heq.2, hnone]
      · rfl
    · simp only [hq, if_false] at hindex hlisted
      refine ⟨hindexing.trans h.indexing, hindex ▸ h.sound.insert _ _ _, fun p c' e => ?_⟩
      rw [hindex]
      refine get_add h.sound h.entries (fun c' e => ?_) p c' e
      rw [Lists, hlisted]
      split
      · rw [Option.some.injEq, eq_comm]
      · rfl

theorem Indexed.setSubscription (h : s.Indexed) (c filter : Str)
    (sub : Option StoredSubscription) : (s.setSubscription c filter sub).Indexed := by
  have hremove := h.removeSubscription c filter
  cases sub with
  | none => exact hremove
  | some sub =>
    refine hremove.addSubscription ?_ sub
    rw [listed_removeSubscription, if_pos ⟨rfl, rfl⟩]

/-! ## Erasing a session -/

theorem index_drop (c : Str) (id : Nat) : (s.drop c id).index = s.index := by
  rcases s.drop_cases c id with heq | ⟨t, d, ht, hd⟩
  · rw [heq]
  rw [drop_of_get ht hd]
  rfl

theorem index_scheduleSession (c : Str) (deadline : Int) :
    (s.scheduleSession c deadline).index = s.index := by
  cases ht : s.sessions[c]? with
  | none => rw [scheduleSession, ht]
  | some t => rw [scheduleSession_of_get ht]

theorem Indexed.drop (h : s.Indexed) (c : Str) (id : Nat) : (s.drop c id).Indexed :=
  h.congr (sameHeads_drop c id) (index_drop c id) (localTo_drop c id).rest.indexing

theorem Indexed.scheduleSession (h : s.Indexed) (c : Str) (deadline : Int) :
    (s.scheduleSession c deadline).Indexed :=
  h.congr (sameHeads_scheduleSession c deadline) (index_scheduleSession c deadline)
    (localTo_scheduleSession c deadline).rest.indexing

theorem Indexed.dropAll (h : s.Indexed) (c : Str) : (s.dropAll c).Indexed := by
  rw [Store.dropAll]
  cases s.sessions[c]? with
  | none => exact h
  | some t =>
    dsimp only
    generalize t.pending.toList = deliveries
    induction deliveries generalizing s with
    | nil => exact h
    | cons e rest ih => exact ih (h.drop c e.1)

theorem Indexed.removeAll (c : Str) :
    ∀ (subs : List (Str × StoredSubscription)) {s : Store}, s.Indexed →
      (subs.foldl (fun s e => s.setSubscription c e.1 none) s).Indexed ∧
      ∀ c' filter, (subs.foldl (fun s e => s.setSubscription c e.1 none) s).listed c' filter =
        if c' = c ∧ filter ∈ subs.map Prod.fst then none else s.listed c' filter
  | [], s, h => ⟨h, fun c' filter => by simp⟩
  | e :: rest, s, h => by
    obtain ⟨hi, hlisted⟩ := Indexed.removeAll c rest (h.setSubscription c e.1 none)
    rw [foldl_cons]
    refine ⟨hi, fun c' filter => ?_⟩
    have hfirst : (s.setSubscription c e.1 none).listed c' filter =
        if c' = c ∧ filter = e.1 then none else s.listed c' filter :=
      listed_removeSubscription c e.1 c' filter
    rw [hlisted, hfirst]
    by_cases hnew : c' = c ∧ filter = e.1
    · have hin : c' = c ∧ filter ∈ (e :: rest).map Prod.fst :=
        ⟨hnew.1, mem_map.2 ⟨e, mem_cons_self, hnew.2.symm⟩⟩
      rw [if_pos hnew, if_pos hin, ite_self]
    · rw [if_neg hnew]
      refine if_congr (and_congr_right fun hc => ?_) rfl rfl
      rw [map_cons, mem_cons, or_iff_right fun hf => hnew ⟨hc, hf⟩]

theorem Indexed.unlinkSession (h : s.Indexed) (ht : s.sessions[c]? = some t) :
    (s.unlinkSession c).Indexed ∧ ∀ c' filter, (s.unlinkSession c).listed c' filter =
      if c' = c then none else s.listed c' filter := by
  have hkeys : ∀ filter, s.listed c filter ≠ none →
      filter ∈ t.subscriptions.toList.map Prod.fst := by
    intro filter hne
    rw [listed, ht, bind_some] at hne
    cases hsub : t.subscriptions[filter]? with
    | none => rw [hsub] at hne; exact absurd rfl hne
    | some sub =>
      exact mem_map.2 ⟨(filter, sub), ExtTreeMap.mem_toList_iff_getElem?_eq_some.2 hsub, rfl⟩
  -- the counters do not matter to the index
  have hcount : ∀ n, ({ s with isolatedSessions := n } : Store).Indexed := fun n =>
    h.congr (.of_sessions rfl) rfl rfl
  rw [Store.unlinkSession, ht]
  dsimp only
  obtain ⟨store, hstore, hindexed, hsame⟩ : ∃ store : Store,
      (if t.overflowSequence ≠ 0 then { s with isolatedSessions := s.isolatedSessions - 1 }
        else s) = store ∧ store.Indexed ∧
      ∀ c' filter, store.listed c' filter = s.listed c' filter := by
    split
    · exact ⟨_, rfl, hcount _, fun _ _ => rfl⟩
    · exact ⟨_, rfl, h, fun _ _ => rfl⟩
  rw [hstore]
  obtain ⟨hi, hlisted⟩ := Indexed.removeAll c t.subscriptions.toList hindexed
  refine ⟨hi.congr (.of_sessions rfl) rfl rfl, fun c' filter => ?_⟩
  refine (hlisted c' filter).trans ?_
  rw [hsame]
  by_cases hc : c' = c
  · subst hc
    by_cases hnone : s.listed c' filter = none
    · simp [hnone]
    · rw [if_pos ⟨rfl, hkeys filter hnone⟩, if_pos rfl]
  · rw [if_neg fun hx => hc hx.1, if_neg hc]

theorem Indexed.eraseSession (h : s.Indexed) (c : Str) : (s.eraseSession c).Indexed := by
  have hdropped := (h.dropAll c).scheduleSession c 0
  -- before the entry of the session goes, nothing of it is listed
  obtain ⟨hempty, hnone⟩ : (s.emptied c).Indexed ∧
      ∀ filter, (s.emptied c).listed c filter = none := by
    rw [emptied, if_pos hdropped.indexing]
    cases ht : ((s.dropAll c).scheduleSession c 0).sessions[c]? with
    | none =>
      have hself : ((s.dropAll c).scheduleSession c 0).unlinkSession c =
          (s.dropAll c).scheduleSession c 0 := by rw [Store.unlinkSession, ht]
      rw [hself]
      exact ⟨hdropped, fun filter => by rw [listed, ht]; rfl⟩
    | some t =>
      obtain ⟨hi, hlisted⟩ := hdropped.unlinkSession ht
      exact ⟨hi, fun filter => by rw [hlisted, if_pos rfl]⟩
  rw [eraseSession_eq]
  refine ⟨hempty.indexing, hempty.sound, fun p c' e => ?_⟩
  refine (hempty.entries p c' e).trans (and_congr_right fun _ => ?_)
  rw [Lists, Lists, listed, listed, get_erase]
  by_cases hc : c = c'
  · subst hc
    have hnone' := hnone e.filter
    rw [listed] at hnone'
    rw [hnone', if_pos rfl]
    rfl
  · rw [if_neg hc]

/-! ## Rebuilding the index -/

theorem index_scheduleMessage (r : Nat) : (s.scheduleMessage r).index = s.index := by
  rw [scheduleMessage]
  split <;> rfl

def addEntries (index : TopicIndex) (entries : List (Str × IndexedSubscription)) : TopicIndex :=
  entries.foldl (fun index e => index.add e.1 e.2.object e.2.filter) index

theorem rebuildSubscriptions_spec (c : Str) (object : Nat) :
    ∀ (subs : List (Str × StoredSubscription)) (s : Store),
      let s' := subs.foldl (fun s sub =>
        let s := { s with metadataBytes := s.metadataBytes + subscriptionCost sub.1 }
        if sub.2.qos ≠ 0 then
          { s.addIndex c object sub.1 with subscriptions := s.subscriptions + 1 }
        else s) s
      s'.sessions = s.sessions ∧ s'.index = addEntries s.index (subs.filterMap fun sub =>
        if sub.2.qos = 0 then none else some (c, ⟨object, sub.1⟩))
  | [], s => ⟨rfl, rfl⟩
  | sub :: rest, s => by
    dsimp only
    rw [foldl_cons]
    obtain ⟨hsessions, hindex⟩ := rebuildSubscriptions_spec c object rest
      (let s := { s with metadataBytes := s.metadataBytes + subscriptionCost sub.1 }
      if sub.2.qos ≠ 0 then
        { s.addIndex c object sub.1 with subscriptions := s.subscriptions + 1 }
      else s)
    rw [hsessions, hindex]
    by_cases hq : sub.2.qos = 0
    · simp [hq]
    · simp [hq, addIndex, addEntries]

theorem rebuildSession_spec {t'} (ht : s.sessions[c]? = some t') (hhead : head t' = head t) :
    SameHeads s (s.rebuildSession c t) ∧
      (s.rebuildSession c t).index = addEntries s.index (sessionEntries c t) := by
  have hsession : SameHeads s (s.put c { t with scheduledExpiry := 0 }) :=
    sameHeads_put ht (Eq.trans rfl hhead.symm)
  have hfold : ∀ (deliveries : List (Nat × DeliveryState)) (s : Store),
      (deliveries.foldl (fun s d => s.scheduleMessage d.2.message) s).sessions = s.sessions ∧
      (deliveries.foldl (fun s d => s.scheduleMessage d.2.message) s).index = s.index := by
    intro deliveries
    induction deliveries with
    | nil => exact fun _ => ⟨rfl, rfl⟩
    | cons d rest ih =>
      intro s
      obtain ⟨h1, h2⟩ := ih (s.scheduleMessage d.2.message)
      exact ⟨h1.trans (sessions_scheduleMessage _), h2.trans (index_scheduleMessage _)⟩
  rw [rebuildSession]
  obtain ⟨hsessions, hindex⟩ := rebuildSubscriptions_spec c t.object t.subscriptions.toList
    { s with
      isolatedSessions :=
        if t.overflowSequence ≠ 0 then s.isolatedSessions + 1 else s.isolatedSessions
      metadataBytes := s.metadataBytes + sessionCost t.client t.owner
      sessions := s.sessions.insert c { t with scheduledExpiry := 0 } }
  constructor
  · refine SameHeads.trans ?_ (.of_sessions (hfold t.pending.toList _).1)
    split
    · exact hsession.trans (.of_sessions hsessions)
    · exact (hsession.trans (.of_sessions hsessions)).trans (sameHeads_scheduleSession _ _)
  · rw [(hfold t.pending.toList _).2]
    split
    · exact hindex
    · rw [index_scheduleSession]
      exact hindex

theorem get_addEntries {entries : List (Str × IndexedSubscription)}
    (hobject : ∀ c e e', (c, e) ∈ entries → (c, e') ∈ entries → e.filter = e'.filter →
      e.object = e'.object) :
    (addEntries {} entries).Sound ∧ ∀ p c e, (addEntries {} entries).get p c = some e ↔
        p = topicLevels e.filter ∧ (c, e) ∈ entries := by
  induction entries using List.reverseRecOn with
  | nil =>
    refine ⟨Arena.sound_empty, fun p c e => ?_⟩
    have hnone : ({} : TopicIndex).get p c = none := by
      by_cases hp : p = []
      · subst hp
        simp [Arena.get, Arena.cell]
      · rw [Arena.get, Arena.locate_empty p hp]
        rfl
    rw [addEntries, foldl_nil, hnone]
    simp
  | append_singleton entries x ih =>
    obtain ⟨c₀, e₀⟩ := x
    obtain ⟨hs, hentries⟩ := ih fun c e e' he he' =>
      hobject c e e' (mem_append_left _ he) (mem_append_left _ he')
    rw [addEntries, foldl_append, foldl_cons, foldl_nil]
    refine ⟨hs.insert _ _ _, get_add hs hentries fun c e => ?_⟩
    rw [mem_append, mem_singleton]
    split
    · rename_i heq
      obtain ⟨rfl, hfilter⟩ := heq
      constructor
      · intro hmem
        exact hobject c e e₀ (mem_append.2 (hmem.imp_right mem_singleton.2))
          (mem_append_right _ mem_cons_self) hfilter
      · intro ho
        refine Or.inr ?_
        obtain ⟨o, f⟩ := e
        obtain ⟨o₀, f₀⟩ := e₀
        simp only at ho hfilter
        rw [ho, hfilter]
    · rename_i hne
      refine or_iff_left fun heq => hne ?_
      cases heq
      exact ⟨rfl, rfl⟩

theorem rebuildSessions_spec {start} : ∀ (sessions : List (Str × Session)) {s},
      (∀ e ∈ sessions, start.sessions[e.1]? = some e.2) → SameHeads start s →
      SameHeads start (sessions.foldl (fun s e => s.rebuildSession e.1 e.2) s) ∧
      (sessions.foldl (fun s e => s.rebuildSession e.1 e.2) s).index =
        addEntries s.index (sessions.flatMap fun e => sessionEntries e.1 e.2)
  | [], _, _, h => ⟨h, rfl⟩
  | e :: rest, s, hmem, h => by
    obtain ⟨t', ht', hhead⟩ := h.get (hmem e mem_cons_self)
    obtain ⟨hheads, hindex⟩ := rebuildSession_spec ht' hhead
    obtain ⟨hrest, hrestIndex⟩ := rebuildSessions_spec rest
      (fun e' he' => hmem e' (mem_cons_of_mem _ he')) (h.trans hheads)
    refine ⟨hrest, ?_⟩
    rw [foldl_cons, hrestIndex, hindex, flatMap_cons, addEntries, addEntries,
      addEntries, foldl_append]

theorem indexed_rebuildIndexes (s : Store) : s.rebuildIndexes.Indexed := by
  have hmem : ∀ e ∈ s.sessions.toList, s.sessions[e.1]? = some e.2 :=
    fun e he => ExtTreeMap.mem_toList_iff_getElem?_eq_some.1 he
  have hcleared : SameHeads s { s with
      metadataBytes := 0, index := {}, messageExpiry := ∅, sessionExpiry := ∅
      isolatedSessions := 0, subscriptions := 0 } := .of_sessions rfl
  have hobject : ∀ c e e', (c, e) ∈ s.indexedEntries → (c, e') ∈ s.indexedEntries →
      e.filter = e'.filter → e.object = e'.object := by
    intro c e e' he he' hfilter
    rw [mem_indexedEntries, Lists] at he he'
    rw [hfilter, he'] at he
    exact (Option.some.inj he).symm
  obtain ⟨hheads, hindex⟩ := rebuildSessions_spec s.sessions.toList hmem hcleared
  obtain ⟨hsound, hentries⟩ := get_addEntries hobject
  rw [rebuildIndexes]
  refine ⟨rfl, hindex ▸ hsound, fun p c e => ?_⟩
  show Arena.get _ p c = some e ↔ _
  rw [hindex]
  refine (hentries p c e).trans (and_congr_right fun _ => ?_)
  rw [mem_indexedEntries, Lists, ← listed_congr hheads]
  rfl

/-! ## Matching -/

/-- The scan over all subscriptions: those of QoS above 0 whose filter matches. -/
def matching (s : Store) (topic : Str) : List (Session × StoredSubscription) :=
  s.sessions.toList.flatMap fun e =>
    e.2.subscriptions.toList.filterMap fun sub =>
      if sub.2.qos ≠ 0 ∧ mqttMatches sub.1 topic then some (e.2, sub.2) else none

theorem matchEntries_perm (h : s.Indexed) {topic} (hname : TopicName topic) :
    (s.index.matchEntries topic).Perm
      (s.indexedEntries.filter fun x => mqttMatches x.2.filter topic) := by
  refine (perm_ext_iff_of_nodup (TopicIndex.nodup_matchEntries h.sound h.placed hname)
    ((nodup_indexedEntries s).filter _)).2 ?_
  rintro ⟨c, e⟩
  rw [TopicIndex.mem_matchEntries h.sound h.placed hname, mem_filter, mem_indexedEntries, h.entries]
  simp

theorem matchTopic_perm (h : s.Indexed) {topic} (hname : TopicName topic) :
    (s.matchTopic topic).Perm (s.matching topic) := by
  refine ((matchEntries_perm h hname).filterMap _).trans (List.Perm.of_eq ?_)
  rw [filterMap_filter, indexedEntries, filterMap_flatMap, matching]
  refine flatMap_congr fun x hx => ?_
  obtain ⟨c, t⟩ := x
  have ht := ExtTreeMap.mem_toList_iff_getElem?_eq_some.1 hx
  rw [sessionEntries, filterMap_filterMap]
  refine filterMap_congr fun sub hsub => ?_
  have hsub' : t.subscriptions[sub.1]? = some sub.2 :=
    ExtTreeMap.mem_toList_iff_getElem?_eq_some.1 hsub
  have hfind : s.find ⟨c, t.object⟩ = some t := find_eq_some.2 ⟨ht, rfl⟩
  by_cases hq : sub.2.qos = 0
  · simp [hq]
  · by_cases hm : mqttMatches sub.1 topic
    · simp [hq, hm, hfind, hsub']
    · simp [hq, hm]

/-! ## Runs -/

inductive IndexOp where
  /-- A session without subscriptions, for a client that has none. -/
  | install (t : Session)
  | setSubscription (client filter : Str) (sub : Option StoredSubscription)
  | eraseSession (client : Str)
  | rebuildIndexes

def indexStep (s : Store) : IndexOp → Option Store
  | .install t =>
    if s.sessions[t.client]? = none ∧ t.subscriptions.isEmpty then some (s.put t.client t)
    else none
  | .setSubscription client filter sub => some (s.setSubscription client filter sub)
  | .eraseSession client => some (s.eraseSession client)
  | .rebuildIndexes => some s.rebuildIndexes

def IndexReachable : Store → Prop :=
  Runs.Reach indexStep (fun _ _ => True) fun s => ∃ loaded : Store, s = loaded.rebuildIndexes

theorem Indexed.install (h : s.Indexed) (hnew : s.sessions[t.client]? = none)
    (hsubs : t.subscriptions.isEmpty) : (s.put t.client t).Indexed := by
  have hlisted : ∀ c filter, (s.put t.client t).listed c filter = s.listed c filter := by
    intro c filter
    rw [listed, put, get_insert, listed]
    by_cases hc : t.client = c
    · subst hc
      rw [ExtTreeMap.isEmpty_iff] at hsubs
      simp [hnew, hsubs]
    · rw [if_neg hc]
  refine ⟨h.indexing, h.sound, fun p c e => ?_⟩
  rw [Lists, hlisted]
  exact h.entries p c e

theorem indexed_of_reachable (h : IndexReachable s) : s.Indexed := by
  refine Runs.Reach.invariant ?_ ?_ h
  · rintro _ ⟨loaded, rfl⟩
    exact indexed_rebuildIndexes loaded
  · intro s op s' hs _ hstep
    cases op with
    | install t =>
      rw [indexStep] at hstep
      split at hstep <;> cases hstep
      rename_i hc
      exact hs.install hc.1 hc.2
    | setSubscription client filter sub =>
      cases hstep
      exact hs.setSubscription client filter sub
    | eraseSession client =>
      cases hstep
      exact hs.eraseSession client
    | rebuildIndexes =>
      cases hstep
      exact indexed_rebuildIndexes s

/-- In every run `match` answers as the scan does, for every name of a topic. No two paths
of the index share a node, a free node is on no path, and the root is never free. -/
theorem matchTopic_exact (h : IndexReachable s) :
    (∀ topic, TopicName topic → (s.matchTopic topic).Perm (s.matching topic)) ∧
      (∀ p q n, s.index.locate p = some n → s.index.locate q = some n → p = q) ∧
      (∀ n ∈ s.index.free, ∀ p, s.index.locate p ≠ some n) ∧
      0 ∉ s.index.free := by
  have hi := indexed_of_reachable h
  refine ⟨fun topic hname => matchTopic_perm hi hname, hi.sound.injective, hi.sound.dead, ?_⟩
  exact fun hfree => hi.sound.dead 0 hfree [] rfl

def reusedOps : List IndexOp :=
  [.install { object := 0, client := [0x63], owner := [] },
    .setSubscription [0x63] [0x61, slash, 0x2b] (some { qos := 1 }),
    .setSubscription [0x63] [0x61, slash, 0x2b] none,
    .setSubscription [0x63] [0x62, slash, 0x23] (some { qos := 2 })]

def reused : Store :=
  (Runs.runOk indexStep (fun _ _ => True) ({} : Store).rebuildIndexes reusedOps).getD {}

theorem reachable_reused : IndexReachable reused := by
  have hrun : (Runs.runOk indexStep (fun _ _ => True) ({} : Store).rebuildIndexes
      reusedOps).isSome := by decide +kernel
  obtain ⟨s, hs⟩ := isSome_iff_exists.1 hrun
  have hreused : reused = s := by rw [reused, hs]; rfl
  rw [hreused]
  exact Runs.reach_runOk (.start ⟨{}, rfl⟩) hs

theorem matchTopic_reused :
    IndexReachable reused ∧ reused.index.cells.length = 3 ∧ reused.index.free = [] ∧
      (reused.matchTopic [0x62]).Perm (reused.matching [0x62]) ∧
      (reused.matching [0x62]).length = 1 :=
  ⟨reachable_reused, by decide +kernel, by decide +kernel,
    (matchTopic_exact reachable_reused).1 [0x62] (by simp [TopicName]), by decide +kernel⟩

end Store

end Mqtts.Durable
