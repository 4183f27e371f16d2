import Mqtts.Router.State

/-!
# The tree and its persistent copy

The tree knows a subscription by the full client id and the levels of the filter, the map by a
string. The two agree as long as the strings and the levels tell the same subscriptions apart, which
they do not always do: the tree takes `a` and `a/` for one filter, and an `@` in a client id or a
filter can make one key of two subscriptions. `Clear` excludes these two clashes for a call, and it
excludes that a client is unsubscribed from everything while it has subscriptions, because then the
number that the tree returns is taken for an error.
-/

namespace Mqtts

open SubscriberSet

namespace Router

open Std (ExtTreeMap)

/-! ## Agreement -/

def RouterLogEntry.fullClientId (e : RouterLogEntry) : Str := makeFullClientId e.serverId e.clientId

def RouterLogEntry.key (e : RouterLogEntry) : Str :=
  makeSubscriptionKey e.serverId e.clientId e.topicFilter

theorem makeSubscriptionKey_eq (server client filter : Str) :
    makeSubscriptionKey server client filter =
      makeFullClientId server client ++ atSign :: filter := by
  simp [makeSubscriptionKey, makeFullClientId]

def Holds (t : TopicTree) (full : Str) (path : List Str) (qos : Nat) : Prop :=
  ∃ i ∈ (t.root.subscribersAt path).elems, i.clientId = full ∧ i.qos = qos

/-- The map and the tree have the same subscriptions, with the same QoS, and no two entries of the
map are one subscription of the tree. The tree knows a filter by its levels. -/
structure Agrees (t : PersistentTree) : Prop where
  keyed : ∀ {k : Str} {e : RouterLogEntry}, t.entries[k]? = some e → k = e.key
  held : ∀ {k : Str} {e : RouterLogEntry}, t.entries[k]? = some e →
    Holds t.tree e.fullClientId (splitLevels e.topicFilter) e.qos.toNat
  listed : ∀ {full : Str} {path : List Str} {qos : Nat}, Holds t.tree full path qos →
    ∃ (k : Str) (e : RouterLogEntry), t.entries[k]? = some e ∧ e.fullClientId = full ∧
      splitLevels e.topicFilter = path ∧ e.qos.toNat = qos
  distinct : ∀ {k k' : Str} {e e' : RouterLogEntry}, t.entries[k]? = some e →
    t.entries[k']? = some e' → e.fullClientId = e'.fullClientId →
      splitLevels e.topicFilter = splitLevels e'.topicFilter → k = k'

def LevelsClear (t : PersistentTree) (full filter : Str) : Prop :=
  ∀ (k : Str) e, t.entries[k]? = some e → e.fullClientId = full →
    splitLevels e.topicFilter = splitLevels filter → e.topicFilter = filter

def KeyClear (t : PersistentTree) (full filter : Str) : Prop :=
  ∀ k e, t.entries[k]? = some e → k = full ++ atSign :: filter → e.fullClientId = full

def HoldsNone (t : PersistentTree) (full : Str) : Prop :=
  ∀ path, (t.tree.root.subscribersAt path).has full = false

variable {t : PersistentTree} {server client filter : Str} {qos : UInt8}

open RouterLogEntry

theorem Agrees.filter_eq (h : Agrees t) {k : Str} {e : RouterLogEntry} (he : t.entries[k]? = some e)
    (hfull : e.fullClientId = makeFullClientId server client)
    (hkey : k = makeSubscriptionKey server client filter) : e.topicFilter = filter := by
  have := h.keyed he
  rw [hkey, makeSubscriptionKey_eq, key, makeSubscriptionKey_eq] at this
  rw [fullClientId] at hfull
  rw [hfull] at this
  exact (List.cons.inj (List.append_cancel_left this)).2.symm

theorem holds_insertAt {root : Node} {info levels path full q} :
    (∃ i ∈ ((root.insertAt info levels).subscribersAt path).elems, i.clientId = full ∧ i.qos = q) ↔
      (path = levels ∧ full = info.clientId ∧ q = info.qos) ∨
        (¬ (path = levels ∧ full = info.clientId) ∧
          ∃ i ∈ (root.subscribersAt path).elems, i.clientId = full ∧ i.qos = q) := by
  rw [Node.subscribersAt_insertAt]
  by_cases hpath : path = levels
  · rw [if_pos hpath]
    simp only [mem_add, hpath, true_and]
    constructor
    · rintro ⟨i, rfl | ⟨hi, hne⟩, rfl, rfl⟩
      · exact .inl ⟨rfl, rfl⟩
      · exact .inr ⟨hne, i, hi, rfl, rfl⟩
    · rintro (⟨rfl, rfl⟩ | ⟨hne, i, hi, rfl, rfl⟩)
      · exact ⟨info, .inl rfl, rfl, rfl⟩
      · exact ⟨i, .inr ⟨hi, hne⟩, rfl, rfl⟩
  · simp [hpath]

/-- A subscription keeps the agreement, -/
theorem Agrees.subscribe (h : Agrees t)
    (hkey : TopicTree.accepts filter (makeFullClientId server client) →
      KeyClear t (makeFullClientId server client) filter ∧
        LevelsClear t (makeFullClientId server client) filter) :
    Agrees (t.subscribe server filter client qos).2 := by
  cases haccepts : TopicTree.accepts filter (makeFullClientId server client) with
  | false =>
    rw [PersistentTree.subscribe, TopicTree.subscribe_error haccepts]
    exact h
  | true =>
    obtain ⟨hkeys, hlevels⟩ := hkey haccepts
    obtain ⟨tree, hok, hroot⟩ :=
      @TopicTree.subscribe_ok t.tree _ _ { qos := qos.toNat } haccepts
    rw [PersistentTree.subscribe, hok]
    have hholds : ∀ {full : Str} {path : List Str} {q : Nat}, Holds tree full path q ↔
        (path = splitLevels filter ∧ full = makeFullClientId server client ∧ q = qos.toNat) ∨
          (¬ (path = splitLevels filter ∧ full = makeFullClientId server client) ∧
            Holds t.tree full path q) := by
      intro full path q
      rw [Holds, hroot]
      exact holds_insertAt
    -- another entry is not the new subscription
    have hother : ∀ {k : Str} {e : RouterLogEntry}, t.entries[k]? = some e →
        k ≠ makeSubscriptionKey server client filter →
        ¬ (splitLevels e.topicFilter = splitLevels filter ∧
          e.fullClientId = makeFullClientId server client) := by
      rintro k e he hne ⟨hsplit, hfull⟩
      refine hne ((h.keyed he).trans ?_)
      rw [key, makeSubscriptionKey_eq, makeSubscriptionKey_eq, hlevels k e he hfull hsplit]
      rw [fullClientId] at hfull
      rw [hfull]
    constructor
    · intro k e he
      rw [Maps.get_insert] at he
      split at he
      · cases he
        exact Eq.symm ‹_›
      · exact h.keyed he
    · intro k e he
      rw [Maps.get_insert] at he
      split at he
      · cases he
        exact hholds.2 (.inl ⟨rfl, rfl, rfl⟩)
      · case isFalse hne =>
          exact hholds.2 (.inr ⟨hother he (Ne.symm hne), h.held he⟩)
    · intro full path q hheld
      rcases hholds.1 hheld with ⟨rfl, rfl, rfl⟩ | ⟨hne, hheld⟩
      · exact ⟨_, _, by rw [Maps.get_insert, if_pos rfl], rfl, rfl, rfl⟩
      obtain ⟨k, e, he, hfull, hsplit, hq⟩ := h.listed hheld
      refine ⟨k, e, ?_, hfull, hsplit, hq⟩
      rw [Maps.get_insert, if_neg]
      · exact he
      · rintro rfl
        have hfull' := hkeys _ e he (makeSubscriptionKey_eq _ _ _)
        have hfilter := h.filter_eq he hfull' rfl
        exact hne ⟨by rw [← hsplit, hfilter], by rw [← hfull, hfull']⟩
    · intro k k' e e' he he' hfull hsplit
      rw [Maps.get_insert] at he he'
      split at he <;> split at he'
      · case isTrue.isTrue hk hk' => exact hk.symm.trans hk'
      · case isTrue.isFalse hk hk' =>
          cases he
          exact absurd ⟨hsplit.symm, hfull.symm⟩ (hother he' (Ne.symm hk'))
      · case isFalse.isTrue hk hk' =>
          cases he'
          exact absurd ⟨hsplit, hfull⟩ (hother he (Ne.symm hk))
      · exact h.distinct he he' hfull hsplit

/-- and so does its removal. -/
theorem Agrees.unsubscribe (h : Agrees t)
    (hlevels : LevelsClear t (makeFullClientId server client) filter) :
    Agrees (t.unsubscribe server filter client).2 := by
  unfold PersistentTree.unsubscribe
  cases hok : t.tree.unsubscribe filter (makeFullClientId server client) with
  | error e => exact h
  | ok tree =>
    have hremove := TopicTree.unsubscribe_ok hok
    have hholds : ∀ {full : Str} {path : List Str} {q : Nat}, Holds tree full path q ↔
        ¬ (path = splitLevels filter ∧ full = makeFullClientId server client) ∧
          Holds t.tree full path q := by
      intro full path q
      rw [Holds, Node.subscribersAt_removeAt _ _ path _ _ hremove, Holds]
      by_cases hpath : path = splitLevels filter
      · simp only [hpath, if_true, mem_erase, true_and]
        constructor
        · rintro ⟨i, ⟨hi, hne⟩, rfl, rfl⟩
          exact ⟨hne, i, hi, rfl, rfl⟩
        · rintro ⟨hne, i, hi, rfl, rfl⟩
          exact ⟨i, ⟨hi, hne⟩, rfl, rfl⟩
      · simp [hpath]
    -- the subscription was in the tree, so its key is that of its own entry
    obtain ⟨i, hi, hclient⟩ := has_iff.1 (Node.has_of_removeAt hremove)
    obtain ⟨k₀, e₀, he₀, hfull₀, hsplit₀, -⟩ := h.listed ⟨i, hi, hclient, rfl⟩
    have hfilter₀ := hlevels k₀ e₀ he₀ hfull₀ hsplit₀
    have hk₀ : k₀ = makeSubscriptionKey server client filter := by
      rw [h.keyed he₀, key, makeSubscriptionKey_eq, makeSubscriptionKey_eq, hfilter₀]
      rw [fullClientId] at hfull₀
      rw [hfull₀]
    have hget : ∀ {k : Str} {e : RouterLogEntry},
        (t.entries.erase (makeSubscriptionKey server client filter))[k]? = some e ↔
          k ≠ k₀ ∧ t.entries[k]? = some e := by
      intro k e
      rw [Maps.get_erase, ← hk₀]
      by_cases hk : k₀ = k
      · simp [hk]
      · simp [hk, Ne.symm hk]
    constructor
    · exact fun he => h.keyed (hget.1 he).2
    · intro k e he
      obtain ⟨hne, he⟩ := hget.1 he
      refine hholds.2 ⟨fun hsame => hne ?_, h.held he⟩
      exact h.distinct he he₀ (hsame.2.trans hfull₀.symm) (hsame.1.trans hsplit₀.symm)
    · intro full path q hheld
      obtain ⟨hne, hheld⟩ := hholds.1 hheld
      obtain ⟨k, e, he, hfull, hsplit, hq⟩ := h.listed hheld
      refine ⟨k, e, hget.2 ⟨?_, he⟩, hfull, hsplit, hq⟩
      rintro rfl
      rw [he₀] at he
      cases he
      exact hne ⟨hsplit.symm.trans hsplit₀, hfull.symm.trans hfull₀⟩
    · exact fun he he' => h.distinct (hget.1 he).2 (hget.1 he').2

open PersistentTree

theorem unsubscribeAll_of_none (htidy : t.tree.root.Tidy)
    (hnone : HoldsNone t (makeFullClientId server client)) :
    t.unsubscribeAll server client = (0, t) := by
  have hsubscriptions : t.tree.getClientSubscriptions (makeFullClientId server client) = [] := by
    refine List.eq_nil_iff_forall_not_mem.2 fun f hf => ?_
    obtain ⟨path, hheld, -⟩ := htidy.mem_clientSubscriptions.1 hf
    rw [hnone path] at hheld
    cases hheld
  have hall : t.tree.unsubscribeAll (makeFullClientId server client) = (0, t.tree) := by
    unfold TopicTree.unsubscribeAll
    split
    · rfl
    · rw [hsubscriptions]
      rfl
  unfold unsubscribeAll
  rw [hall, hsubscriptions]
  rfl

theorem Agrees.no_entry (h : Agrees t) {full : Str} (hnone : HoldsNone t full) {k : Str}
    {e : RouterLogEntry} (he : t.entries[k]? = some e) : e.fullClientId ≠ full := by
  rintro rfl
  obtain ⟨i, hi, hclient, -⟩ := h.held he
  have := hnone (splitLevels e.topicFilter)
  rw [has_iff.2 ⟨i, hi, hclient⟩] at this
  cases this

/-! ## Runs -/

theorem tidy_subscribe (htidy : t.tree.root.Tidy) :
    (t.subscribe server filter client qos).2.tree.root.Tidy := by
  cases haccepts : TopicTree.accepts filter (makeFullClientId server client) with
  | false =>
    rw [subscribe, TopicTree.subscribe_error haccepts]
    exact htidy
  | true =>
    obtain ⟨tree, hok, hroot⟩ :=
      @TopicTree.subscribe_ok t.tree _ _ { qos := qos.toNat } haccepts
    rw [subscribe, hok]
    rw [hroot]
    exact htidy.insertAt _ _

theorem tidy_unsubscribe (htidy : t.tree.root.Tidy) :
    (t.unsubscribe server filter client).2.tree.root.Tidy := by
  unfold unsubscribe
  cases hok : t.tree.unsubscribe filter (makeFullClientId server client) with
  | error e => exact htidy
  | ok tree => exact htidy.removeAt _ _ (TopicTree.unsubscribe_ok hok)

/-- What the request asks of the state: that the strings and the tree tell its subscription apart
from the others, and that a client that disconnects has no subscriptions. -/
def Request.Clear (t : PersistentTree) : Request → Prop
  | .subscribe server client filter _ =>
    TopicTree.accepts filter (makeFullClientId server client) →
      KeyClear t (makeFullClientId server client) filter ∧
        LevelsClear t (makeFullClientId server client) filter
  | .unsubscribe server client filter => LevelsClear t (makeFullClientId server client) filter
  | .clientConnect _ _ => True
  | .clientDisconnect server client => HoldsNone t (makeFullClientId server client)

def Call.Clear (r : RouterState) : Call → Prop
  | .handle _ request => request.Clear r.topicTree
  | .subscribe server client filter qos =>
    (Request.subscribe server client filter qos).Clear r.topicTree
  | .unsubscribe server client filter =>
    (Request.unsubscribe server client filter).Clear r.topicTree
  | .unsubscribeAll server client => (Request.clientDisconnect server client).Clear r.topicTree

/-- A handler does what it should: if the tree has changed, it returns `MQ_SUCCESS` and logs one
entry, and after a disconnect the client has no subscription left. -/
structure Handled (r : RouterState) (now : UInt64) (request : Request) : Prop where
  logged : (∃ path, ((r.handle now request).2.topicTree.tree.root.subscribersAt path) ≠
      r.topicTree.tree.root.subscribersAt path) →
    (r.handle now request).1 = 0 ∧ ∃ e, (r.handle now request).2.pending = r.pending ++ [e]
  gone : ∀ server client, request = .clientDisconnect server client →
    HoldsNone (r.handle now request).2.topicTree (makeFullClientId server client) ∧ ∀ (k : Str) e,
        (r.handle now request).2.topicTree.entries[k]? = some e →
          e.fullClientId ≠ makeFullClientId server client

abbrev ClearRun : RouterState → Prop :=
  Runs.Reach (fun r call => some (r.call call).2) (fun r call => call.Clear r) fun r => r = .new

theorem agrees_new : Agrees .new where
  keyed he := by simp [new] at he
  held he := by simp [new] at he
  listed := by
    rintro full path q ⟨i, hi, -⟩
    simp only [new, TopicTree.new] at hi
    rw [Node.subscribersAt_empty] at hi
    cases hi
  distinct he := by simp [new] at he

theorem Agrees.onTree (h : Agrees t) (htidy : t.tree.root.Tidy) {request : Request}
    (hclear : request.Clear t) :
    Agrees (request.onTree t).2 ∧ (request.onTree t).2.tree.root.Tidy := by
  cases request with
  | subscribe server client filter qos => exact ⟨h.subscribe hclear, tidy_subscribe htidy⟩
  | unsubscribe server client filter => exact ⟨h.unsubscribe hclear, tidy_unsubscribe htidy⟩
  | clientConnect server client => exact ⟨h, htidy⟩
  | clientDisconnect server client =>
    rw [Request.onTree, unsubscribeAll_of_none htidy hclear]
    exact ⟨h, htidy⟩

theorem handle_topicTree (r : RouterState) (now : UInt64) (request : Request) :
    (r.handle now request).2.topicTree = (request.onTree r.topicTree).2 := by
  unfold RouterState.handle
  dsimp only
  split <;> rfl

theorem Agrees.call {r : RouterState} (h : Agrees r.topicTree) (htidy : r.topicTree.tree.root.Tidy)
    {call : Call} (hclear : call.Clear r) :
    Agrees (r.call call).2.topicTree ∧ (r.call call).2.topicTree.tree.root.Tidy := by
  cases call with
  | handle now request =>
    rw [RouterState.call, handle_topicTree]
    exact h.onTree htidy hclear
  | subscribe server client filter qos => exact ⟨h.subscribe hclear, tidy_subscribe htidy⟩
  | unsubscribe server client filter => exact ⟨h.unsubscribe hclear, tidy_unsubscribe htidy⟩
  | unsubscribeAll server client =>
    rw [RouterState.call, unsubscribeAll_of_none htidy hclear]
    exact ⟨h, htidy⟩

theorem agrees_of_clearRun {r : RouterState} (h : ClearRun r) :
    Agrees r.topicTree ∧ r.topicTree.tree.root.Tidy := by
  induction h with
  | start hr =>
    subst hr
    exact ⟨agrees_new, Node.tidy_empty⟩
  | step _ hclear hstep ih =>
    cases hstep
    exact ih.1.call ih.2 hclear

theorem onTree_same_or_zero (request : Request) (htidy : t.tree.root.Tidy)
    (hnone : ∀ server client, request = .clientDisconnect server client →
      HoldsNone t (makeFullClientId server client)) :
    (request.onTree t).2 = t ∨ (request.onTree t).1 = 0 := by
  cases request with
  | subscribe server client filter qos =>
    simp only [Request.onTree, subscribe]
    split
    · exact .inl rfl
    · exact .inr rfl
  | unsubscribe server client filter =>
    simp only [Request.onTree, unsubscribe]
    split
    · exact .inl rfl
    · exact .inr rfl
  | clientConnect server client => exact .inl rfl
  | clientDisconnect server client =>
    rw [Request.onTree, unsubscribeAll_of_none htidy (hnone server client rfl)]
    exact .inl rfl

/-- In every run whose calls are clear the map and the tree agree, and every handler call that is
clear does what it should. -/
theorem state_agrees {r : RouterState} (h : ClearRun r) :
    Agrees r.topicTree ∧ ∀ now (request : Request), request.Clear r.topicTree →
      Handled r now request := by
  obtain ⟨hagrees, htidy⟩ := agrees_of_clearRun h
  refine ⟨hagrees, fun now request hclear => ⟨?_, ?_⟩⟩
  · rintro ⟨path, hchanged⟩
    rw [handle_topicTree] at hchanged
    have hzero : (request.onTree r.topicTree).1 = 0 := by
      have hnone : ∀ server client, request = .clientDisconnect server client →
          HoldsNone r.topicTree (makeFullClientId server client) := by
        rintro server client rfl
        exact hclear
      rcases onTree_same_or_zero request htidy hnone with hsame | hzero
      · exact absurd (by rw [hsame]) hchanged
      · exact hzero
    unfold RouterState.handle
    dsimp only
    rw [if_pos hzero]
    exact ⟨rfl, _, rfl⟩
  · rintro server client rfl
    rw [handle_topicTree, Request.onTree, unsubscribeAll_of_none htidy hclear]
    exact ⟨hclear, fun k e he => hagrees.no_entry hclear he⟩

def sampleSubscribe : Request := .subscribe [0x73] [0x63] [0x61] 1

def sampleSubscribed : RouterState := (RouterState.new.handle 0 sampleSubscribe).2

def sampleUnsubscribed : RouterState :=
  (sampleSubscribed.handle 0 (.unsubscribe [0x73] [0x63] [0x61])).2

def sampleEntry : RouterLogEntry :=
  { opType := .subscribe, serverId := [0x73], clientId := [0x63], topicFilter := [0x61], qos := 1 }

theorem sampleSubscribed_entries : sampleSubscribed.topicTree.entries =
    (∅ : ExtTreeMap Str RouterLogEntry).insert sampleEntry.key sampleEntry := rfl

theorem clearRun_sampleSubscribed : ClearRun sampleSubscribed := by
  refine .step (e := .handle 0 sampleSubscribe) (.start rfl) (fun _ => ?_) rfl
  exact ⟨fun k e he => by simp [RouterState.new, new] at he,
    fun k e he => by simp [RouterState.new, new] at he⟩

theorem state_agrees_sample : ClearRun sampleUnsubscribed ∧
      Handled sampleUnsubscribed 0 (.clientDisconnect [0x73] [0x63]) := by
  have hrun : ClearRun sampleUnsubscribed := by
    refine .step (e := .handle 0 (.unsubscribe [0x73] [0x63] [0x61])) clearRun_sampleSubscribed
      (fun k e he _ _ => ?_) rfl
    rw [sampleSubscribed_entries, Maps.get_insert] at he
    split at he
    · cases he
      rfl
    · simp at he
  refine ⟨hrun, (state_agrees hrun).2 0 _ fun path => ?_⟩
  have hroot : sampleUnsubscribed.topicTree.tree.root =
      .mk .empty [([0x61], .mk ((empty.add (.ofOptions [0x73, 0x40, 0x63]
        { qos := 1 })).erase [0x73, 0x40, 0x63]) [])] := rfl
  rw [hroot]
  rcases path with _ | ⟨level, path⟩
  · rfl
  rw [Node.subscribersAt, Node.getChild, Node.children, List.lookup_cons]
  split
  · rcases path with _ | ⟨level, path⟩ <;> rfl
  · rfl

/-- A client subscribes and disconnects. The handler returns the number of subscriptions that the
tree has removed and logs nothing, and the map still has the entry. -/
theorem disconnect_disagrees : ClearRun sampleSubscribed ∧
      (sampleSubscribed.handle 0 (.clientDisconnect [0x73] [0x63])).1 = 1 ∧
      (sampleSubscribed.handle 0 (.clientDisconnect [0x73] [0x63])).2.pending =
        sampleSubscribed.pending ∧
      ¬ Agrees (sampleSubscribed.handle 0 (.clientDisconnect [0x73] [0x63])).2.topicTree ∧
      ¬ Handled sampleSubscribed 0 (.clientDisconnect [0x73] [0x63]) := by
  have hentries :
      (sampleSubscribed.handle 0 (.clientDisconnect [0x73] [0x63])).2.topicTree.entries =
        sampleSubscribed.topicTree.entries := rfl
  have helems : ((sampleSubscribed.handle 0 (.clientDisconnect [0x73] [0x63])).2.topicTree.tree.root
      |>.subscribersAt [[0x61]]).elems = [] := by decide +kernel
  refine ⟨clearRun_sampleSubscribed, by decide +kernel, by decide +kernel, fun h => ?_, fun h => ?_⟩
  · have hget := Maps.get_insert (∅ : ExtTreeMap Str RouterLogEntry) sampleEntry.key sampleEntry.key
      sampleEntry
    rw [if_pos rfl, ← sampleSubscribed_entries, ← hentries] at hget
    obtain ⟨i, hi, -⟩ := h.held hget
    have hlevels : splitLevels sampleEntry.topicFilter = [[0x61]] := by decide
    rw [hlevels, helems] at hi
    cases hi
  · have hret := (h.logged ⟨[[0x61]], fun heq => ?_⟩).1
    · revert hret
      decide +kernel
    · have := congrArg elems heq
      rw [helems] at this
      revert this
      decide +kernel

end Router

end Mqtts
