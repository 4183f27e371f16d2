import Mqtts.Lib.Assoc
import Mqtts.Lib.Bytes
import Mqtts.Lib.SortUnique
import Mqtts.Topic.Levels

/-!
# The topic tree

`ConcurrentTopicTree` keeps, for every path of levels, the set of clients subscribed there.
Operations run one after another here, so each compare-and-swap of a node's content succeeds at its
first attempt, and allocation does not fail.

The sets of a node are hash sets that compare entries by client id alone, and the result of a search
is sorted by client id with `std::sort`, which is not stable. What the sets' iteration order and the
sort leave open is a parameter, and what is proved holds for all of them.
-/

namespace Mqtts

open List Assoc SortUnique

/-- The options of one subscription (`SubscriptionOptions`). -/
structure SubscriptionOptions where
  qos : Nat := 0
  noLocal : Bool := false
  retainAsPublished : Bool := false
  retainHandling : Nat := 0
  deriving DecidableEq

/-- An entry of a node's subscriber set (`SubscriberInfo`). -/
structure SubscriberInfo where
  clientId : Str
  qos : Nat
  noLocal : Bool
  retainAsPublished : Bool
  retainHandling : Nat
  deriving DecidableEq

/-- `SubscriberInfo(client_id, options)`. -/
def SubscriberInfo.ofOptions (client : Str) (options : SubscriptionOptions) : SubscriberInfo :=
  { clientId := client, qos := options.qos, noLocal := options.noLocal,
    retainAsPublished := options.retainAsPublished, retainHandling := options.retainHandling }

@[simp] theorem SubscriberInfo.ofOptions_clientId (c : Str) (o : SubscriptionOptions) :
    (SubscriberInfo.ofOptions c o).clientId = c := rfl

/-! ## Subscriber sets -/

/-- A `SubscriberSet`: a hash set whose equality compares client ids only, so a client
has at most one entry. -/
structure SubscriberSet where
  elems : List SubscriberInfo
  nodup : (elems.map (·.clientId)).Nodup

namespace SubscriberSet

def empty : SubscriberSet := ⟨[], by simp⟩

/-- `subscribers_.find(lookup) != end()`. -/
def has (s : SubscriberSet) (client : Str) : Bool := s.elems.any (·.clientId == client)

def erase (s : SubscriberSet) (client : Str) : SubscriberSet :=
  ⟨s.elems.filter (·.clientId ≠ client), (s.nodup.sublist (filter_sublist.map _))⟩

/-- `IntermediateNode::add_subscriber`: the entry of the client is erased, the new
one inserted. -/
def add (s : SubscriberSet) (info : SubscriberInfo) : SubscriberSet :=
  ⟨info :: (s.erase info.clientId).elems, by
    simp only [map_cons, nodup_cons]
    refine ⟨?_, (s.erase info.clientId).nodup⟩
    simp [erase]⟩

@[simp] theorem elems_empty : empty.elems = [] := rfl

variable {s : SubscriberSet} {client : Str}

@[simp] theorem mem_erase {i} : i ∈ (s.erase client).elems ↔ i ∈ s.elems ∧ i.clientId ≠ client := by
  simp [erase]

@[simp] theorem mem_add {info i} :
    i ∈ (s.add info).elems ↔ i = info ∨ i ∈ s.elems ∧ i.clientId ≠ info.clientId := by
  simp [add]

theorem has_iff : s.has client ↔ ∃ i ∈ s.elems, i.clientId = client := by
  simp [has]

theorem has_add_self (s : SubscriberSet) (i : SubscriberInfo) : (s.add i).has i.clientId :=
  has_iff.2 ⟨i, mem_add.2 (.inl rfl), rfl⟩

theorem has_add (h : s.has client) (i : SubscriberInfo) : (s.add i).has client := by
  by_cases hi : client = i.clientId
  · rw [hi]
    exact has_add_self s i
  · obtain ⟨j, hj, rfl⟩ := has_iff.1 h
    exact has_iff.2 ⟨j, mem_add.2 (.inr ⟨hj, hi⟩), rfl⟩

theorem has_erase {other} : (s.erase other).has client ↔ s.has client ∧ client ≠ other := by
  simp only [has_iff, mem_erase]
  constructor
  · rintro ⟨i, ⟨hi, hne⟩, rfl⟩
    exact ⟨⟨i, hi, rfl⟩, hne⟩
  · rintro ⟨⟨i, hi, rfl⟩, hne⟩
    exact ⟨i, ⟨hi, hne⟩, rfl⟩

end SubscriberSet

/-! ## Nodes -/

/-- A `TopicTreeNode` with its content: the subscribers at its path and its children
by level. -/
inductive Node where
  | mk (subscribers : SubscriberSet) (children : List (Str × Node))

namespace Node

def empty : Node := .mk .empty []

def subscribers : Node → SubscriberSet
  | .mk s _ => s

def children : Node → List (Str × Node)
  | .mk _ c => c

def getChild (n : Node) (level : Str) : Option Node := n.children.lookup level

/-- `add_child`: the child of a level is replaced or added. -/
def addChild (n : Node) (level : Str) (child : Node) : Node :=
  .mk n.subscribers (assocSet level child n.children)

@[simp] theorem getChild_addChild (n c : Node) (l l' : Str) :
    (n.addChild l c).getChild l' = if l' = l then some c else n.getChild l' := by
  by_cases h : l' = l
  · subst h
    rw [if_pos rfl]
    exact lookup_assocSet_self _ _ _
  · rw [if_neg h]
    exact lookup_assocSet_of_ne h _ _

/-- The set held at a path. -/
def subscribersAt : List Str → Node → SubscriberSet
  | [], n => n.subscribers
  | l :: ls, n => ((n.getChild l).map (subscribersAt ls)).getD .empty

theorem subscribersAt_empty : ∀ path, subscribersAt path empty = .empty
  | [] => rfl
  | _ :: _ => rfl

/-- `get_or_create_node` with creation, followed by `add_subscriber_to_node`. -/
def insertAt (info : SubscriberInfo) : List Str → Node → Node
  | [], n => .mk (n.subscribers.add info) n.children
  | l :: ls, n => n.addChild l (insertAt info ls ((n.getChild l).getD empty))

/-- The number of nodes `get_or_create_node` creates on a path. -/
def missing : List Str → Node → Nat
  | [], _ => 0
  | l :: ls, n =>
    match n.getChild l with
    | some c => missing ls c
    | none => 1 + missing ls empty

/-- `get_or_create_node` without creation, followed by `remove_subscriber_from_node`;
`none` when the path or the client's entry does not exist. -/
def removeAt (client : Str) : List Str → Node → Option Node
  | [], n =>
    if n.subscribers.has client then some (.mk (n.subscribers.erase client) n.children)
    else none
  | l :: ls, n =>
    match n.getChild l with
    | some c => (removeAt client ls c).map (n.addChild l)
    | none => none

/-- What an insertion does to the sets, -/
theorem subscribersAt_insertAt (info : SubscriberInfo) : ∀ path p n,
      subscribersAt p (insertAt info path n) =
        if p = path then (subscribersAt p n).add info else subscribersAt p n
  | [], [], _ => rfl
  | [], _ :: _, _ => rfl
  | _ :: _, [], _ => rfl
  | l :: ls, q :: qs, n => by
    simp only [insertAt, subscribersAt, getChild_addChild]
    by_cases hq : q = l
    · subst hq
      have ih := subscribersAt_insertAt info ls qs ((n.getChild q).getD empty)
      cases hc : n.getChild q with
      | none =>
        rw [hc, Option.getD_none, subscribersAt_empty] at ih
        simpa using ih
      | some c =>
        rw [hc, Option.getD_some] at ih
        simpa using ih
    · simp [hq]

/-- and what a removal does. -/
theorem subscribersAt_removeAt (client : Str) : ∀ path p n n', removeAt client path n = some n' →
      subscribersAt p n' =
        if p = path then (subscribersAt p n).erase client else subscribersAt p n
  | [], p, n, n', h => by
    simp only [removeAt] at h
    split at h <;> cases h
    cases p <;> rfl
  | l :: ls, p, n, n', h => by
    simp only [removeAt] at h
    split at h
    · rename_i c hc
      obtain ⟨c', hc', rfl⟩ := Option.map_eq_some_iff.1 h
      cases p with
      | nil => rfl
      | cons q qs =>
        have ih := subscribersAt_removeAt client ls qs c c' hc'
        simp only [subscribersAt, getChild_addChild]
        by_cases hq : q = l
        · subst hq
          simpa [hc] using ih
        · simp [hq]
    · cases h

theorem isSome_removeAt (client : Str) : ∀ path (n : Node),
    (n.removeAt client path).isSome = (n.subscribersAt path).has client
  | [], n => by
    rw [removeAt, subscribersAt]
    split <;> simp_all
  | level :: path, n => by
    rw [removeAt, subscribersAt]
    cases n.getChild level with
    | none => rfl
    | some c => simpa using isSome_removeAt client path c

end Node

/-! ## Searching -/

/-- One way of walking the sets. -/
structure SetOrder where
  run : List SubscriberInfo → List SubscriberInfo
  perm : ∀ l, (run l).Perm l

def SetOrder.listed : SetOrder := ⟨id, fun _ => .refl _⟩

variable {o : SetOrder} {i : SubscriberInfo}

@[simp] theorem SetOrder.mem_run {l} : i ∈ o.run l ↔ i ∈ l :=
  (o.perm l).mem_iff

/-- One sort by client id. -/
abbrev ClientSort := KeySort SubscriberInfo.clientId

def Node.hashSubscribers (o : SetOrder) (n : Node) : List SubscriberInfo :=
  match n.getChild hashLevel with
  | some w => o.run w.subscribers.elems
  | none => []

/-- `find_subscribers_recursive`; `first` says that this is the first level. -/
def Node.collect (o : SetOrder) (first : Bool) : List Str → Node → List SubscriberInfo
  | [], n => o.run n.subscribers.elems ++ n.hashSubscribers o
  | t :: ts, n =>
    let exactly := ((n.getChild t).map (collect o false ts)).getD []
    -- A leading wildcard does not match a topic that begins with `$`.
    if first && systemTopic (t :: ts) then exactly
    else
      exactly ++ ((n.getChild plusLevel).map (collect o false ts)).getD []
        ++ n.hashSubscribers o

open Node

theorem Node.mem_hashSubscribers {n : Node} :
    i ∈ n.hashSubscribers o ↔ i ∈ (n.subscribersAt [hashLevel]).elems := by
  unfold hashSubscribers
  cases h : n.getChild hashLevel <;> simp [subscribersAt, h]

theorem Node.mem_child_iff {n : Node} {l} {P : List Str → Prop} {f : Node → List SubscriberInfo}
    (hf : ∀ c, i ∈ f c ↔ ∃ path, P path ∧ i ∈ (c.subscribersAt path).elems) :
    i ∈ ((n.getChild l).map f).getD [] ↔
      ∃ path, P path ∧ i ∈ (n.subscribersAt (l :: path)).elems := by
  cases h : n.getChild l with
  | none => simp [subscribersAt, h]
  | some c => simpa [subscribersAt, h] using hf c

theorem Node.mem_collect_false : ∀ levels (n : Node), i ∈ n.collect o false levels ↔
        ∃ path, matchLevels path levels ∧ i ∈ (n.subscribersAt path).elems
  | [], n => by
    simp only [collect, mem_append, SetOrder.mem_run, mem_hashSubscribers, matchLevels_nil_right]
    constructor
    · rintro (h | h)
      · exact ⟨[], .inl rfl, h⟩
      · exact ⟨_, .inr rfl, h⟩
    · rintro ⟨path, rfl | rfl, h⟩
      · exact .inl h
      · exact .inr h
  | t :: ts, n => by
    simp only [collect, Bool.false_and, Bool.false_eq_true, if_false, mem_append,
      mem_child_iff (mem_collect_false ts), mem_hashSubscribers,
      matchLevels_cons_right]
    constructor
    · rintro ((⟨path, hm, h⟩ | ⟨path, hm, h⟩) | h)
      · exact ⟨t :: path, .inr ⟨t, path, rfl, .inr rfl, hm⟩, h⟩
      · exact ⟨plusLevel :: path, .inr ⟨_, path, rfl, .inl rfl, hm⟩, h⟩
      · exact ⟨_, .inl rfl, h⟩
    · rintro ⟨path, rfl | ⟨f, fs, rfl, rfl | rfl, hm⟩, h⟩
      · exact .inr h
      · exact .inl (.inr ⟨fs, hm, h⟩)
      · exact .inl (.inl ⟨fs, hm, h⟩)

theorem Node.collect_true_of_not_system {levels} (h : systemTopic levels = false)
    (n : Node) : n.collect o true levels = n.collect o false levels := by
  cases levels with
  | nil => rfl
  | cons t ts => simp [collect, h]

theorem leadingWildcard_of_system {t ts path}
    (h : systemTopic (t :: ts)) : leadingWildcard (t :: path) = false := by
  cases t with
  | nil => simp [systemTopic] at h
  | cons c cs =>
    have hc : c = dollar := by simpa [systemTopic] using h
    subst hc
    simp [leadingWildcard, plusLevel, hashLevel, dollar]

theorem matchLevels_self : ∀ path, matchLevels path path
  | [] => rfl
  | l :: ls => by simp [matchLevels, matchLevels_self ls]

theorem filterMatches_self (path : List Str) : filterMatches path path := by
  rw [filterMatches, matchLevels_self, Bool.and_true]
  cases path with
  | nil => rfl
  | cons t ts =>
    cases hs : systemTopic (t :: ts) with
    | false => rfl
    | true => rw [leadingWildcard_of_system hs]; rfl

/-- What a search returns. -/
theorem Node.mem_collect (levels : List Str) (n : Node) : i ∈ n.collect o true levels ↔
      ∃ path, filterMatches path levels ∧ i ∈ (n.subscribersAt path).elems := by
  cases hs : systemTopic levels with
  | false =>
    rw [collect_true_of_not_system hs, mem_collect_false]
    simp [filterMatches, hs]
  | true =>
    cases levels with
    | nil => simp [systemTopic] at hs
    | cons t ts =>
      have hc : n.collect o true (t :: ts) =
          ((n.getChild t).map (collect o false ts)).getD [] := by
        simp [collect, hs]
      rw [hc, mem_child_iff (mem_collect_false ts)]
      simp only [filterMatches, hs, Bool.true_and, Bool.and_eq_true, Bool.not_eq_true',
        matchLevels_cons_right]
      constructor
      · rintro ⟨path, hm, h⟩
        exact ⟨t :: path, ⟨leadingWildcard_of_system hs, .inr ⟨t, path, rfl, .inr rfl, hm⟩⟩, h⟩
      · rintro ⟨path, ⟨hw, rfl | ⟨f, fs, rfl, rfl | rfl, hm⟩⟩, h⟩
        · simp [leadingWildcard] at hw
        · simp [leadingWildcard] at hw
        · exact ⟨fs, hm, h⟩

/-! ## The tree's operations -/

inductive TreeError where
  | param
  | invalidTopic
  | notFound

/-- `ConcurrentTopicTree`: the root and the two counters. -/
structure TopicTree where
  root : Node
  totalSubscribers : Nat
  totalNodes : Nat

namespace TopicTree

def new : TopicTree := { root := .empty, totalSubscribers := 0, totalNodes := 1 }

/-- The loop of `validate_topic_filter`: `previous` is the byte before. -/
def validFilterFrom (previous : Option UInt8) : Str → Bool
  | [] => true
  | c :: cs =>
    let startsLevel := previous == none || previous == some slash
    let endsLevel := cs.isEmpty || cs.head? == some slash
    (if [c] == hashLevel then startsLevel && cs.isEmpty
     else if [c] == plusLevel then startsLevel && endsLevel
     else true) && validFilterFrom (some c) cs

def validateTopicFilter (filter : Str) : Bool := !filter.isEmpty && validFilterFrom none filter

def splitTopicLevels (topic : Str) : Except TreeError (List Str) :=
  if topic = [] then .error .invalidTopic
  else if topic.length > 65535 then .error .invalidTopic
  else .ok (splitLevels topic)

/-- `subscribe(filter, client, options)`. -/
def subscribe (t : TopicTree) (filter client : Str) (options : SubscriptionOptions) :
    Except TreeError TopicTree :=
  if client = [] then .error .param
  else if !validateTopicFilter filter then .error .param
  else
    match splitTopicLevels filter with
    | .error _ => .error .param
    | .ok levels =>
      if levels = [] then .error .param
      else
        .ok { root := t.root.insertAt (.ofOptions client options) levels
              totalSubscribers := t.totalSubscribers +
                (if (t.root.subscribersAt levels).has client then 0 else 1)
              totalNodes := t.totalNodes + t.root.missing levels }

/-- `unsubscribe(filter, client)`. -/
def unsubscribe (t : TopicTree) (filter client : Str) : Except TreeError TopicTree :=
  if filter = [] ∨ client = [] then .error .param
  else
    match splitTopicLevels filter with
    | .error _ => .error .param
    | .ok levels =>
      if levels = [] then .error .param
      else
        match t.root.removeAt client levels with
        | none => .error .notFound
        | some root => .ok { t with root, totalSubscribers := t.totalSubscribers - 1 }

/-- What `subscribe` accepts. -/
def accepts (filter client : Str) : Bool :=
  !client.isEmpty && validateTopicFilter filter && decide (filter.length ≤ 65535)

theorem valid_of_accepts {f c} (h : accepts f c) : f ≠ [] ∧ c ≠ [] ∧ f.length ≤ 65535 := by
  simp only [accepts, validateTopicFilter, Bool.and_eq_true, Bool.not_eq_true',
    isEmpty_eq_false_iff, decide_eq_true_eq] at h
  exact ⟨h.1.2.1, h.1.1, h.2⟩

theorem subscribe_ok {t : TopicTree} {filter client options} (h : accepts filter client) :
    ∃ t', t.subscribe filter client options = .ok t' ∧
      t'.root = t.root.insertAt (.ofOptions client options) (splitLevels filter) := by
  obtain ⟨hf, hc, hl⟩ := valid_of_accepts h
  have hv : validateTopicFilter filter := by
    simp only [accepts, Bool.and_eq_true] at h
    exact h.1.2
  have hl' : ¬ filter.length > 65535 := by omega
  simp only [subscribe, hc, hv, splitTopicLevels, hf, hl', splitLevels_ne_nil hf, if_false,
    Bool.not_true, Bool.false_eq_true]
  exact ⟨_, rfl, rfl⟩

variable {t t' : TopicTree} {f c : Str}

theorem subscribe_error {filter client options}
    (h : accepts filter client = false) : t.subscribe filter client options = .error .param := by
  unfold subscribe
  by_cases hc : client = []
  · simp [hc]
  by_cases hv : validateTopicFilter filter
  · have hl : filter.length > 65535 := by
      by_contra hl
      have hle : filter.length ≤ 65535 := by omega
      simp [accepts, hc, hv, hle] at h
    have hf : filter ≠ [] := by
      intro hf
      simp [hf] at hl
    simp [hc, hv, splitTopicLevels, hf, hl]
  · simp [hc, hv]

theorem exists_unsubscribe : (∃ t', t.unsubscribe f c = .ok t') ↔
    (f ≠ [] ∧ c ≠ [] ∧ f.length ≤ 65535) ∧
      (t.root.subscribersAt (splitLevels f)).has c := by
  rw [← Node.isSome_removeAt]
  by_cases hf : f = []
  · simp [unsubscribe, hf]
  by_cases hc : c = []
  · simp [unsubscribe, hc]
  by_cases hl : f.length > 65535
  · simp [unsubscribe, splitTopicLevels, hf, hc, hl, Nat.not_le.2 hl]
  cases hr : t.root.removeAt c (splitLevels f) <;>
    simp [unsubscribe, splitTopicLevels, hf, hc, hl, splitLevels_ne_nil hf, hr, Nat.le_of_not_lt hl]

section

variable (h : t.unsubscribe f c = .ok t')
include h

theorem unsubscribe_ok : t.root.removeAt c (splitLevels f) = some t'.root := by
  rw [unsubscribe] at h
  split_ifs at h with hp
  obtain ⟨hf, -⟩ := not_or.1 hp
  by_cases hl : f.length > 65535
  · simp [splitTopicLevels, hf, hl] at h
  cases hr : t.root.removeAt c (splitLevels f) with
  | none => simp [splitTopicLevels, hf, hl, splitLevels_ne_nil hf, hr] at h
  | some root =>
    simp only [splitTopicLevels, hf, hl, splitLevels_ne_nil hf, hr, if_false] at h
    cases h
    rfl

theorem subscribersAt_unsubscribe (path : List Str) :
    t'.root.subscribersAt path =
      if path = splitLevels f then (t.root.subscribersAt path).erase c
      else t.root.subscribersAt path :=
  subscribersAt_removeAt c _ _ _ _ (unsubscribe_ok h)

theorem mem_unsubscribe {path i} :
    i ∈ (t'.root.subscribersAt path).elems ↔
      i ∈ (t.root.subscribersAt path).elems ∧ ¬ (i.clientId = c ∧ splitLevels f = path) := by
  rw [subscribersAt_unsubscribe h]
  split
  · next hp => simp [hp]
  · next hp => simp [Ne.symm hp]

theorem has_unsubscribe {x path} : (t'.root.subscribersAt path).has x ↔
      (t.root.subscribersAt path).has x ∧ ¬ (x = c ∧ splitLevels f = path) := by
  rw [subscribersAt_unsubscribe h]
  split
  · next hp => simp [hp, SubscriberSet.has_erase]
  · next hp => simp [Ne.symm hp]

end

/-- `find_subscribers(topic)`: the entries found, sorted by client id and collapsed by
`std::unique`, whose equality is that of `SubscriberInfo`: equal client ids. -/
def findSubscribers (t : TopicTree) (o : SetOrder) (sort : ClientSort) (topic : Str) :
    Except TreeError (List SubscriberInfo) :=
  if topic = [] then .error .param
  else
    match splitTopicLevels topic with
    | .error e => .error e
    | .ok levels => .ok (sortUnique sort (t.root.collect o true levels))

end TopicTree

/-! ## Runs -/

inductive TreeOp where
  | subscribe (client filter : Str) (options : SubscriptionOptions)
  | unsubscribe (client filter : Str)
  deriving DecidableEq

def TreeOp.apply (t : TopicTree) : TreeOp → TopicTree
  | .subscribe client filter options => (t.subscribe filter client options).toOption.getD t
  | .unsubscribe client filter => (t.unsubscribe filter client).toOption.getD t

open TreeOp

theorem TreeOp.apply_unsubscribe {t t' f c}
    (h : t.unsubscribe f c = .ok t') : (unsubscribe c f).apply t = t' := by
  rw [apply, h]
  rfl

def runOps (ops : List TreeOp) : TopicTree := ops.foldl apply .new

theorem runOps_append_singleton (ops : List TreeOp) (op : TreeOp) :
    runOps (ops ++ [op]) = op.apply (runOps ops) := by
  simp [runOps]

open TopicTree

theorem mem_apply_subscribe {t : TopicTree} {client filter options}
    (h : accepts filter client) {path} :
    i ∈ (((subscribe client filter options).apply t).root.subscribersAt path).elems ↔
      i = .ofOptions client options ∧ splitLevels filter = path ∨
        i ∈ (t.root.subscribersAt path).elems ∧
          ¬ (i.clientId = client ∧ splitLevels filter = path) := by
  obtain ⟨t', hok, hroot⟩ := @subscribe_ok t _ _ options h
  rw [apply, hok, Except.toOption, Option.getD_some, hroot, subscribersAt_insertAt]
  split
  · next hp => simp [hp]
  · next hp => simp [Ne.symm hp]

theorem has_apply_subscribe (t : TopicTree) (client filter x : Str)
    (options : SubscriptionOptions) (path : List Str) :
    (((subscribe client filter options).apply t).root.subscribersAt path).has x ↔
      (t.root.subscribersAt path).has x ∨
        accepts filter client ∧ x = client ∧ splitLevels filter = path := by
  cases ha : accepts filter client with
  | false => simp [apply, subscribe_error ha, Except.toOption]
  | true =>
    simp only [SubscriberSet.has_iff, mem_apply_subscribe ha, true_and]
    constructor
    · rintro ⟨i, ⟨rfl, hp⟩ | ⟨hi, -⟩, rfl⟩
      · exact .inr ⟨rfl, hp⟩
      · exact .inl ⟨i, hi, rfl⟩
    · rintro (⟨i, hi, rfl⟩ | ⟨rfl, hp⟩)
      · by_cases hic : i.clientId = client ∧ splitLevels filter = path
        · exact ⟨_, .inl ⟨rfl, hic.2⟩, hic.1.symm⟩
        · exact ⟨i, .inr ⟨hi, hic⟩, rfl⟩
      · exact ⟨_, .inl ⟨rfl, hp⟩, rfl⟩

theorem has_runOps {ops} (hops : ∀ op ∈ ops, ∃ c f o, op = .subscribe c f o)
    (path : List Str) (x : Str) : ((runOps ops).root.subscribersAt path).has x ↔
      ∃ f o, subscribe x f o ∈ ops ∧ accepts f x ∧
        splitLevels f = path := by
  induction ops using List.reverseRecOn with
  | nil => simp [runOps, new, subscribersAt_empty, SubscriberSet.has]
  | append_singleton ops op ih =>
    obtain ⟨c, f, o, rfl⟩ := hops op (by simp)
    rw [runOps_append_singleton, has_apply_subscribe,
      ih fun op hop => hops op (mem_append_left _ hop)]
    constructor
    · rintro (⟨f', o', hm, h⟩ | ⟨ha, rfl, rfl⟩)
      · exact ⟨f', o', mem_append_left _ hm, h⟩
      · exact ⟨f, o, by simp, ha, rfl⟩
    · rintro ⟨f', o', hm, ha, hp⟩
      rcases mem_append.1 hm with hm | hm
      · exact .inl ⟨f', o', hm, ha, hp⟩
      · rw [mem_singleton, subscribe.injEq] at hm
        obtain ⟨rfl, rfl, rfl⟩ := hm
        exact .inr ⟨ha, rfl, hp⟩

end Mqtts
