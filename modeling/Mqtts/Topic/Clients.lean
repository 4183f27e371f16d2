import Mathlib.Data.Set.Card
import Mathlib.Data.Set.Finite.Lemmas
import Mqtts.Topic.Matching

/-!
# The subscriptions of one client in the topic tree

`unsubscribe_all` lists the filters of a client and unsubscribes from each of them. The list is made
by a walk over the tree which rebuilds a filter from the path of each node that holds the client,
and `unsubscribe` cuts the filter into levels again. A join forgets the empty levels that a path
begins with, and the cut drops an empty level at the end.

The children of a node are walked in the order of their list. The source walks a hash map; which
filters are listed, and so what is removed, does not depend on the order.
-/

namespace Mqtts

open List Assoc SortUnique TopicTree SubscriberSet Node

def joinTopicPath (current child : Str) : Str :=
  if current = [] then child else current ++ slash :: child

mutual

/-- `collect_client_subscriptions`: the paths of the nodes that have an entry of the client. -/
def Node.clientSubscriptions (client path : Str) : Node → List Str
  | .mk subscribers children =>
    (if subscribers.has client then [path] else []) ++ childSubscriptions client path children

def childSubscriptions (client path : Str) : List (Str × Node) → List Str
  | [] => []
  | child :: rest => entrySubscriptions client path child ++ childSubscriptions client path rest

def entrySubscriptions (client path : Str) : Str × Node → List Str
  | (level, child) => child.clientSubscriptions client (joinTopicPath path level)

end

namespace TopicTree

variable (t : TopicTree) (client : Str)

def getClientSubscriptions : List Str :=
  t.root.clientSubscriptions client []

/-- One round of the loop of `unsubscribe_all`. -/
def unsubscribeRound (x : Nat × TopicTree) (filter : Str) : Nat × TopicTree :=
  match x.2.unsubscribe filter client with
  | .ok t => (x.1 + 1, t)
  | .error _ => x

/-- `unsubscribe_all` of the tree: the number of subscriptions that were removed. -/
def unsubscribeAll : Nat × TopicTree :=
  if client = [] then (0, t)
  else (t.getClientSubscriptions client).foldl (unsubscribeRound client) (0, t)

def HeldAt (path : List Str) : Prop :=
  (t.root.subscribersAt path).has client

def Finds (o : SetOrder) (sort : ClientSort) (topic client : Str) : Prop :=
  ∃ found, t.findSubscribers o sort topic = .ok found ∧ client ∈ found.map (·.clientId)

def subscribeEach (options : Str → SubscriptionOptions) (filters : List Str) (t : TopicTree) :
    TopicTree :=
  filters.foldl (fun t f => (TreeOp.subscribe client f (options f)).apply t) t

end TopicTree

/-! ## Joining and cutting -/

def joined (path : List Str) : Str := path.foldl joinTopicPath []

/-- The path neither begins nor ends with an empty level. -/
def Plain (path : List Str) : Prop := path.head? ≠ some [] ∧ path.getLast? ≠ some []

/-- No level of the path has a separator in it. -/
def Cut (path : List Str) : Prop := ∀ l ∈ path, slash ∉ l

theorem foldl_joinTopicPath {a : Str} (ha : a ≠ []) (ls : List Str) :
    ls.foldl joinTopicPath a = joinLevels (a :: ls) := by
  induction ls generalizing a with
  | nil => rfl
  | cons l ls ih =>
    have hne : a ++ slash :: l ≠ [] := by simp
    rw [foldl_cons, joinTopicPath, if_neg ha, ih hne]
    cases ls with
    | nil => rfl
    | cons l' ls => simp [joinLevels]

variable {l : Str} {path : List Str}

theorem joined_cons (hl : l ≠ []) (ls : List Str) : joined (l :: ls) = joinLevels (l :: ls) :=
  foldl_joinTopicPath hl ls

theorem joined_nil_cons (ls : List Str) : joined ([] :: ls) = joined ls := rfl

theorem splitLevelsFrom_append (hl : slash ∉ l) (current rest : Str) :
    splitLevelsFrom current (l ++ rest) = splitLevelsFrom (current ++ l) rest := by
  induction l generalizing current with
  | nil => simp
  | cons c cs ih =>
    rw [mem_cons, not_or] at hl
    obtain ⟨hc, hcs⟩ := hl
    rw [cons_append, splitLevelsFrom, if_neg (Ne.symm hc), ih hcs, append_assoc]
    rfl

theorem splitLevels_joinLevels {ls} (h : Cut (l :: ls)) : splitLevels (joinLevels (l :: ls)) =
      if (l :: ls).getLast? = some [] then (l :: ls).dropLast else l :: ls := by
  induction ls generalizing l with
  | nil =>
    have hcut := splitLevelsFrom_append (h l mem_cons_self) [] []
    rw [append_nil] at hcut
    rw [splitLevels, joinLevels, hcut]
    by_cases hl : l = [] <;> simp [splitLevelsFrom, hl]
  | cons l' ls ih =>
    have hrest := ih fun x hx => h x (mem_cons_of_mem _ hx)
    rw [joinLevels, splitLevels, splitLevelsFrom_append (h l mem_cons_self),
      splitLevelsFrom, if_pos rfl, ← splitLevels, hrest, nil_append, List.getLast?_cons_cons]
    split <;> simp

/-- The cut takes the join of a plain path back. -/
theorem splitLevels_joined (hcut : Cut path) (h : Plain path) :
    splitLevels (joined path) = path := by
  cases path with
  | nil => rfl
  | cons l ls =>
    have hl : l ≠ [] := by simpa using h.1
    rw [joined_cons hl, splitLevels_joinLevels hcut, if_neg h.2]

theorem length_levels_joined_le (hcut : Cut path) :
    (splitLevels (joined path)).length ≤ path.length := by
  induction path with
  | nil => simp [joined, splitLevels, splitLevelsFrom]
  | cons l ls ih =>
    by_cases hl : l = []
    · have hle := ih fun x hx => hcut x (mem_cons_of_mem _ hx)
      rw [hl, joined_nil_cons, length_cons]
      omega
    · rw [joined_cons hl, splitLevels_joinLevels hcut]
      split
      · simp
      · exact Nat.le_of_eq rfl

/-- A path that is not plain is cut shorter than it was, so the longest one stays in the tree. -/
theorem length_levels_joined_lt (hcut : Cut path) (h : ¬ Plain path) :
    (splitLevels (joined path)).length < path.length := by
  cases path with
  | nil => exact absurd ⟨by simp, by simp⟩ h
  | cons l ls =>
    by_cases hl : l = []
    · have hle := length_levels_joined_le fun x hx => hcut x (mem_cons_of_mem l hx)
      rw [hl, joined_nil_cons, length_cons]
      omega
    · have hlast : (l :: ls).getLast? = some [] := by
        by_contra hlast
        exact h ⟨by simpa using hl, hlast⟩
      rw [joined_cons hl, splitLevels_joinLevels hcut, if_pos hlast]
      simp

theorem cut_splitLevelsFrom : ∀ (topic : Str) {current}, slash ∉ current →
    Cut (splitLevelsFrom current topic)
  | [], current, h => by
    intro l hl
    rw [splitLevelsFrom] at hl
    split at hl
    · simp at hl
    · rwa [mem_singleton.1 hl]
  | c :: cs, current, h => by
    rw [splitLevelsFrom]
    split
    · intro l hl
      rcases mem_cons.1 hl with rfl | hl
      · exact h
      · exact cut_splitLevelsFrom cs (by simp) l hl
    · rename_i hc
      exact cut_splitLevelsFrom cs (by simpa [h] using Ne.symm hc)

theorem joinLevels_splitLevelsFrom (topic current : Str) :
    joinLevels (splitLevelsFrom current topic) = current ++ topic ∨
      joinLevels (splitLevelsFrom current topic) ++ [slash] = current ++ topic := by
  induction topic generalizing current with
  | nil => by_cases hc : current = [] <;> simp [splitLevelsFrom, hc, joinLevels]
  | cons c cs ih =>
    by_cases hs : c = slash
    · subst hs
      rw [splitLevelsFrom, if_pos rfl]
      by_cases hcs : cs = []
      · exact .inr (by simp [hcs, splitLevelsFrom, joinLevels])
      rw [joinLevels_cons (splitLevelsFrom_ne_nil (.inr hcs))]
      refine (ih []).imp (fun h => ?_) fun h => ?_
      · rw [h, nil_append]
      · rw [append_assoc, cons_append, h, nil_append]
    · rw [splitLevelsFrom, if_neg hs, append_cons current c cs]
      exact ih _

theorem validFilterFrom_of_append {filter} : ∀ {previous},
    validFilterFrom previous (filter ++ [slash]) →
      validFilterFrom previous filter := by
  induction filter with
  | nil => simp [validFilterFrom]
  | cons c cs ih =>
    intro previous h
    simp only [cons_append, validFilterFrom, Bool.and_eq_true] at h ⊢
    refine ⟨?_, ih h.2⟩
    have hhead := h.1
    cases cs with
    | nil => split at hhead <;> simp_all
    | cons d ds => simpa using hhead

theorem accepts_joined {filter client} (h : accepts filter client)
    (hplain : Plain (splitLevels filter)) : accepts (joined (splitLevels filter)) client := by
  simp only [accepts, validateTopicFilter, Bool.and_eq_true,
    Bool.not_eq_true', isEmpty_eq_false_iff, decide_eq_true_eq] at h ⊢
  obtain ⟨⟨hc, hf, hv⟩, hl⟩ := h
  have hpath := splitLevels_ne_nil hf
  obtain ⟨l, ls, hp⟩ := exists_cons_of_ne_nil hpath
  have hhead : l ≠ [] := by
    have hne := hplain.1
    rw [hp] at hne
    simpa using hne
  have hjoin : joined (splitLevels filter) = joinLevels (splitLevels filter) := by
    rw [hp, joined_cons hhead]
  have hne : joined (splitLevels filter) ≠ [] := by
    rw [hjoin, hp]
    cases ls <;> simp [joinLevels, hhead]
  rcases joinLevels_splitLevelsFrom filter [] with heq | heq
  · rw [nil_append, ← splitLevels, ← hjoin] at heq
    rw [heq]
    exact ⟨⟨hc, hf, hv⟩, hl⟩
  · rw [nil_append, ← splitLevels, ← hjoin] at heq
    rw [← heq] at hv hl
    rw [length_append] at hl
    exact ⟨⟨hc, hne, validFilterFrom_of_append hv⟩, by omega⟩

/-! ## Trees whose children can be reached -/

inductive Node.Tidy : Node → Prop where
  | mk {subscribers : SubscriberSet} {children : List (Str × Node)} :
      (children.map Prod.fst).Nodup → (∀ child ∈ children, child.2.Tidy) →
        Node.Tidy (.mk subscribers children)

namespace Node

variable {n : Node} {client : Str}

theorem Tidy.nodup (h : n.Tidy) : (n.children.map Prod.fst).Nodup := by
  cases h with
  | mk hnodup _ => exact hnodup

theorem Tidy.child (h : n.Tidy) {child} (hmem : child ∈ n.children) : child.2.Tidy := by
  cases h with
  | mk _ hchildren => exact hchildren child hmem

theorem tidy_empty : empty.Tidy := .mk nodup_nil fun _ hmem => absurd hmem not_mem_nil

theorem Tidy.getChild {c} (h : n.Tidy) {level} (hc : n.getChild level = some c) : c.Tidy :=
  h.child (mem_of_lookup hc)

theorem Tidy.addChild {c} (h : n.Tidy) (hc : c.Tidy) (level : Str) : (n.addChild level c).Tidy := by
  refine .mk (nodup_keys_assocSet h.nodup) fun child hmem => ?_
  rcases mem_assocSet hmem with rfl | hmem
  · exact hc
  · exact h.child hmem

theorem Tidy.insertAt (info : SubscriberInfo) : ∀ path {n : Node}, n.Tidy →
    (n.insertAt info path).Tidy
  | [], n, h => .mk h.nodup fun _ => h.child
  | level :: path, n, h => by
    refine h.addChild (Tidy.insertAt info path ?_) level
    cases hc : n.getChild level with
    | none => exact tidy_empty
    | some c => exact h.getChild hc

theorem Tidy.removeAt (client : Str) : ∀ path {n n' : Node}, n.Tidy →
    n.removeAt client path = some n' → n'.Tidy
  | [], n, n', h, heq => by
    simp only [Node.removeAt] at heq
    split at heq <;> cases heq
    exact .mk h.nodup fun _ => h.child
  | level :: path, n, n', h, heq => by
    simp only [Node.removeAt] at heq
    split at heq
    · rename_i c hc
      obtain ⟨c', hc', rfl⟩ := Option.map_eq_some_iff.1 heq
      exact h.addChild (Tidy.removeAt client path (h.getChild hc) hc') level
    · cases heq

theorem has_of_removeAt {path n'} (h : n.removeAt client path = some n') :
    (n.subscribersAt path).has client := by
  rw [← isSome_removeAt, h]
  rfl

theorem mem_childSubscriptions {path f children} : f ∈ childSubscriptions client path children ↔
      ∃ child ∈ children, f ∈ child.2.clientSubscriptions client (joinTopicPath path child.1) := by
  induction children with
  | nil => simp [childSubscriptions]
  | cons child rest ih =>
    rw [childSubscriptions, mem_append, ih, exists_mem_cons_iff, entrySubscriptions]

theorem Tidy.mem_clientSubscriptions (h : n.Tidy) {path f} : f ∈ n.clientSubscriptions client path ↔
      ∃ q, (n.subscribersAt q).has client ∧ q.foldl joinTopicPath path = f := by
  induction h generalizing path with
  | @mk subscribers children hnodup _ ih =>
    rw [clientSubscriptions, mem_append, mem_childSubscriptions]
    constructor
    · rintro (hhere | ⟨child, hchild, hf⟩)
      · split at hhere
        · next hhas => exact ⟨[], hhas, (mem_singleton.1 hhere).symm⟩
        · cases hhere
      · obtain ⟨q, hq, rfl⟩ := (ih child hchild).1 hf
        have hget : (Node.mk subscribers children).getChild child.1 = some child.2 :=
          lookup_of_mem hnodup hchild
        exact ⟨child.1 :: q, by rwa [subscribersAt, hget], rfl⟩
    · rintro ⟨q, hq, rfl⟩
      cases q with
      | nil => exact .inl (by rw [if_pos (show subscribers.has client from hq)]; simp)
      | cons level q =>
        rw [subscribersAt] at hq
        cases hget : (Node.mk subscribers children).getChild level with
        | none => simp [hget, has] at hq
        | some c =>
          rw [hget] at hq
          have hchild := mem_of_lookup hget
          exact .inr ⟨(level, c), hchild, (ih _ hchild).2 ⟨q, hq, rfl⟩⟩

end Node

/-! ## The tree after a sequence of calls -/

namespace TopicTree

variable {t t' : TopicTree} {f c client : Str} {path : List Str}

/-- What holds of the tree after any sequence of calls. -/
structure Grown (t : TopicTree) : Prop where
  tidy : t.root.Tidy
  finite : ∀ c, {path | t.HeldAt c path}.Finite
  accepted : ∀ {c path}, t.HeldAt c path → ∃ f, accepts f c ∧ splitLevels f = path

theorem Grown.subscribe (h : t.Grown) (c f : Str) (options : SubscriptionOptions) :
    ((TreeOp.subscribe c f options).apply t).Grown := by
  have hheld := fun x path => has_apply_subscribe t c f x options path
  refine ⟨?_, fun x => ?_, fun {x path} hafter => ?_⟩
  · cases ha : accepts f c with
    | false => simpa [TreeOp.apply, subscribe_error ha, Except.toOption] using h.tidy
    | true =>
      obtain ⟨t', hok, hroot⟩ := @subscribe_ok t _ _ options ha
      simpa [TreeOp.apply, hok, Except.toOption, hroot] using h.tidy.insertAt _ _
  · refine ((h.finite x).insert (splitLevels f)).subset fun path hafter => ?_
    rcases (hheld x path).1 hafter with hbefore | ⟨-, -, rfl⟩
    · exact .inr hbefore
    · exact .inl rfl
  · rcases (hheld x path).1 hafter with hbefore | ⟨ha, rfl, hp⟩
    · exact h.accepted hbefore
    · exact ⟨f, ha, hp⟩

theorem Grown.unsubscribe (h : t.Grown) (hok : t.unsubscribe f c = .ok t') : t'.Grown :=
  ⟨h.tidy.removeAt _ _ (unsubscribe_ok hok),
    fun x => (h.finite x).subset fun _ hafter => ((has_unsubscribe hok).1 hafter).1,
    fun hafter => h.accepted ((has_unsubscribe hok).1 hafter).1⟩

theorem grown_runOps (ops : List TreeOp) : (runOps ops).Grown := by
  induction ops using List.reverseRecOn with
  | nil =>
    have hnone : ∀ c path, ¬ (runOps []).HeldAt c path := by
      intro c path
      simp [runOps, new, HeldAt, subscribersAt_empty, has]
    exact ⟨tidy_empty, fun c => by simp [hnone], fun hheld => (hnone _ _ hheld).elim⟩
  | append_singleton ops op ih =>
    rw [runOps_append_singleton]
    cases op with
    | subscribe c f options => exact ih.subscribe c f options
    | unsubscribe c f =>
      cases hok : (runOps ops).unsubscribe f c with
      | error e => simpa [TreeOp.apply, hok, Except.toOption] using ih
      | ok t' => simpa [TreeOp.apply, hok, Except.toOption] using ih.unsubscribe hok

theorem finds_iff {o} {sort : ClientSort} {topic} :
    t.Finds o sort topic client ↔ topic ≠ [] ∧ topic.length ≤ 65535 ∧
      ∃ path, filterMatches path (splitLevels topic) ∧ t.HeldAt client path := by
  by_cases hne : topic = []
  · simp [Finds, findSubscribers, hne]
  by_cases hlen : topic.length > 65535
  · have hlen' : ¬ topic.length ≤ 65535 := by omega
    simp [Finds, findSubscribers, splitTopicLevels, hne, hlen, hlen']
  obtain ⟨found, hfound, hmem⟩ := t.findSubscribers_ok hne (Nat.le_of_not_lt hlen) o sort
  simp only [Finds, hfound, Except.ok.injEq, exists_eq_left', hmem, HeldAt, ne_eq, hne,
    not_false_eq_true, true_and, Nat.le_of_not_lt hlen]

/-! ## The loop -/

theorem unsubscribeRound_cases (client f : Str) (x : Nat × TopicTree) :
    (∃ t', x.2.unsubscribe f client = .ok t' ∧ unsubscribeRound client x f = (x.1 + 1, t')) ∨
      (∃ e, x.2.unsubscribe f client = .error e) ∧ unsubscribeRound client x f = x := by
  rw [unsubscribeRound]
  cases x.2.unsubscribe f client with
  | ok t' => exact .inl ⟨t', rfl, rfl⟩
  | error e => exact .inr ⟨⟨e, rfl⟩, rfl⟩

theorem unsubscribe_loop_frame (client : Str) (path : List Str) (i : SubscriberInfo) :
    ∀ (fs : List Str) x,
      (i ∈ ((fs.foldl (unsubscribeRound client) x).2.root.subscribersAt path).elems →
        i ∈ (x.2.root.subscribersAt path).elems) ∧
      (i ∈ (x.2.root.subscribersAt path).elems → i.clientId ≠ client ∨ path ∉ fs.map splitLevels →
          i ∈ ((fs.foldl (unsubscribeRound client) x).2.root.subscribersAt path).elems)
  | [], _ => ⟨id, fun h _ => h⟩
  | f :: fs, x => by
    have ih := unsubscribe_loop_frame client path i fs (unsubscribeRound client x f)
    have hor : (i.clientId ≠ client ∨ path ∉ (f :: fs).map splitLevels) →
        i.clientId ≠ client ∨ path ∉ fs.map splitLevels :=
      Or.imp_right fun hn hm => hn (mem_cons_of_mem _ hm)
    rw [foldl_cons]
    rcases unsubscribeRound_cases client f x with ⟨t', hok, hround⟩ | ⟨-, hround⟩
    · rw [hround] at ih ⊢
      rw [mem_unsubscribe hok] at ih
      refine ⟨fun h => (ih.1 h).1, fun h hnot => ih.2 ⟨h, ?_⟩ (hor hnot)⟩
      rintro ⟨hclient, rfl⟩
      exact hnot.elim (· hclient) (· mem_cons_self)
    · rw [hround] at ih ⊢
      exact ⟨ih.1, fun h hnot => ih.2 h (hor hnot)⟩

theorem heldAt_of_loop {fs : List Str} {x}
    (h : (fs.foldl (unsubscribeRound client) x).2.HeldAt client path) : x.2.HeldAt client path := by
  obtain ⟨i, hi, hic⟩ := has_iff.1 h
  exact has_iff.2 ⟨i, (unsubscribe_loop_frame client path i fs x).1 hi, hic⟩

theorem unsubscribe_loop_gone (hc : client ≠ []) (hf : f ≠ []) (hl : f.length ≤ 65535) :
    ∀ (fs : List Str) x, f ∈ fs →
      ¬ (fs.foldl (unsubscribeRound client) x).2.HeldAt client (splitLevels f)
  | g :: fs, x, hmem, hafter => by
    rw [foldl_cons] at hafter
    rcases mem_cons.1 hmem with rfl | hmem
    · have hheld := heldAt_of_loop hafter
      rcases unsubscribeRound_cases client f x with ⟨t', hok, hround⟩ | ⟨⟨e, herror⟩, hround⟩
      · rw [hround] at hheld
        exact ((has_unsubscribe hok).1 hheld).2 ⟨rfl, rfl⟩
      · rw [hround] at hheld
        obtain ⟨t', hok⟩ := exists_unsubscribe.2 ⟨⟨hf, hc, hl⟩, hheld⟩
        rw [hok] at herror
        cases herror
    · exact unsubscribe_loop_gone hc hf hl fs _ hmem hafter

theorem unsubscribe_loop_count : ∀ (fs : List Str) x, {path | x.2.HeldAt client path}.Finite →
      (fs.foldl (unsubscribeRound client) x).1 +
          Set.ncard {path | (fs.foldl (unsubscribeRound client) x).2.HeldAt client path} =
        x.1 + Set.ncard {path | x.2.HeldAt client path}
  | [], _, _ => rfl
  | f :: fs, x, hfinite => by
    rw [foldl_cons]
    rcases unsubscribeRound_cases client f x with ⟨t', hok, hround⟩ | ⟨-, hround⟩
    · have hset : {path | t'.HeldAt client path} =
          {path | x.2.HeldAt client path} \ {splitLevels f} := by
        ext path
        refine (has_unsubscribe hok).trans (and_congr_right' (not_congr ?_))
        exact ⟨fun h => h.2.symm, fun h => ⟨rfl, h.symm⟩⟩
      have hmem : splitLevels f ∈ {path | x.2.HeldAt client path} :=
        has_of_removeAt (unsubscribe_ok hok)
      have hcount := Set.ncard_sdiff_singleton_add_one hmem hfinite
      rw [hround, unsubscribe_loop_count fs _ (by rw [hset]; exact hfinite.sdiff), hset]
      omega
    · rw [hround]
      exact unsubscribe_loop_count fs x hfinite

theorem heldAt_subscribeEach {options : Str → SubscriptionOptions} : ∀ fs
    (t : TopicTree), (t.subscribeEach client options fs).HeldAt client path ↔
      t.HeldAt client path ∨ ∃ f ∈ fs, accepts f client ∧ splitLevels f = path
  | [], t => by simp [subscribeEach]
  | f :: fs, t => by
    rw [subscribeEach, foldl_cons, ← subscribeEach, heldAt_subscribeEach fs, HeldAt,
      has_apply_subscribe]
    simp only [mem_cons, exists_eq_or_imp, true_and, or_assoc]
    rfl

/-! ## Removing the client -/

/-- What `unsubscribe_all` is for: it returns the number of nodes that held the client, the
client is gone and no search returns it, the entries of the others are as they were, and the
filters listed before lead to the same searches when they are subscribed to again. -/
structure RemovesClient (t : TopicTree) (o : SetOrder) (sort : ClientSort) (client : Str) : Prop
    where
  counted : (t.unsubscribeAll client).1 = Set.ncard {path | t.HeldAt client path}
  gone : ∀ path, ¬ (t.unsubscribeAll client).2.HeldAt client path
  unfound : ∀ topic, ¬ (t.unsubscribeAll client).2.Finds o sort topic client
  others : ∀ path i, i.clientId ≠ client →
    (i ∈ ((t.unsubscribeAll client).2.root.subscribersAt path).elems ↔
      i ∈ (t.root.subscribersAt path).elems)
  restored : ∀ options topic, ((t.unsubscribeAll client).2.subscribeEach client options
      (t.getClientSubscriptions client)).Finds o sort topic client ↔ t.Finds o sort topic client

namespace Grown

section

variable (h : t.Grown)
include h

theorem client_ne_nil (hheld : t.HeldAt client path) : client ≠ [] := by
  obtain ⟨f, ha, -⟩ := h.accepted hheld
  exact (valid_of_accepts ha).2.1

theorem cut (hheld : t.HeldAt client path) : Cut path := by
  obtain ⟨f, -, rfl⟩ := h.accepted hheld
  exact cut_splitLevelsFrom f (by simp)

theorem mem_listing :
    f ∈ t.getClientSubscriptions client ↔ ∃ path, t.HeldAt client path ∧ joined path = f :=
  h.tidy.mem_clientSubscriptions

theorem unsubscribeAll_eq : t.unsubscribeAll client =
    (t.getClientSubscriptions client).foldl (unsubscribeRound client) (0, t) := by
  rw [unsubscribeAll]
  split
  · next hc =>
      have hnone : t.getClientSubscriptions client = [] := by
        refine eq_nil_iff_forall_not_mem.2 fun f hf => ?_
        obtain ⟨path, hheld, -⟩ := h.mem_listing.1 hf
        exact h.client_ne_nil hheld hc
      rw [hnone, foldl_nil]
  · rfl

theorem plain_of_gone (hgone : ∀ path, ¬ (t.unsubscribeAll client).2.HeldAt client path) :
    ∀ path, t.HeldAt client path → Plain path := by
  by_contra hbad
  push Not at hbad
  obtain ⟨path, hheld, hpath⟩ := hbad
  have hfinite : {p | t.HeldAt client p ∧ ¬ Plain p}.Finite :=
    (h.finite client).subset fun p hp => hp.1
  obtain ⟨p, ⟨hp, hnot⟩, hmax⟩ := Set.exists_max_image _ List.length hfinite ⟨path, hheld, hpath⟩
  obtain ⟨i, hi, hic⟩ := has_iff.1 hp
  rw [h.unsubscribeAll_eq] at hgone
  have hmem : p ∈ (t.getClientSubscriptions client).map splitLevels := by
    by_contra hmem
    have hkept := (unsubscribe_loop_frame client p i _ (0, t)).2 hi (.inr hmem)
    exact hgone p (has_iff.2 ⟨i, hkept, hic⟩)
  obtain ⟨f, hf, hsplit⟩ := mem_map.1 hmem
  obtain ⟨q, hq, rfl⟩ := h.mem_listing.1 hf
  by_cases hplain : Plain q
  · rw [splitLevels_joined (h.cut hq) hplain] at hsplit
    exact hnot (hsplit ▸ hplain)
  · have hlt := length_levels_joined_lt (h.cut hq) hplain
    have hle := hmax q ⟨hq, hplain⟩
    rw [hsplit] at hlt
    omega

theorem listed (hheld : t.HeldAt client path) (hplain : Plain path) :
    splitLevels (joined path) = path ∧ accepts (joined path) client := by
  refine ⟨splitLevels_joined (h.cut hheld) hplain, ?_⟩
  obtain ⟨f, ha, rfl⟩ := h.accepted hheld
  exact accepts_joined ha hplain

theorem removesClient (o : SetOrder) (sort : ClientSort)
    (hplain : ∀ path, t.HeldAt client path → Plain path) : t.RemovesClient o sort client := by
  have hgone : ∀ path, ¬ (t.unsubscribeAll client).2.HeldAt client path := by
    intro path hafter
    rw [h.unsubscribeAll_eq] at hafter
    have hheld := heldAt_of_loop hafter
    obtain ⟨hsplit, ha⟩ := h.listed hheld (hplain path hheld)
    obtain ⟨hf, hc, hl⟩ := valid_of_accepts ha
    rw [← hsplit] at hafter
    exact unsubscribe_loop_gone hc hf hl _ _ (h.mem_listing.2 ⟨path, hheld, rfl⟩) hafter
  refine ⟨?_, hgone, fun topic hfound => ?_, fun path i hne => ?_, fun options topic => ?_⟩
  · have hcount := @unsubscribe_loop_count client (t.getClientSubscriptions client) (0, t)
      (h.finite client)
    rw [← h.unsubscribeAll_eq, Nat.zero_add] at hcount
    simpa [hgone] using hcount
  · obtain ⟨-, -, path, -, hheld⟩ := finds_iff.1 hfound
    exact hgone path hheld
  · have hframe := unsubscribe_loop_frame client path i (t.getClientSubscriptions client) (0, t)
    rw [← h.unsubscribeAll_eq] at hframe
    exact ⟨hframe.1, fun hi => hframe.2 hi (.inl hne)⟩
  · simp only [finds_iff, heldAt_subscribeEach, hgone, false_or]
    refine and_congr_right' (and_congr_right' (exists_congr fun path => and_congr_right' ?_))
    constructor
    · rintro ⟨f, hf, -, rfl⟩
      obtain ⟨path, hheld, rfl⟩ := h.mem_listing.1 hf
      rwa [(h.listed hheld (hplain path hheld)).1]
    · intro hheld
      obtain ⟨hsplit, ha⟩ := h.listed hheld (hplain path hheld)
      exact ⟨joined path, h.mem_listing.2 ⟨path, hheld, rfl⟩, ha, hsplit⟩

end

end Grown

end TopicTree

/-- After any sequence of calls, removing a client does what it is for exactly when no path
that holds the client begins or ends with an empty level. -/
theorem unsubscribeAll_iff (ops : List TreeOp) (o : SetOrder) (sort : ClientSort) (client : Str) :
    (runOps ops).RemovesClient o sort client ↔
      ∀ path, (runOps ops).HeldAt client path → Plain path :=
  ⟨fun h => (grown_runOps ops).plain_of_gone h.gone,
    (grown_runOps ops).removesClient o sort⟩

/-- The client `c` subscribes to `/a`. The filter listed for it is `a`, from which it cannot
be unsubscribed: the client stays in the tree and is still found for the topic `/a`. -/
theorem unsubscribeAll_leading_slash : allSucceed .new [.subscribe [0x63] [slash, 0x61] {}] ∧
      ¬ (runOps [.subscribe [0x63] [slash, 0x61] {}]).RemovesClient .listed (stable _) [0x63] := by
  refine ⟨by decide, fun h => h.gone [[], [0x61]] ?_⟩
  exact (by decide : ((((runOps [.subscribe [0x63] [slash, 0x61] {}]).unsubscribeAll
    [0x63]).2.root.subscribersAt [[], [0x61]]).has [0x63]))

end Mqtts
