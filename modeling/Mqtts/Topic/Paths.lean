import Mqtts.Topic.Concurrent

/-!
# Paths in the shared tree

A node is located when the walk from the root along the path under which it was made comes to it.
Nodes that were unlinked are not located, though a call may still hold them.
-/

namespace Mqtts.Concurrent

open Option SortUnique Cells

namespace Tree

variable {t t' : Tree} {n m k : Nat} {l : Str} {q : List Str}

/-! ## Walks -/

/-- The walk from a node along levels. -/
def follow (t : Tree) (n : Nat) : List Str → Option Nat
  | [] => some n
  | l :: ls => (t.child n l).bind fun m => follow t m ls

theorem follow_append_singleton (t : Tree) (n : Nat) (q : List Str) (l : Str) :
    t.follow n (q ++ [l]) = (t.follow n q).bind (fun m => t.child m l) := by
  induction q generalizing n with
  | nil =>
    rw [List.nil_append, follow, follow, bind_some]
    cases t.child n l <;> rfl
  | cons r rs ih =>
    rw [List.cons_append, follow, follow, bind_assoc]
    exact congrArg _ (funext fun m => ih m)

def Located (t : Tree) (n : Nat) : Prop := t.follow 0 (t.path n) = some n

/-- An edge leads where its level says. -/
structure Linked (t : Tree) : Prop where
  size : 0 < t.size
  root : t.path 0 = []
  child : ∀ {n m l}, t.child n l = some m → m < t.size ∧ t.path m = t.path n ++ [l]

/-- A walk from the root comes to a node with its path. -/
theorem Linked.follow (h : t.Linked) (hq : t.follow 0 q = some n) : n < t.size ∧ t.path n = q := by
  induction q using List.reverseRecOn generalizing n with
  | nil =>
    cases hq
    exact ⟨h.size, h.root⟩
  | append_singleton q l ih =>
    rw [follow_append_singleton] at hq
    obtain ⟨m, hm, hn⟩ := bind_eq_some_iff.1 hq
    obtain ⟨hlt, hpath⟩ := h.child hn
    exact ⟨hlt, by rw [hpath, (ih hm).2]⟩

theorem Linked.located_root (h : t.Linked) : t.Located 0 := by
  rw [Located, h.root]
  rfl

theorem Linked.located_child (h : t.Linked) (hn : t.Located n) (hm : t.child n l = some m) :
    t.Located m := by
  rw [Located, (h.child hm).2, follow_append_singleton, hn]
  exact hm

/-- A walk survives when edges are added, and when an edge to a node without children is taken out,
unless it ends there. -/
theorem follow_of_children (gone : Nat → Prop) (hleaf : ∀ {m l}, gone m →
    t.child m l = none) (hkeep : ∀ {n m l}, t.child n l = some m → ¬ gone m → t'.child n l = some m)
    (hq : t.follow 0 q = some n) (hn : ¬ gone n) : t'.follow 0 q = some n := by
  induction q using List.reverseRecOn generalizing n with
  | nil => exact hq
  | append_singleton q l ih =>
    rw [follow_append_singleton] at hq ⊢
    obtain ⟨m, hm, hchild⟩ := bind_eq_some_iff.1 hq
    have hstays : ¬ gone m := by
      intro hgone
      rw [hleaf hgone] at hchild
      cases hchild
    rw [ih hm hstays]
    exact hkeep hchild hn

/-! ## Swaps -/

/-- What a swap that succeeds does to the tree. -/
structure Sets (t t' : Tree) (n : Nat) (new : Content) : Prop where
  size : t'.size = t.size
  self : t'.content n = new
  other : ∀ {k}, k ≠ n → t'.content k = t.content k

variable {new : Content} {p : Nat}

theorem sets_of_swap (h : t.swap n p new = some t') :
    t.contentAt p = t.content n ∧ t.Sets t' n new := by
  refine ⟨?_, ?_, ?_, ?_⟩
  · rw [contentAt, content, read_eq_of_swap h]
  · exact size_swap h
  · rw [content, read_swap_self h]
    rfl
  · intro k hk
    rw [content, content, read_swap_of_ne h hk]

section

variable (h : t.Sets t' n new)
include h

theorem Sets.path (hnew : new.path = t.path n) (k : Nat) : t'.path k = t.path k := by
  by_cases hk : k = n
  · subst hk
    rw [Tree.path, h.self, hnew]
  · rw [Tree.path, Tree.path, h.other hk]

theorem Sets.child_self (l : Str) : t'.child n l = new.children.lookup l := by
  rw [child, h.self]

theorem Sets.child_of_ne (hk : k ≠ n) (l : Str) : t'.child k l = t.child k l := by
  rw [child, child, h.other hk]

theorem Sets.subscribers_of_ne (hk : k ≠ n) : t'.subscribers k = t.subscribers k := by
  rw [subscribers, subscribers, h.other hk]

theorem Sets.subscribers (hnew : new.subscribers = t.subscribers n)
    (k : Nat) : t'.subscribers k = t.subscribers k := by
  by_cases hk : k = n
  · subst hk
    rw [subscribers, h.self, hnew]
  · exact h.subscribers_of_ne hk

end

theorem Linked.sets (h : t.Linked) (hset : t.Sets t' n new) (hpath : new.path = t.path n)
    (hnew : ∀ {l m}, new.children.lookup l = some m →
      m < t.size ∧ t.path m = t.path n ++ [l]) : t'.Linked := by
  refine ⟨?_, ?_, ?_⟩
  · rw [hset.size]
    exact h.size
  · rw [hset.path hpath]
    exact h.root
  · intro k m l hm
    rw [hset.size, hset.path hpath, hset.path hpath]
    by_cases hk : k = n
    · subst hk
      rw [hset.child_self] at hm
      exact hnew hm
    · rw [hset.child_of_ne hk] at hm
      exact h.child hm

/-! ## New nodes -/

theorem content_alloc (t : Tree) (new : Content) (k : Nat) :
    content (t.alloc new) k = if k = t.size then new else t.content k := by
  rw [content, content, read_alloc]
  split <;> rfl

theorem content_of_le (hn : t.size ≤ n) : t.content n = {} := by
  rw [content, read_eq_none hn]
  rfl

theorem child_alloc (hnew : new.children = []) (k : Nat) (l : Str) :
    child (t.alloc new) k l = t.child k l := by
  rw [child, child, content_alloc]
  split
  · rename_i hk
    rw [hnew, content_of_le hk.ge]
  · rfl

theorem path_alloc (hk : k < t.size) : path (t.alloc new) k = t.path k := by
  rw [path, path, content_alloc, if_neg hk.ne]

theorem subscribers_alloc (hk : k < t.size) : subscribers (t.alloc new) k = t.subscribers k := by
  rw [subscribers, subscribers, content_alloc, if_neg hk.ne]

theorem lt_of_child (hm : t.child n l = some m) : n < t.size := by
  by_contra hn
  rw [child, content_of_le (not_lt.1 hn)] at hm
  cases hm

theorem Linked.alloc (h : t.Linked) (hnew : new.children = []) : Linked (t.alloc new) := by
  refine ⟨?_, ?_, ?_⟩
  · rw [size_alloc]
    exact Nat.succ_pos _
  · rw [path_alloc h.size]
    exact h.root
  · intro n m l hm
    rw [child_alloc hnew] at hm
    obtain ⟨hlt, hpath⟩ := h.child hm
    rw [size_alloc, path_alloc hlt, path_alloc (lt_of_child hm)]
    exact ⟨Nat.lt_succ_of_lt hlt, hpath⟩

/-! ## Searching -/

variable {o : SetOrder} {i : SubscriberInfo} {levels : List Str}

theorem mem_hashSubscribers (hq : t.follow n [hashLevel] = some m)
    (hi : i ∈ (t.subscribers m).elems) : i ∈ t.hashSubscribers o n := by
  rw [follow] at hq
  obtain ⟨w, hw, hwm⟩ := bind_eq_some_iff.1 hq
  cases hwm
  rw [hashSubscribers, hw]
  exact SetOrder.mem_run.2 hi

theorem mem_child {f : Nat → List SubscriberInfo} (hm : t.child n l = some m) (hi : i ∈ f m) :
    i ∈ ((t.child n l).map f).getD [] := by
  rw [hm]
  exact hi

theorem mem_collect_false (hq : t.follow n q = some m) (hmatch : matchLevels q levels)
    (hi : i ∈ (t.subscribers m).elems) : i ∈ t.collect o false levels n := by
  induction levels generalizing n q with
  | nil =>
    rw [collect, List.mem_append]
    rcases (matchLevels_nil_right q).1 hmatch with rfl | rfl
    · cases hq
      exact .inl (SetOrder.mem_run.2 hi)
    · exact .inr (mem_hashSubscribers hq hi)
  | cons r rs ih =>
    have hbelow : ∀ {f : Str} {fs : List Str}, t.follow n (f :: fs) = some m →
        matchLevels fs rs → i ∈ ((t.child n f).map (t.collect o false rs)).getD [] := by
      intro f fs hf hfs
      rw [follow] at hf
      obtain ⟨w, hw, hrest⟩ := bind_eq_some_iff.1 hf
      exact mem_child hw (ih hrest hfs)
    rw [collect, Bool.false_and, if_neg Bool.false_ne_true, List.mem_append, List.mem_append]
    rcases (matchLevels_cons_right q).1 hmatch with rfl | ⟨f, fs, rfl, rfl | rfl, hfs⟩
    · exact .inr (mem_hashSubscribers hq hi)
    · exact .inl (.inr (hbelow hq hfs))
    · exact .inl (.inl (hbelow hq hfs))

theorem mem_collect (hq : t.follow 0 q = some m) (hmatch : filterMatches q levels)
    (hi : i ∈ (t.subscribers m).elems) : i ∈ t.collect o true levels 0 := by
  rw [filterMatches, Bool.and_eq_true, Bool.not_eq_true'] at hmatch
  obtain ⟨hsystem, hmatch⟩ := hmatch
  cases levels with
  | nil => exact mem_collect_false hq hmatch hi
  | cons r rs =>
    have hfalse := mem_collect_false (o := o) hq hmatch hi
    cases hs : systemTopic (r :: rs) with
    | false => simpa only [collect, hs, Bool.and_false, Bool.false_and] using hfalse
    | true =>
      rw [hs, Bool.true_and] at hsystem
      rw [collect, hs, Bool.and_self, if_pos rfl]
      rcases (matchLevels_cons_right q).1 hmatch with rfl | ⟨f, fs, rfl, rfl | rfl, hfs⟩
      · cases hsystem
      · cases hsystem
      · rw [follow] at hq
        obtain ⟨w, hw, hrest⟩ := bind_eq_some_iff.1 hq
        exact mem_child hw (mem_collect_false hrest hfs hi)

/-- A subscriber of a located node is found under every topic that the path matches. -/
theorem exists_mem_findSubscribers {filter topic client : Str} (hne : topic ≠ [])
    (hlen : topic.length ≤ 65535) (hmatch : treeMatches filter topic)
    (hq : t.follow 0 (splitLevels filter) = some m) (hhas : (t.subscribers m).has client)
    (o : SetOrder) (sort : ClientSort) :
    ∃ found, t.findSubscribers o sort topic = .ok found ∧ ∃ i ∈ found, i.clientId = client := by
  have hl : ¬ topic.length > 65535 := not_lt.2 hlen
  refine ⟨sortUnique sort (t.collect o true (splitLevels topic) 0),
    by simp [findSubscribers, TopicTree.splitTopicLevels, hne, hl], ?_⟩
  obtain ⟨i, hi, rfl⟩ := SubscriberSet.has_iff.1 hhas
  obtain ⟨r, hr, hri⟩ := exists_mem_sortUnique sort (mem_collect (o := o) hq hmatch hi)
  exact ⟨r, hr, hri⟩

end Tree

end Mqtts.Concurrent
