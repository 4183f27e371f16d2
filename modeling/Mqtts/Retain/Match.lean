import Mqtts.Lib.Bytes
import Mqtts.Lib.Smallest
import Mqtts.Lib.TrieEntries
import Mqtts.Retain.StoreSpec

/-!
# Matching retained messages

`match` walks the trie along the levels of a filter. It offers every message it comes to that has
not expired to a bounded heap of topics, notes the topics of the expired ones, and removes those
afterwards. A walk is the list of the messages it comes to, with their topics.
-/

namespace Mqtts.Retain

open List Smallest

def systemLevel (level : Str) : Bool := level.head? == some dollar

def joinTopic (parent segment : Str) (atRoot : Bool) : Str :=
  if atRoot then segment else parent ++ slash :: segment

/-- A node that `consider` looks at; one without a message is skipped. -/
def visit (topic : Str) (value : Option NodeMessage) : List (Str × NodeMessage) :=
  value.toList.map fun m => (topic, m)

mutual

def collect (topic : Str) (atRoot : Bool) : Trie Str NodeMessage → List (Str × NodeMessage)
  | .node value children => visit topic value ++ collectChildren topic atRoot children

def collectChildren (topic : Str) (atRoot : Bool) :
    List (Str × Trie Str NodeMessage) → List (Str × NodeMessage)
  | [] => []
  | (level, child) :: rest =>
    (if atRoot && systemLevel level then []
      else collect (joinTopic topic level atRoot) false child) ++
      collectChildren topic atRoot rest

end

def walk (topic : Str) (rootLevel : Bool) : List Str → Trie Str NodeMessage →
    List (Str × NodeMessage)
  | [], node => visit topic node.value
  | segment :: filter, node =>
    if segment = hashLevel then
      if filter = [] then collect topic rootLevel node else []
    else if segment = plusLevel then
      node.children.flatMap fun e =>
        if rootLevel && systemLevel e.1 then []
        else walk (joinTopic topic e.1 rootLevel) false filter e.2
    else
      match node.child segment with
      | none => []
      | some child => walk (joinTopic topic segment rootLevel) false filter child

/-- The children of a node stand in an unordered map, so the list comes in an order of its own. -/
structure VisitOrder where
  run : List (Str × NodeMessage) → List (Str × NodeMessage)
  perm : ∀ visits, (run visits).Perm visits

def VisitOrder.listed : VisitOrder := ⟨id, fun _ => .refl _⟩

structure RetainMatchResult where
  messages : List RetainedCopy := []
  truncated : Bool := false
  messageDelta : Int := 0
  byteDelta : Int := 0

def consider (limit : Nat) (now : Int) (state : Pick RetainedCopy × List Str)
    (v : Str × NodeMessage) : Pick RetainedCopy × List Str :=
  if v.1 = [] then state
  else if reached v.2.expiresAt now then (state.1, state.2 ++ [v.1])
  else
    (offer (·.topic) limit state.1
      { topic := v.1, content := v.2.content, expiresAt := v.2.expiresAt }, state.2)

namespace RetainStore

variable (s : RetainStore)

/-- `purge`, with the deltas it adds up. -/
def purgeLoop (now : Int) : List Str → RetainStore → Int → Int → RetainStore × Int × Int
  | [], s, messages, bytes => (s, messages, bytes)
  | topic :: topics, s, messages, bytes =>
    match s.slot topic with
    | none => purgeLoop now topics s messages bytes
    | some m =>
      if reached m.expiresAt now then
        match s.eraseAt topic with
        | none => purgeLoop now topics s messages bytes
        | some (removed, s) =>
          purgeLoop now topics (s.accountRemoved removed) (messages - 1) (bytes - removed)
      else purgeLoop now topics s messages bytes

/-- `match`; `retrieve` since `match` is a keyword. -/
def retrieve (order : VisitOrder) (filter : Str) (limit : Nat) (now : Int) :
    RetainMatchResult × RetainStore :=
  if filter = [] then ({}, s)
  else
    let visits := order.run (walk [] true (topicLevels filter) s.root)
    let (pick, expired) := visits.foldl (consider limit now) ({}, [])
    let (s, messageDelta, byteDelta) := purgeLoop now expired s 0 0
    ({ messages := (SortUnique.stable (·.topic)).run pick.best
       truncated := pick.truncated
       messageDelta, byteDelta }, s)

end RetainStore

/-! ## The walk -/

def joinPath (topic : Str) (atRoot : Bool) : List Str → Str
  | [] => topic
  | level :: path => joinPath (joinTopic topic level atRoot) false path

theorem joinPath_false (topic : Str) (path : List Str) :
    joinPath topic false path = joinLevels (topic :: path) := by
  induction path generalizing topic with
  | nil => rfl
  | cons level path ih =>
    rw [joinPath, ih, joinLevels_cons (cons_ne_nil level path)]
    cases path with
    | nil => rfl
    | cons next path =>
      rw [joinLevels_cons (cons_ne_nil next path), joinLevels_cons (cons_ne_nil next path)]
      simp [joinTopic]

theorem joinPath_root (path : List Str) : joinPath [] true path = joinLevels path := by
  cases path with
  | nil => rfl
  | cons level path =>
    rw [joinPath]
    exact joinPath_false level path

theorem joinPath_topicLevels (topic : Str) : joinPath [] true (topicLevels topic) = topic := by
  rw [joinPath_root, topicLevels, joinLevels_topicLevelsFrom, nil_append]

def visits (rootLevel : Bool) (filter path : List Str) : Bool :=
  matchLevels filter path && !(rootLevel && systemTopic path && leadingWildcard filter)

def hashLast : List Str → Bool
  | [] => true
  | f :: filter => (f != hashLevel || filter.isEmpty) && hashLast filter

theorem systemTopic_cons (level : Str) (path : List Str) :
    systemTopic (level :: path) = systemLevel level := by
  cases level <;> rfl

theorem map_filter_below (P : List Str → Bool) (topic level : Str) (atRoot : Bool)
    (child : Trie Str NodeMessage) :
    ((child.entries.map fun e => (level :: e.1, e.2)).filter fun e => P e.1).map
        (fun e => (joinPath topic atRoot e.1, e.2)) =
      (child.entries.filter fun e => P (level :: e.1)).map
        (fun e => (joinPath (joinTopic topic level atRoot) false e.1, e.2)) := by
  rw [filter_map, map_map]
  rfl

mutual

theorem collect_eq (topic : Str) (atRoot : Bool) : ∀ node, collect topic atRoot node =
      (node.entries.filter fun e => !(atRoot && systemTopic e.1)).map
        (fun e => (joinPath topic atRoot e.1, e.2))
  | .node value children => by
    rw [collect, collectChildren_eq topic atRoot children, Trie.entries, filter_append, map_append]
    congr 1
    cases value with
    | none => rfl
    | some m => simp [visit, systemTopic, joinPath]

theorem collectChildren_eq (topic : Str) (atRoot : Bool) : ∀ children,
      collectChildren topic atRoot children =
        ((Trie.entriesOf children).filter fun e => !(atRoot && systemTopic e.1)).map
          (fun e => (joinPath topic atRoot e.1, e.2))
  | [] => rfl
  | (level, child) :: rest => by
    rw [collectChildren, collectChildren_eq topic atRoot rest, Trie.entriesOf,
      filter_append, map_append,
      map_filter_below fun path => !(atRoot && systemTopic path)]
    congr 1
    simp only [systemTopic_cons]
    cases hsystem : atRoot && systemLevel level with
    | true => simp
    | false => simpa using collect_eq (joinTopic topic level atRoot) false child

end

variable {topic : Str} {rootLevel : Bool} {filter : List Str}

theorem plus_children {children}
    (ih : ∀ e ∈ children, walk (joinTopic topic e.1 rootLevel) false filter e.2 =
    (e.2.entries.filter fun x => visits false filter x.1).map fun x =>
    (joinPath (joinTopic topic e.1 rootLevel) false x.1, x.2)) :
    children.flatMap (fun e => if rootLevel && systemLevel e.1 then []
        else walk (joinTopic topic e.1 rootLevel) false filter e.2) =
      ((Trie.entriesOf children).filter fun e => visits rootLevel (plusLevel :: filter) e.1).map
        (fun e => (joinPath topic rootLevel e.1, e.2)) := by
  induction children with
  | nil => rfl
  | cons e rest ihrest =>
    obtain ⟨level, child⟩ := e
    obtain ⟨hhead, htail⟩ := forall_mem_cons.1 ih
    have hvisits : ∀ path, visits rootLevel (plusLevel :: filter) (level :: path) =
        (!(rootLevel && systemLevel level) && visits false filter path) := by
      intro path
      rw [visits, visits, systemTopic_cons]
      have hhash : (plusLevel == hashLevel) = false := rfl
      simp [matchLevels, leadingWildcard, hhash, Bool.and_comm]
    rw [flatMap_cons, ihrest htail, Trie.entriesOf, filter_append, map_append,
      map_filter_below fun path => visits rootLevel (plusLevel :: filter) path]
    congr 1
    simp only [hvisits]
    cases hsystem : rootLevel && systemLevel level with
    | true => simp
    | false => simpa using hhead

theorem named_child {segment} {children : List (Str × Trie Str NodeMessage)}
    (hkeys : (children.map Prod.fst).Nodup) (hhash : segment ≠ hashLevel)
    (hplus : segment ≠ plusLevel) :
    ((Trie.entriesOf children).filter fun e => visits rootLevel (segment :: filter) e.1).map
        (fun e => (joinPath topic rootLevel e.1, e.2)) =
      match List.lookup segment children with
      | none => []
      | some child => (child.entries.filter fun e => visits false filter e.1).map
          (fun e => (joinPath (joinTopic topic segment rootLevel) false e.1, e.2)) := by
  have hvisits : ∀ level path, visits rootLevel (segment :: filter) (level :: path) =
      (segment == level && visits false filter path) := by
    intro level path
    have h₁ : (segment == hashLevel) = false := beq_eq_false_iff_ne.2 hhash
    have h₂ : (segment == plusLevel) = false := beq_eq_false_iff_ne.2 hplus
    rw [visits, visits]
    simp [matchLevels, leadingWildcard, h₁, h₂]
  induction children with
  | nil => rfl
  | cons e rest ih =>
    obtain ⟨level, child⟩ := e
    rw [map_cons, nodup_cons] at hkeys
    rw [Trie.entriesOf, filter_append, map_append,
      map_filter_below fun path => visits rootLevel (segment :: filter) path, ih hkeys.2,
      lookup_cons]
    simp only [hvisits]
    cases hname : segment == level with
    | true =>
      -- No other child has the name.
      obtain rfl := beq_iff_eq.1 hname
      have hnone : List.lookup segment rest = none := by
        rw [lookup_eq_none_iff]
        intro x hx
        refine bne_iff_ne.2 ?_
        rintro rfl
        exact hkeys.1 (mem_map.2 ⟨x, hx, rfl⟩)
      simp [hnone]
    | false => simp

/-- A walk comes to the entries whose path the filter matches. -/
theorem walk_eq {node} (hnode : node.Tidy) (hfilter : hashLast filter) :
    walk topic rootLevel filter node =
      (node.entries.filter fun e => visits rootLevel filter e.1).map
        (fun e => (joinPath topic rootLevel e.1, e.2)) := by
  induction filter generalizing topic rootLevel node with
  | nil =>
    obtain ⟨value, children⟩ := node
    have hnone : (Trie.entriesOf children).filter (fun e => visits rootLevel [] e.1) = [] := by
      refine filter_eq_nil_iff.2 ?_
      intro e he
      obtain ⟨level, child, path, -, -, hpath⟩ := Trie.mem_entriesOf.1 he
      rw [hpath]
      exact Bool.false_ne_true
    rw [walk, Trie.entries, filter_append, hnone, append_nil]
    cases value with
    | none => rfl
    | some m =>
      have hself : visits rootLevel [] [] := by
        rw [visits, leadingWildcard, Bool.and_false]
        rfl
      have hkept : [(([] : List Str), m)].filter (fun e => visits rootLevel [] e.1) =
          [([], m)] := by
        refine filter_eq_self.2 ?_
        intro e he
        rw [mem_singleton.1 he]
        exact hself
      show _ = List.map _ (List.filter _ [([], m)])
      rw [hkept]
      rfl
  | cons segment filter ih =>
    obtain ⟨hlast, hrest⟩ := Bool.and_eq_true_iff.1 hfilter
    obtain ⟨hkeys, hchildren⟩ := Trie.tidy_iff.1 hnode
    by_cases hhash : segment = hashLevel
    · subst hhash
      have hnil : filter = [] := by simpa using hlast
      subst hnil
      rw [walk, if_pos rfl, if_pos rfl, collect_eq]
      congr 1
      refine filter_congr ?_
      intro e he
      have hall : matchLevels [hashLevel] e.1 := by cases e.1 <;> simp [matchLevels]
      simp [visits, hall, leadingWildcard]
    -- The node itself is not at the end of the filter.
    have hself : matchLevels (segment :: filter) [] = false := by
      rw [matchLevels, beq_eq_false_iff_ne.2 hhash, Bool.false_and]
    obtain ⟨value, children⟩ := node
    have hentries : (Trie.entries (.node value children)).filter
        (fun e => visits rootLevel (segment :: filter) e.1) = (Trie.entriesOf children).filter
            (fun e => visits rootLevel (segment :: filter) e.1) := by
      rw [Trie.entries, filter_append]
      cases value with
      | none => rfl
      | some m => simp [visits, hself]
    rw [walk, if_neg hhash, hentries]
    by_cases hplus : segment = plusLevel
    · subst hplus
      rw [if_pos rfl]
      exact plus_children fun e he => ih (hchildren e he).2 hrest
    · rw [Trie.children_node] at hkeys
      rw [if_neg hplus, named_child hkeys hhash hplus]
      cases hchild : Trie.child (.node value children) segment with
      | none =>
        rw [Trie.child, Trie.children_node] at hchild
        rw [hchild]
      | some child =>
        have htidy := (hnode.child hchild).2
        rw [Trie.child, Trie.children_node] at hchild
        rw [hchild]
        exact ih htidy hrest

/-! ## The messages -/

def offered (now : Int) (v : Str × NodeMessage) : Option RetainedCopy :=
  if v.1 = [] ∨ reached v.2.expiresAt now then none
  else some { topic := v.1, content := v.2.content, expiresAt := v.2.expiresAt }

theorem foldl_consider (limit : Nat) (now : Int) (vs : List (Str × NodeMessage))
    (pick : Pick RetainedCopy) (expired : List Str) :
    (vs.foldl (consider limit now) (pick, expired)).1 =
      (vs.filterMap (offered now)).foldl (offer (·.topic) limit) pick := by
  induction vs generalizing pick expired with
  | nil => rfl
  | cons v vs ih =>
    rw [foldl_cons, consider]
    split
    · rename_i hempty
      have hnone : offered now v = none := if_pos (.inl hempty)
      rw [ih, filterMap_cons_none hnone]
    · rename_i hempty
      split
      · rename_i hreached
        have hnone : offered now v = none := if_pos (.inr hreached)
        rw [ih, filterMap_cons_none hnone]
      · rename_i hreached
        have hoffered : offered now v =
            some { topic := v.1, content := v.2.content, expiresAt := v.2.expiresAt } := by
          refine if_neg ?_
          exact fun hor => hor.elim hempty hreached
        rw [ih, filterMap_cons_some hoffered]
        rfl

namespace RetainStore

structure Formed (s : RetainStore) : Prop where
  tidy : s.root.Tidy
  named : ∀ {path m}, s.root.find path = some m → ∃ topic, topic ≠ [] ∧ path = topicLevels topic

variable {s : RetainStore} {now : Int} {filter : Str}

def Retained (s : RetainStore) (filter : Str) (now : Int) (c : RetainedCopy) : Prop :=
  ∃ m, s.slot c.topic = some m ∧ c.content = m.content ∧ c.expiresAt = m.expiresAt ∧
    reached m.expiresAt now = false ∧ mqttMatches filter c.topic

theorem Formed.mem_walk (h : s.Formed) (hfilter : hashLast (topicLevels filter)) {topic m} :
    (topic, m) ∈ walk [] true (topicLevels filter) s.root ↔
      topic ≠ [] ∧ s.slot topic = some m ∧ mqttMatches filter topic := by
  have hmatch : ∀ topic, visits true (topicLevels filter) (topicLevels topic) =
      mqttMatches filter topic := by
    intro topic
    rw [visits, mqttMatches, filterMatches, Bool.true_and, Bool.and_comm]
  rw [walk_eq h.tidy hfilter, mem_map]
  constructor
  · rintro ⟨⟨path, m'⟩, he, heq⟩
    cases heq
    obtain ⟨hentry, hvisits⟩ := mem_filter.1 he
    have hfind := (Trie.mem_entries h.tidy).1 hentry
    obtain ⟨topic, hne, rfl⟩ := h.named hfind
    simp only [joinPath_topicLevels]
    exact ⟨hne, hfind, (hmatch topic).symm.trans hvisits⟩
  · rintro ⟨hne, hslot, hmatches⟩
    refine ⟨(topicLevels topic, m), mem_filter.2 ⟨(Trie.mem_entries h.tidy).2 hslot, ?_⟩, ?_⟩
    · exact (hmatch topic).trans hmatches
    · simp only [joinPath_topicLevels]

theorem Formed.mem_offered (h : s.Formed) (hfilter : hashLast (topicLevels filter)) {c} :
    c ∈ (walk [] true (topicLevels filter) s.root).filterMap (offered now) ↔
      s.Retained filter now c := by
  rw [mem_filterMap]
  constructor
  · rintro ⟨⟨topic, m⟩, hv, hoffered⟩
    obtain ⟨hne, hslot, hmatches⟩ := (h.mem_walk hfilter).1 hv
    rw [offered] at hoffered
    split at hoffered <;> cases hoffered
    rename_i hnot
    refine ⟨m, hslot, rfl, rfl, ?_, hmatches⟩
    exact Bool.eq_false_iff.2 fun hreached => hnot (.inr hreached)
  · rintro ⟨m, hslot, hcontent, hexpires, hreached, hmatches⟩
    obtain ⟨topic, hne, hlevels⟩ := h.named hslot
    have htopic : c.topic ≠ [] := topicLevels_injective hlevels ▸ hne
    refine ⟨(c.topic, m), (h.mem_walk hfilter).2 ⟨htopic, hslot, hmatches⟩, ?_⟩
    have hnot : ¬ (c.topic = [] ∨ reached m.expiresAt now) := by
      rintro (hempty | hreached')
      · exact htopic hempty
      · rw [hreached] at hreached'
        cases hreached'
    rw [offered, if_neg hnot, ← hcontent, ← hexpires]

theorem Formed.nodup_walk (h : s.Formed) (hfilter : hashLast (topicLevels filter)) :
    ((walk [] true (topicLevels filter) s.root).map Prod.fst).Nodup := by
  rw [walk_eq h.tidy hfilter, map_map]
  have hnodup : (s.root.entries.filter fun e => visits true (topicLevels filter) e.1).Nodup :=
    (Trie.nodup_entries s.root h.tidy).of_map.sublist filter_sublist
  refine hnodup.map_on ?_
  intro e he e' he' heq
  have hfind := (Trie.mem_entries h.tidy).1 (mem_filter.1 he).1
  have hfind' := (Trie.mem_entries h.tidy).1 (mem_filter.1 he').1
  obtain ⟨topic, -, hpath⟩ := h.named hfind
  obtain ⟨topic', -, hpath'⟩ := h.named hfind'
  have htopics : topic = topic' := by
    have hjoin : joinPath [] true e.1 = joinPath [] true e'.1 := heq
    rwa [hpath, hpath', joinPath_topicLevels, joinPath_topicLevels] at hjoin
  have hpaths : e.1 = e'.1 := by rw [hpath, hpath', htopics]
  rw [hpaths] at hfind
  exact Prod.ext hpaths (Option.some.inj (hfind.symm.trans hfind'))

theorem topics_offered_sublist (now : Int) (vs : List (Str × NodeMessage)) :
    ((vs.filterMap (offered now)).map (·.topic)).Sublist (vs.map Prod.fst) := by
  induction vs with
  | nil => exact List.Sublist.refl _
  | cons v vs ih =>
    rw [map_cons]
    cases hv : offered now v with
    | none =>
      rw [filterMap_cons_none hv]
      exact ih.cons v.1
    | some c =>
      have htopic : c.topic = v.1 := by
        rw [offered] at hv
        split at hv
        · cases hv
        · rw [← Option.some.inj hv]
      rw [filterMap_cons_some hv, map_cons, htopic]
      exact ih.cons_cons v.1

theorem Formed.retrieve (h : s.Formed) (order : VisitOrder) (limit : Nat) (now : Int)
    (hne : filter ≠ []) (hfilter : hashLast (topicLevels filter)) :
    ∃ all : List RetainedCopy, all.Pairwise (fun a b => a.topic < b.topic) ∧
      (∀ c, c ∈ all ↔ s.Retained filter now c) ∧
      (s.retrieve order filter limit now).1.messages = all.take limit ∧
      ((s.retrieve order filter limit now).1.truncated ↔ limit < all.length) := by
  have hperm := order.perm (walk [] true (topicLevels filter) s.root)
  set vs := order.run (walk [] true (topicLevels filter) s.root)
  have hnodup : ((vs.filterMap (offered now)).map (·.topic)).Nodup := by
    refine List.Nodup.sublist (topics_offered_sublist now vs) ?_
    exact (hperm.map Prod.fst).nodup_iff.2 (h.nodup_walk hfilter)
  have hpick : (vs.foldl (consider limit now) ({}, [])).1 =
      offerAll (·.topic) limit (vs.filterMap (offered now)) :=
    foldl_consider limit now vs {} []
  have hselected := selected_offerAll limit (vs.filterMap (offered now)) hnodup
  rw [← hpick] at hselected
  obtain ⟨all, hall, hsorted, hbest, htruncated⟩ := hselected.take
  have hdistinct : all.Pairwise (fun a b => a.topic ≠ b.topic) :=
    pairwise_map.1 ((hall.map RetainedCopy.topic).nodup_iff.2 hnodup)
  refine ⟨all, (hsorted.and hdistinct).imp fun hand => lt_of_le_of_ne hand.1 hand.2, ?_, ?_, ?_⟩
  · intro c
    rw [hall.mem_iff, (hperm.filterMap _).mem_iff]
    exact h.mem_offered hfilter
  · rw [RetainStore.retrieve, if_neg hne]
    exact hselected.stable_eq.trans hbest
  · rw [RetainStore.retrieve, if_neg hne]
    exact htruncated

end RetainStore

end Mqtts.Retain
