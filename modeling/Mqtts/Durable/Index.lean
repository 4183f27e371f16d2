import Mqtts.Lib.ArenaRemove
import Mqtts.Topic.Levels

/-!
# The index of subscriptions

The durable store finds the subscriptions of a topic in a trie over the levels of the filters, kept
in a vector with a stack of free nodes (`Arena`).
-/

namespace Mqtts.Durable

open Option List Maps Arena
open Std (ExtTreeMap)

structure IndexedSubscription where
  object : Nat
  filter : Str
  deriving DecidableEq

abbrev TopicIndex : Type := Arena Str Str IndexedSubscription

namespace TopicIndex

/-- `index_subscription` with `add`. -/
def add (index : TopicIndex) (client : Str) (object : Nat) (filter : Str) : TopicIndex :=
  index.insert (topicLevels filter) client ⟨object, filter⟩

/-- `index_subscription` without `add`. -/
def discard (index : TopicIndex) (client filter : Str) : TopicIndex :=
  index.remove (topicLevels filter) client

/-! ## The walk -/

section Walk

variable (index : TopicIndex) (system : Bool)

def hashEntries (n : Nat) : List (Str × IndexedSubscription) :=
  if n = 0 ∧ system then []
  else ((index.child n hashLevel).elim ∅ (fun m => (index.cell m).entries)).toList

def plusChild (n : Nat) : Option Nat :=
  if n = 0 ∧ system then none else index.child n plusLevel

/-- The loop of `match`. The stack has its top first; with each node stand the levels that
are left of the topic. -/
def matchLoop : Nat → List (Nat × List Str) → List (Str × IndexedSubscription)
  | 0, _ => []
  | _ + 1, [] => []
  | rounds + 1, (n, []) :: todo =>
    hashEntries index system n ++ ((index.cell n).entries.toList ++ matchLoop rounds todo)
  | rounds + 1, (n, level :: levels) :: todo =>
    let todo := (index.child n level).elim todo fun m => (m, levels) :: todo
    let todo := (plusChild index system n).elim todo fun m => (m, levels) :: todo
    hashEntries index system n ++ matchLoop rounds todo

/-- The entries that `match` considers. A node is visited with each choice of the exact
child or the wildcard on the way to it at most once, which bounds the rounds. -/
def matchEntries (topic : Str) : List (Str × IndexedSubscription) :=
  let levels := topicLevels topic
  matchLoop index (topic.head? == some dollar) (2 ^ (levels.length + 1)) [(0, levels)]

/-- The walk as a recursion over the levels of the topic. -/
def matchFrom (n : Nat) : List Str → List (Str × IndexedSubscription)
  | [] => hashEntries index system n ++ (index.cell n).entries.toList
  | level :: levels =>
    hashEntries index system n ++
      ((plusChild index system n).elim [] (fun m => matchFrom m levels) ++
        (index.child n level).elim [] fun m => matchFrom m levels)

def weight (item : Nat × List Str) : Nat := 2 ^ (item.2.length + 1) - 1

variable {index system}

theorem matchLoop_eq : ∀ rounds todo, (todo.map weight).sum ≤ rounds →
      matchLoop index system rounds todo =
        todo.flatMap fun item => matchFrom index system item.1 item.2
  | 0, [], _ => rfl
  | 0, (n, levels) :: todo, h => by
    have hpos : 2 ≤ 2 ^ (levels.length + 1) := Nat.le_self_pow (by omega) 2
    simp only [map_cons, sum_cons, weight] at h
    omega
  | rounds + 1, [], _ => rfl
  | rounds + 1, (n, []) :: todo, h => by
    simp only [map_cons, sum_cons, weight, length_nil] at h
    rw [matchLoop, matchLoop_eq rounds todo (by omega), flatMap_cons, matchFrom, append_assoc]
  | rounds + 1, (n, level :: levels) :: todo, h => by
    have hpow : 2 ^ (levels.length + 1 + 1) = 2 * 2 ^ (levels.length + 1) := by
      rw [Nat.pow_succ, Nat.mul_comm]
    have hpos : 2 ≤ 2 ^ (levels.length + 1) := Nat.le_self_pow (by omega) 2
    simp only [map_cons, sum_cons, weight, length_cons] at h
    rw [matchLoop, flatMap_cons, matchFrom]
    rw [matchLoop_eq rounds]
    · cases index.child n level <;> cases plusChild index system n <;> simp
    · cases index.child n level <;> cases plusChild index system n <;>
        simp only [elim_none, elim_some, map_cons, sum_cons, weight] <;>
        omega

end Walk

/-- The stack of nodes to visit comes to the recursion. -/
theorem matchEntries_eq (index : TopicIndex) (topic : Str) : index.matchEntries topic =
      matchFrom index (topic.head? == some dollar) 0 (topicLevels topic) := by
  have hrounds : ([(0, topicLevels topic)].map weight).sum ≤
      2 ^ ((topicLevels topic).length + 1) := by simp [weight]
  rw [matchEntries, matchLoop_eq _ _ hrounds]
  simp

/-! ## What the walk finds -/

section Entries

variable {index : TopicIndex} {system : Bool} {p : List Str} {n : Nat} {c : Str}
  {e : IndexedSubscription}

theorem mem_entries (hp : index.locate p = some n) :
    (c, e) ∈ (index.cell n).entries.toList ↔ index.get p c = some e := by
  rw [ExtTreeMap.mem_toList_iff_getElem?_eq_some, Arena.get, hp, bind_some]

theorem eq_zero_iff (hs : index.Sound) (hp : index.locate p = some n) : n = 0 ↔ p = [] := by
  constructor <;> rintro rfl
  · exact hs.injective p [] 0 hp rfl
  · exact (Option.some.inj hp).symm

theorem mem_hashEntries (hs : index.Sound) (hp : index.locate p = some n) :
    (c, e) ∈ hashEntries index system n ↔
      ¬(p = [] ∧ system) ∧ index.get (p ++ [hashLevel]) c = some e := by
  simp only [hashEntries, eq_zero_iff hs hp]
  by_cases hroot : p = [] ∧ system
  · simp [hroot]
  · rw [if_neg hroot, Arena.get, Arena.locate_concat, hp, bind_some]
    cases index.child n hashLevel with
    | none => simp
    | some m => simp [hroot, ExtTreeMap.mem_toList_iff_getElem?_eq_some]

theorem plusChild_eq (hs : index.Sound) (hp : index.locate p = some n) : plusChild index system n =
      if p = [] ∧ system then none else index.locate (p ++ [plusLevel]) := by
  simp only [plusChild, eq_zero_iff hs hp, locate_concat, hp, bind_some]

theorem locate_of_plusChild (hs : index.Sound) (hp : index.locate p = some n) {m}
    (hm : plusChild index system n = some m) : index.locate (p ++ [plusLevel]) = some m := by
  rw [plusChild_eq hs hp] at hm
  split at hm
  · cases hm
  · exact hm

theorem nodup_hashEntries (n : Nat) : (hashEntries index system n).Nodup := by
  rw [hashEntries]
  split
  · exact nodup_nil
  · exact nodup_toList _

/-- An entry that the walk finds below the node at `p` lies at a path `p ++ q` where `q`
matches the levels that are left. -/
theorem mem_matchFrom (hs : index.Sound) : ∀ levels, (∀ l ∈ levels, l ≠ plusLevel ∧ l ≠ hashLevel) →
      ∀ {p n}, index.locate p = some n → ((c, e) ∈ matchFrom index system n levels ↔
          ∃ q, matchLevels q levels ∧ ¬(p = [] ∧ system ∧ leadingWildcard q) ∧
            index.get (p ++ q) c = some e)
  | [], _, p, n, hp => by
    rw [matchFrom, mem_append, mem_hashEntries hs hp, mem_entries hp]
    constructor
    · rintro (⟨hroot, hget⟩ | hget)
      · exact ⟨[hashLevel], by simp, fun h => hroot ⟨h.1, h.2.1⟩, hget⟩
      · exact ⟨[], by simp, by simp [leadingWildcard], by rwa [append_nil]⟩
    · rintro ⟨q, hq, hroot, hget⟩
      rcases (matchLevels_nil_right q).1 hq with rfl | rfl
      · exact .inr (by rwa [append_nil] at hget)
      · exact .inl ⟨fun h => hroot ⟨h.1, h.2, by simp [leadingWildcard]⟩, hget⟩
  | level :: levels, hplain, p, n, hp => by
    have hrest : ∀ l ∈ levels, l ≠ plusLevel ∧ l ≠ hashLevel :=
      fun l hl => hplain l (mem_cons_of_mem _ hl)
    -- what lies below a child of the node
    have hbelow : ∀ (f : Str) (child : Option Nat),
        (∀ m, child = some m → index.locate (p ++ [f]) = some m) →
        ((c, e) ∈ child.elim [] (fun m => matchFrom index system m levels) ↔
          child.isSome ∧ ∃ fs, matchLevels fs levels ∧
            index.get (p ++ f :: fs) c = some e) := by
      intro f child hchild
      cases child with
      | none => simp
      | some m =>
        rw [elim_some, mem_matchFrom hs levels hrest (hchild m rfl)]
        simp
    -- an entry below a child shows that the child is there
    have hsome : ∀ (f : Str) (fs : List Str), index.get (p ++ f :: fs) c = some e →
        (index.locate (p ++ [f])).isSome := by
      intro f fs hget
      cases hf : index.locate (p ++ [f]) with
      | some m => rfl
      | none =>
        rw [append_cons, Arena.get, Arena.locate, foldlM_append] at hget
        have hf' : List.foldlM (fun n k => index.child n k) 0 (p ++ [f]) = none := hf
        rw [hf'] at hget
        cases hget
    have hlevel : index.child n level = index.locate (p ++ [level]) := by
      rw [locate_concat, hp, bind_some]
    rw [matchFrom, mem_append, mem_append, mem_hashEntries hs hp,
      hbelow plusLevel _ fun m hm => ?_, hbelow level _ fun m hm => hlevel ▸ hm]
    · constructor
      · rintro (⟨hroot, hget⟩ | ⟨hplus, fs, hfs, hget⟩ | ⟨-, fs, hfs, hget⟩)
        · exact ⟨[hashLevel], (matchLevels_cons_right _).2 (.inl rfl),
            fun h => hroot ⟨h.1, h.2.1⟩, hget⟩
        · refine ⟨plusLevel :: fs, (matchLevels_cons_right _).2
            (.inr ⟨_, _, rfl, .inl rfl, hfs⟩), fun h => ?_, hget⟩
          rw [plusChild_eq hs hp, if_pos ⟨h.1, h.2.1⟩] at hplus
          cases hplus
        · refine ⟨level :: fs, (matchLevels_cons_right _).2
            (.inr ⟨_, _, rfl, .inr rfl, hfs⟩), fun h => ?_, hget⟩
          obtain ⟨h1, h2⟩ := hplain level mem_cons_self
          simp [leadingWildcard, h1, h2] at h
      · rintro ⟨q, hq, hroot, hget⟩
        rcases (matchLevels_cons_right q).1 hq with rfl | ⟨f, fs, rfl, rfl | rfl, hfs⟩
        · exact .inl ⟨fun h => hroot ⟨h.1, h.2, by simp [leadingWildcard]⟩, hget⟩
        · refine .inr (.inl ⟨?_, fs, hfs, hget⟩)
          rw [plusChild_eq hs hp, if_neg]
          · exact hsome _ fs hget
          · exact fun h => hroot ⟨h.1, h.2, by simp [leadingWildcard]⟩
        · exact .inr (.inr ⟨by rw [hlevel]; exact hsome _ fs hget, fs, hfs, hget⟩)
    · exact locate_of_plusChild hs hp hm

/-- Every entry lies at the path of its filter. -/
def Placed (index : TopicIndex) : Prop :=
  ∀ p c e, index.get p c = some e → topicLevels e.filter = p

theorem nodup_matchFrom (hs : index.Sound) (hplaced : Placed index) :
    ∀ levels, (∀ l ∈ levels, l ≠ plusLevel ∧ l ≠ hashLevel) → ∀ {p n}, index.locate p = some n →
        (matchFrom index system n levels).Nodup
  | [], _, p, n, hp => by
    rw [matchFrom, nodup_append]
    refine ⟨nodup_hashEntries n, nodup_toList _, ?_⟩
    rintro ⟨c, e⟩ h1 ⟨c', e'⟩ h2 heq
    cases heq
    have hpath1 := hplaced _ _ _ ((mem_hashEntries hs hp).1 h1).2
    have hpath2 := hplaced _ _ _ ((mem_entries hp).1 h2)
    rw [hpath1] at hpath2
    simp at hpath2
  | level :: levels, hplain, p, n, hp => by
    have hrest : ∀ l ∈ levels, l ≠ plusLevel ∧ l ≠ hashLevel :=
      fun l hl => hplain l (mem_cons_of_mem _ hl)
    obtain ⟨hlevel1, hlevel2⟩ := hplain level mem_cons_self
    have hchild : ∀ (f : Str) (child : Option Nat),
        (∀ m, child = some m → index.locate (p ++ [f]) = some m) →
        (child.elim [] fun m => matchFrom index system m levels).Nodup ∧
        ∀ c e, (c, e) ∈ child.elim [] (fun m => matchFrom index system m levels) →
          ∃ q, topicLevels e.filter = p ++ f :: q := by
      intro f child hlocate
      cases child with
      | none => exact ⟨nodup_nil, fun c e h => absurd h not_mem_nil⟩
      | some m =>
        refine ⟨nodup_matchFrom hs hplaced levels hrest (hlocate m rfl), fun c e h => ?_⟩
        obtain ⟨q, -, -, hget⟩ :=
          (mem_matchFrom hs levels hrest (hlocate m rfl)).1 h
        exact ⟨q, by rw [hplaced _ _ _ hget, append_assoc]; rfl⟩
    obtain ⟨hplus, hplusPath⟩ := hchild plusLevel _ fun m hm => locate_of_plusChild hs hp hm
    obtain ⟨hexact, hexactPath⟩ := hchild level (index.child n level) fun m hm => by
      rw [locate_concat, hp, bind_some, hm]
    rw [matchFrom, nodup_append, nodup_append]
    refine ⟨nodup_hashEntries n, ⟨hplus, hexact, ?_⟩, ?_⟩ <;> rintro ⟨c, e⟩ h1 ⟨c', e'⟩ h2 heq
    · cases heq
      obtain ⟨q1, hq1⟩ := hplusPath _ _ h1
      obtain ⟨q2, hq2⟩ := hexactPath _ _ h2
      rw [hq1] at hq2
      have hhead := append_cancel_left hq2
      exact hlevel1 (List.cons.inj hhead).1.symm
    · cases heq
      have hpath := hplaced _ _ _ ((mem_hashEntries hs hp).1 h1).2
      rcases mem_append.1 h2 with h2 | h2
      · obtain ⟨q, hq⟩ := hplusPath _ _ h2
        rw [hpath] at hq
        have hhead := append_cancel_left hq
        exact absurd (List.cons.inj hhead).1 (by decide)
      · obtain ⟨q, hq⟩ := hexactPath _ _ h2
        rw [hpath] at hq
        have hhead := append_cancel_left hq
        exact hlevel2 (List.cons.inj hhead).1.symm

end Entries

/-- For the name of a topic the walk visits the entries whose filter matches, -/
theorem mem_matchEntries {index} (hs : index.Sound) (hplaced : Placed index)
    {topic} (hname : TopicName topic) (c : Str) (e : IndexedSubscription) :
    (c, e) ∈ index.matchEntries topic ↔
      index.get (topicLevels e.filter) c = some e ∧ mqttMatches e.filter topic := by
  rw [matchEntries_eq, mem_matchFrom hs _ hname.levels (locate_nil index), mqttMatches,
    filterMatches, systemTopic_topicLevels]
  constructor
  · rintro ⟨q, hq, hroot, hget⟩
    have hpath := hplaced _ _ _ hget
    rw [nil_append] at hpath hget
    rw [hpath, hq]
    refine ⟨hget, ?_⟩
    simpa [imp_iff_not_or] using hroot
  · rintro ⟨hget, hmatch⟩
    rw [Bool.and_eq_true] at hmatch
    exact ⟨topicLevels e.filter, hmatch.2, by simpa [imp_iff_not_or] using hmatch.1, hget⟩

/-- each of them once. -/
theorem nodup_matchEntries {index} (hs : index.Sound) (hplaced : Placed index)
    {topic} (hname : TopicName topic) : (index.matchEntries topic).Nodup := by
  rw [matchEntries_eq]
  exact nodup_matchFrom hs hplaced _ hname.levels (locate_nil index)

end TopicIndex

end Mqtts.Durable
