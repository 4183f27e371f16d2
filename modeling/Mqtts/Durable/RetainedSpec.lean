import Mqtts.Durable.Retained

/-!
# What the retained operations do

One lemma per operation of the retained map, in terms of the slot of each topic.
-/

namespace Mqtts.Durable

open Std Maps

/-! ## What the operations do to the map -/

namespace RetainState

variable {s : RetainState} {now : Int} {topic t : Str} {item : RetainedItem}

@[simp] theorem retained_eraseRetained :
    (s.eraseRetained topic item).retained = s.retained.erase topic := rfl

@[simp] theorem get_setRetained : (s.setRetained topic item).retained[t]? =
      if topic = t then some { item with width := retainRecordWidth item.record }
      else s.retained[t]? := by
  unfold setRetained
  split <;> by_cases h : topic = t <;> simp [h]

@[simp] theorem retainEpoch_setRetained :
    (s.setRetained topic item).retainEpoch = s.retainEpoch := by
  unfold setRetained
  split <;> rfl

@[simp] theorem flags_setRetained : (s.setRetained topic item).flags = s.flags := by
  unfold setRetained
  split <;> rfl

@[simp] theorem next_setRetained :
    (s.setRetained topic item).nextRetainGeneration = s.nextRetainGeneration := by
  unfold setRetained
  split <;> rfl

@[simp] theorem takeRetained_fst : (s.takeRetained topic).1 = s.retained[topic]? := by
  unfold takeRetained
  split <;> simp_all

@[simp] theorem get_takeRetained :
    (s.takeRetained topic).2.retained[t]? = if topic = t then none else s.retained[t]? := by
  unfold takeRetained
  split
  · simp
  · by_cases h : topic = t <;> simp_all

@[simp] theorem retainEpoch_takeRetained :
    (s.takeRetained topic).2.retainEpoch = s.retainEpoch := by
  unfold takeRetained
  split <;> rfl

@[simp] theorem flags_takeRetained : (s.takeRetained topic).2.flags = s.flags := by
  unfold takeRetained
  split <;> rfl

/-- Every pair of `retain_expiry` belongs to an item of the map with that expiry. -/
def ExpiryInv (s : RetainState) : Prop :=
  ∀ e t, (e, t) ∈ s.retainExpiry →
    0 < e ∧ ∃ item, s.retained[t]? = some item ∧ item.record.expiresMs = e

theorem mem_retainExpiry_eraseRetained (h : s.ExpiryInv) (hi : s.retained[topic]? = some item) {e} :
    (e, t) ∈ (s.eraseRetained topic item).retainExpiry ↔ (e, t) ∈ s.retainExpiry ∧ t ≠ topic := by
  have hexp : ∀ e, (e, topic) ∈ s.retainExpiry → 0 < e ∧ item.record.expiresMs = e := by
    intro e he
    obtain ⟨hpos, item', hi', hee⟩ := h e topic he
    rw [hi] at hi'
    cases hi'
    exact ⟨hpos, hee⟩
  unfold eraseRetained
  by_cases hp : item.record.expiresMs > 0
  · simp only [hp, if_true, ExtTreeSet.mem_erase, ne_eq, LawfulEqCmp.compare_eq_iff_eq,
      Prod.mk.injEq, not_and]
    constructor
    · rintro ⟨hne, hmem⟩
      refine ⟨hmem, fun ht => ?_⟩
      subst ht
      exact hne (hexp e hmem).2 rfl
    · rintro ⟨hmem, hne⟩
      exact ⟨fun _ ht => hne ht.symm, hmem⟩
  · simp only [hp, if_false]
    constructor
    · intro hmem
      refine ⟨hmem, fun ht => ?_⟩
      subst ht
      have := hexp e hmem
      omega
    · exact fun hmem => hmem.1

theorem expiryInv_eraseRetained (h : s.ExpiryInv) (hi : s.retained[topic]? = some item) :
    (s.eraseRetained topic item).ExpiryInv := by
  intro e t hmem
  obtain ⟨hmem, hne⟩ := (mem_retainExpiry_eraseRetained h hi).1 hmem
  obtain ⟨hpos, item', hi', hee⟩ := h e t hmem
  exact ⟨hpos, item', by simp [Ne.symm hne, hi'], hee⟩

theorem expiryInv_setRetained (h : s.ExpiryInv) : (s.setRetained topic item).ExpiryInv := by
  -- Without its own item the topic has no pair left, so only the new pair is added.
  have hbase : ∃ s' : RetainState, s'.ExpiryInv ∧
      (∀ t : Str, s'.retained[t]? = if topic = t then none else s.retained[t]?) ∧
        (s.setRetained topic item).retainExpiry =
        (if item.record.expiresMs > 0 then s'.retainExpiry.insert (item.record.expiresMs, topic)
          else s'.retainExpiry) := by
    unfold setRetained
    cases hf : s.retained[topic]? with
    | none =>
      refine ⟨s, h, fun t => ?_, rfl⟩
      by_cases ht : topic = t
      · rw [if_pos ht, ← ht, hf]
      · rw [if_neg ht]
    | some found =>
      refine ⟨_, expiryInv_eraseRetained h hf, fun t => ?_, rfl⟩
      simp
  obtain ⟨s', hs', hget, hexp⟩ := hbase
  intro e t hmem
  have hold : (e, t) ∈ s'.retainExpiry →
      0 < e ∧ ∃ i, (s.setRetained topic item).retained[t]? = some i ∧ i.record.expiresMs = e := by
    intro hmem
    obtain ⟨hpos, i, hi, hee⟩ := hs' e t hmem
    rw [hget] at hi
    split at hi
    · cases hi
    · rename_i ht
      exact ⟨hpos, i, by simp [ht, hi], hee⟩
  rw [hexp] at hmem
  split at hmem
  · rename_i hp
    rw [ExtTreeSet.mem_insert, LawfulEqCmp.compare_eq_iff_eq] at hmem
    rcases hmem with heq | hmem
    · cases heq
      exact ⟨hp, { item with width := retainRecordWidth item.record }, by simp, rfl⟩
    · exact hold hmem
  · exact hold hmem

theorem expiryInv_takeRetained (h : s.ExpiryInv) : (s.takeRetained topic).2.ExpiryInv := by
  unfold takeRetained
  split
  · exact expiryInv_eraseRetained h (by assumption)
  · exact h

def core (item : RetainedItem) : StoredRetain × Nat := (item.record, item.generation)

/-- What an expiry loop may do to a slot. -/
def Thinned (now : Int) (before after : Option RetainedItem) : Prop :=
  after.map core = before.map core ∨
    after = none ∧ ∃ item, before = some item ∧ expiredAt item.record.expiresMs now

theorem Thinned.refl (a : Option RetainedItem) : Thinned now a a := Or.inl rfl

theorem Thinned.trans {a b c} (hab : Thinned now a b)
    (hbc : Thinned now b c) : Thinned now a c := by
  rcases hbc with hbc | ⟨rfl, i, rfl, hexp⟩
  · rcases hab with hab | ⟨rfl, h⟩
    · exact Or.inl (hbc.trans hab)
    · exact Or.inr ⟨by simpa using hbc, h⟩
  · rcases hab with hab | ⟨hab, -⟩
    · obtain ⟨j, rfl, hj⟩ := Option.map_eq_some_iff.1 hab.symm
      have hrec : j.record = i.record := congrArg Prod.fst hj
      exact Or.inr ⟨rfl, j, rfl, by rw [hrec]; exact hexp⟩
    · cases hab

theorem Thinned.of_some {before i} (h : Thinned now before (some i)) :
    ∃ j, before = some j ∧ j.record = i.record ∧ j.generation = i.generation := by
  rcases h with h | ⟨h, -⟩
  · obtain ⟨j, rfl, hj⟩ := Option.map_eq_some_iff.1 h.symm
    exact ⟨j, rfl, congrArg Prod.fst hj, congrArg Prod.snd hj⟩
  · cases h

theorem Thinned.of_none {i} (h : Thinned now (some i) none) : expiredAt i.record.expiresMs now := by
  rcases h with h | ⟨-, j, hj, hexp⟩
  · cases h
  · cases hj
    exact hexp

theorem eraseExpiredLoop_spec (now : Int) : ∀ (rounds : Nat) (s : RetainState), s.ExpiryInv →
      (s.eraseExpiredLoop now rounds).ExpiryInv ∧
      (∀ t : Str, Thinned now s.retained[t]? (s.eraseExpiredLoop now rounds).retained[t]?) ∧
      (s.eraseExpiredLoop now rounds).retainEpoch = s.retainEpoch ∧
      (s.eraseExpiredLoop now rounds).flags = s.flags ∧
      (s.eraseExpiredLoop now rounds).nextRetainGeneration = s.nextRetainGeneration
  | 0, s, h => ⟨h, fun _ => .refl _, rfl, rfl, rfl⟩
  | rounds + 1, s, h => by
    unfold eraseExpiredLoop
    split
    · exact ⟨h, fun _ => .refl _, rfl, rfl, rfl⟩
    rename_i expires topic hmin
    have hmem : (expires, topic) ∈ s.retainExpiry := ExtTreeSet.min?_mem hmin
    obtain ⟨hpos, item, hitem, hexp⟩ := h expires topic hmem
    split
    · rename_i hle
      simp only [hitem]
      obtain ⟨h1, h2, h3, h4, h5⟩ := eraseExpiredLoop_spec now rounds
        (s.eraseRetained topic item) (expiryInv_eraseRetained h hitem)
      refine ⟨h1, fun t => ?_, h3, h4, h5⟩
      refine Thinned.trans ?_ (h2 t)
      rw [retained_eraseRetained, get_erase]
      by_cases ht : topic = t
      · subst ht
        rw [if_pos rfl, hitem]
        exact Or.inr ⟨rfl, item, rfl, by simp [expiredAt, hexp, hpos, hle]⟩
      · rw [if_neg ht]
        exact .refl _
    · exact ⟨h, fun _ => .refl _, rfl, rfl, rfl⟩

/-- A rollback whose mutation is the latest one on its topic. -/
theorem restoreRetainedItem_latest (now : Int) {generation} (previousEpoch : Nat)
    (previous : Option RetainedItem) (hinv : s.ExpiryInv)
    (hepoch : s.retainEpoch[topic]? = some generation)
    (hown : ∀ item, s.retained[topic]? = some item → item.generation = generation) :
    let s' := s.restoreRetainedItem now topic generation previousEpoch previous
    s'.ExpiryInv ∧
    Thinned now previous s'.retained[topic]? ∧
    (∀ t : Str, topic ≠ t → s'.retained[t]? = s.retained[t]?) ∧
    (∀ t : Str, s'.retainEpoch[t]? = if topic = t then
        (if previousEpoch ≠ 0 then some previousEpoch else none) else s.retainEpoch[t]?) ∧
    s'.flags = s.flags ∧ s'.nextRetainGeneration = s.nextRetainGeneration := by
  -- The state once the mutation's own item is gone and the epoch is put back.
  have hbase : ∃ s₁ : RetainState, s₁.ExpiryInv ∧
      (∀ t : Str, s₁.retained[t]? = if topic = t then none else s.retained[t]?) ∧
      (∀ t : Str, s₁.retainEpoch[t]? = if topic = t then
        (if previousEpoch ≠ 0 then some previousEpoch else none) else s.retainEpoch[t]?) ∧
      s₁.flags = s.flags ∧ s₁.nextRetainGeneration = s.nextRetainGeneration ∧
      (previous = none →
        s.restoreRetainedItem now topic generation previousEpoch previous = s₁) ∧
      ∀ item, previous = some item →
        s.restoreRetainedItem now topic generation previousEpoch previous =
          if expiredAt item.record.expiresMs now then s₁ else s₁.setRetained topic item := by
    have hep : ∀ (m : ExtTreeMap Str Nat) (t : Str),
        (if previousEpoch ≠ 0 then m.insert topic previousEpoch else m.erase topic)[t]? =
          if topic = t then (if previousEpoch ≠ 0 then some previousEpoch else none)
          else m[t]? := by
      intro m t
      by_cases hp : previousEpoch = 0 <;> by_cases ht : topic = t <;> simp [hp, ht]
    unfold restoreRetainedItem
    rw [if_neg (not_not.2 hepoch)]
    cases hf : s.retained[topic]? with
    | none =>
      refine ⟨{ s with retainEpoch := (if previousEpoch ≠ 0 then
          s.retainEpoch.insert topic previousEpoch else s.retainEpoch.erase topic) }, ?_,
        fun t => ?_, fun t => hep _ t, rfl, rfl, fun h => by rw [h], fun item h => by rw [h]⟩
      · exact hinv
      · by_cases ht : topic = t
        · rw [if_pos ht, ← ht]
          exact hf
        · rw [if_neg ht]
    | some found =>
      have hg := hown found hf
      simp only [hg, if_true]
      exact ⟨{ s.eraseRetained topic found with retainEpoch := (if previousEpoch ≠ 0 then
          s.retainEpoch.insert topic previousEpoch else s.retainEpoch.erase topic) },
        expiryInv_eraseRetained hinv hf, fun t => get_erase _ _ _, fun t => hep _ t, rfl, rfl,
        fun h => by rw [h]; rfl, fun item h => by rw [h]; rfl⟩
  obtain ⟨s₁, hinv₁, hget, hepoch₁, hflags, hnext, hnone, hsome⟩ := hbase
  have hgone : s₁.retained[topic]? = none := by rw [hget, if_pos rfl]
  have hother : ∀ t : Str, topic ≠ t → s₁.retained[t]? = s.retained[t]? := fun t ht => by
    rw [hget, if_neg ht]
  cases previous with
  | none =>
    simp only [hnone]
    exact ⟨hinv₁, .inl (by rw [hgone]), hother, hepoch₁, hflags, hnext⟩
  | some item =>
    simp only [hsome item]
    by_cases hexp : expiredAt item.record.expiresMs now
    · simp only [hexp, if_true]
      exact ⟨hinv₁, .inr ⟨hgone, item, rfl, hexp⟩, hother, hepoch₁, hflags, hnext⟩
    · simp only [hexp, Bool.false_eq_true, if_false]
      refine ⟨expiryInv_setRetained hinv₁, .inl (by simp [core]), fun t ht => ?_, ?_, ?_, ?_⟩
      · rw [get_setRetained, if_neg ht, hother t ht]
      · rwa [retainEpoch_setRetained]
      · rw [flags_setRetained, hflags]
      · rw [next_setRetained, hnext]

end RetainState

end Mqtts.Durable
