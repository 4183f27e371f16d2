import Std.Data.ExtTreeMap
import Std.Data.ExtTreeSet
import Mathlib.Algebra.Order.Ring.Int
import Mathlib.Data.List.Lex

/-!
# Ordered maps with sums

`std::map` and `std::set` are `Std.ExtTreeMap` and `Std.ExtTreeSet` over `compare`. The library
states its lookup lemmas with `compare k a = .eq`; here they are with plain equality, for the lawful
orders that occur as keys, pairs in lexicographic order included.
-/

open List Std

/-! ## Keys -/

instance pairOrd {α β : Type} [Ord α] [Ord β] : Ord (α × β) := lexOrd

instance pairTransOrd {α β : Type} [Ord α] [Ord β] [TransOrd α] [TransOrd β] : TransOrd (α × β) :=
  inferInstanceAs (TransCmp (compareLex (compareOn Prod.fst) (compareOn Prod.snd)))

instance pairLawfulEqOrd {α β : Type} [Ord α] [Ord β] [LawfulEqOrd α] [LawfulEqOrd β] :
    LawfulEqOrd (α × β) where
  compare_self {a} := by
    show compareLex (compareOn Prod.fst) (compareOn Prod.snd) a a = .eq
    simp [compareLex, compareOn]
  eq_of_compare {a b} h := by
    have h' : compareLex (compareOn Prod.fst) (compareOn Prod.snd) a b = .eq := h
    rw [compareLex, Ordering.then_eq_eq] at h'
    exact Prod.ext (LawfulEqOrd.compare_eq_iff_eq.1 h'.1) (LawfulEqOrd.compare_eq_iff_eq.1 h'.2)

/-! ## Lookups -/

namespace Maps

variable {κ ν : Type} [Ord κ] [TransOrd κ] [LawfulEqOrd κ] [DecidableEq κ]

@[simp] theorem get_insert (m : ExtTreeMap κ ν) (k a : κ) (v : ν) :
    (m.insert k v)[a]? = if k = a then some v else m[a]? := by
  simp [ExtTreeMap.getElem?_insert]

@[simp] theorem get_erase (m : ExtTreeMap κ ν) (k a : κ) :
    (m.erase k)[a]? = if k = a then none else m[a]? := by
  simp [ExtTreeMap.getElem?_erase]

/-- The entry with the least key (`begin`). -/
def first? (m : ExtTreeMap κ ν) : Option (κ × ν) :=
  m.minKey?.bind fun k => (m[k]?).map fun v => (k, v)

/-! ## Sums -/

/-- A sum over the entries of a map, which bookkeeping by hand has to match. -/
def mapSum (f : κ → ν → Nat) (m : ExtTreeMap κ ν) : Nat :=
  (m.toList.map fun e => f e.1 e.2).sum

omit [DecidableEq κ] in
theorem nodup_toList (m : ExtTreeMap κ ν) : m.toList.Nodup :=
  ExtTreeMap.distinct_keys_toList.imp fun h heq => h (by simp [heq])

variable {m : ExtTreeMap κ ν} {k : κ} {f : κ → ν → Nat}

theorem toList_perm_of_get {v} (h : m[k]? = some v) :
    m.toList.Perm ((k, v) :: (m.erase k).toList) := by
  refine (perm_ext_iff_of_nodup (nodup_toList m) ?_).2 ?_
  · refine nodup_cons.2 ⟨fun hmem => ?_, nodup_toList _⟩
    rw [ExtTreeMap.mem_toList_iff_getElem?_eq_some, get_erase, if_pos rfl] at hmem
    cases hmem
  · rintro ⟨a, w⟩
    rw [mem_cons, ExtTreeMap.mem_toList_iff_getElem?_eq_some,
      ExtTreeMap.mem_toList_iff_getElem?_eq_some, get_erase]
    by_cases hk : k = a
    · subst hk
      simp [h, eq_comm]
    · simp [hk, Ne.symm hk]

theorem mapSum_of_get {v} (h : m[k]? = some v) : mapSum f m = f k v + mapSum f (m.erase k) := by
  rw [mapSum, ((toList_perm_of_get h).map _).sum_nat]
  rfl

omit [LawfulEqOrd κ] [DecidableEq κ] in
theorem get_of_not_contains (h : ¬ m.contains k) : m[k]? = none := by
  rw [← Option.not_isSome_iff_eq_none, ExtTreeMap.isSome_getElem?_iff_mem,
    ExtTreeMap.mem_iff_contains]
  exact h

@[simp] theorem insert_insert (m : ExtTreeMap κ ν) (k : κ) (v v' : ν) :
    (m.insert k v).insert k v' = m.insert k v' := by
  refine ExtTreeMap.ext_getElem? fun a => ?_
  simp only [get_insert]
  split <;> rfl

theorem erase_of_get_none (h : m[k]? = none) : m.erase k = m := by
  refine ExtTreeMap.ext_getElem? fun a => ?_
  rw [get_erase]
  by_cases hk : k = a
  · rw [if_pos hk, ← hk, h]
  · rw [if_neg hk]

/-- and an erasure takes the old one away. -/
theorem mapSum_erase (f : κ → ν → Nat) (m : ExtTreeMap κ ν) (k : κ) :
    mapSum f (m.erase k) + (m[k]?).elim 0 (f k) = mapSum f m := by
  cases h : m[k]? with
  | none => rw [erase_of_get_none h]; rfl
  | some v => rw [mapSum_of_get h, Option.elim_some]; omega

/-- An insertion adds the new term, -/
theorem mapSum_insert (f : κ → ν → Nat) (m : ExtTreeMap κ ν) (k : κ) (v : ν) :
    mapSum f (m.insert k v) + (m[k]?).elim 0 (f k) = mapSum f m + f k v := by
  have h1 : (m.insert k v)[k]? = some v := by simp
  have h2 : (m.insert k v).erase k = m.erase k := by
    refine ExtTreeMap.ext_getElem? fun a => ?_
    by_cases hk : k = a <;> simp [hk]
  rw [mapSum_of_get h1, h2, ← mapSum_erase f m k]
  omega

theorem mapSum_insert_of_none (h : m[k]? = none) (v : ν) :
    mapSum f (m.insert k v) = mapSum f m + f k v := by
  have hsum := mapSum_insert f m k v
  rw [h] at hsum
  exact hsum

omit [DecidableEq κ] in
theorem mapSum_congr {g : κ → ν → Nat} (h : ∀ k v, m[k]? = some v → f k v = g k v) :
    mapSum f m = mapSum g m := by
  refine congrArg List.sum (map_congr_left fun e he => ?_)
  exact h e.1 e.2 (ExtTreeMap.mem_toList_iff_getElem?_eq_some.1 he)

omit [LawfulEqOrd κ] [DecidableEq κ] in
theorem mapSum_map {μ : Type} {f : κ → μ → Nat} (g : κ → ν → μ) (m : ExtTreeMap κ ν) :
    mapSum f (m.map g) = mapSum (fun k v => f k (g k v)) m := by
  rw [mapSum, ExtTreeMap.toList_map, map_map]
  rfl

omit [LawfulEqOrd κ] [DecidableEq κ] in
@[simp] theorem mapSum_empty (f : κ → ν → Nat) : mapSum f (∅ : ExtTreeMap κ ν) = 0 := by
  have hnil : (∅ : ExtTreeMap κ ν).toList = [] := by
    rw [← length_eq_zero_iff, ExtTreeMap.length_toList, ExtTreeMap.size_empty]
  rw [mapSum, hnil]
  rfl

theorem mapSum_eq_of_elim {m'}
    (h : ∀ k, (m'[k]?).elim 0 (f k) = (m[k]?).elim 0 (f k)) : mapSum f m' = mapSum f m := by
  -- the keys of both maps are erased one by one
  have hkeys : ∀ (ks : List κ) {m m' : ExtTreeMap κ ν}, (∀ k ∉ ks, m[k]? = none) →
      (∀ k ∉ ks, m'[k]? = none) → (∀ k : κ, (m'[k]?).elim 0 (f k) = (m[k]?).elim 0 (f k)) →
      mapSum f m' = mapSum f m := by
    intro ks
    induction ks with
    | nil =>
      intro m m' hm hm' _
      have hempty : ∀ {m : ExtTreeMap κ ν}, (∀ k ∉ ([] : List κ), m[k]? = none) → m = ∅ := fun hm =>
        ExtTreeMap.ext_getElem? fun k => by simp [hm k not_mem_nil]
      rw [hempty hm, hempty hm']
    | cons a ks ih =>
      intro m m' hm hm' hsame
      have hgone : ∀ {m : ExtTreeMap κ ν}, (∀ k ∉ a :: ks, m[k]? = none) →
          ∀ k ∉ ks, (m.erase a)[k]? = none := by
        intro m hm k hk
        by_cases ha : a = k
        · rw [get_erase, if_pos ha]
        · rw [get_erase, if_neg ha]
          exact hm k fun hin => (mem_cons.1 hin).elim (fun heq => ha heq.symm) hk
      have hrest := ih (hgone hm) (hgone hm') fun k => by
        rw [get_erase, get_erase]
        split
        · rfl
        · exact hsame k
      rw [← mapSum_erase f m' a, ← mapSum_erase f m a, hrest, hsame a]
  have hmem : ∀ {m : ExtTreeMap κ ν} {k : κ}, k ∉ m.keys → m[k]? = none := fun hk =>
    get_of_not_contains fun hc => hk (ExtTreeMap.mem_keys.2 (ExtTreeMap.mem_iff_contains.2 hc))
  refine hkeys (m.keys ++ m'.keys) (fun k hk => hmem ?_) (fun k hk => hmem ?_) h
  · exact fun hin => hk (mem_append_left _ hin)
  · exact fun hin => hk (mem_append_right _ hin)

omit [LawfulEqOrd κ] [DecidableEq κ] in
theorem size_eq_mapSum (m : ExtTreeMap κ ν) : m.size = mapSum (fun _ _ => 1) m := by
  simp [mapSum, ExtTreeMap.length_toList]

end Maps
