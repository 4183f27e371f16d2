import Mathlib.Algebra.Order.Ring.Int
import Mathlib.Data.List.Basic

/-!
# Association lists as unordered maps

An unordered map from keys to values as a list of pairs, read by `List.lookup`. A list rather than a
structure, so that a type of trees may nest through it.
-/

namespace Assoc

open List

variable {κ ν : Type} [BEq κ] [LawfulBEq κ]

/-- Replaces the value of a key in place or adds it at the end. -/
def assocSet (k : κ) (v : ν) : List (κ × ν) → List (κ × ν)
  | [] => [(k, v)]
  | (k', v') :: rest => if k' == k then (k, v) :: rest else (k', v') :: assocSet k v rest

theorem lookup_assocSet_self (k : κ) (v : ν) (l : List (κ × ν)) :
    List.lookup k (assocSet k v l) = some v := by
  induction l with
  | nil => simp [assocSet]
  | cons p rest ih =>
    obtain ⟨a, w⟩ := p
    by_cases h : a = k
    · simp [assocSet, h]
    · have h' : (k == a) = false := beq_eq_false_iff_ne.2 (Ne.symm h)
      simp [assocSet, lookup_cons, h, h', ih]

variable {k k' : κ} {v : ν} {l : List (κ × ν)}

theorem lookup_assocSet_of_ne (hne : k' ≠ k) (v : ν) (l : List (κ × ν)) :
    List.lookup k' (assocSet k v l) = List.lookup k' l := by
  have hne' : (k' == k) = false := by simpa using hne
  induction l with
  | nil => simp [assocSet, lookup_cons, hne']
  | cons p rest ih =>
    obtain ⟨a, w⟩ := p
    by_cases h : a = k
    · subst h
      simp [assocSet, lookup_cons, hne']
    · simp [assocSet, lookup_cons, h, ih]

theorem mem_keys_assocSet : k' ∈ (assocSet k v l).map Prod.fst ↔ k' = k ∨ k' ∈ l.map Prod.fst := by
  induction l with
  | nil => simp [assocSet]
  | cons p rest ih =>
    by_cases h : p.1 = k
    · simp [assocSet, h]
    · simp only [assocSet, beq_iff_eq, h, if_false, map_cons, mem_cons, ih]
      exact or_left_comm

omit [LawfulBEq κ] in
theorem mem_assocSet {p} (h : p ∈ assocSet k v l) : p = (k, v) ∨ p ∈ l := by
  induction l with
  | nil => exact .inl (mem_singleton.1 h)
  | cons q rest ih =>
    rw [assocSet] at h
    split at h
    · exact (mem_cons.1 h).imp id (mem_cons_of_mem q)
    · rcases mem_cons.1 h with rfl | h
      · exact .inr mem_cons_self
      · exact (ih h).imp id (mem_cons_of_mem q)

/-- Keys that are distinct stay so. -/
theorem nodup_keys_assocSet (h : (l.map Prod.fst).Nodup) :
    ((assocSet k v l).map Prod.fst).Nodup := by
  induction l with
  | nil => simp [assocSet]
  | cons p rest ih =>
    rw [map_cons, nodup_cons] at h
    rw [assocSet]
    split
    · rename_i hk
      rw [beq_iff_eq] at hk
      subst hk
      rw [map_cons, nodup_cons]
      exact h
    · rename_i hk
      rw [map_cons, nodup_cons, mem_keys_assocSet]
      exact ⟨fun hmem => hmem.elim (fun heq => hk (beq_iff_eq.2 heq)) h.1, ih h.2⟩

/-- With distinct keys every pair of the list is read. -/
theorem lookup_of_mem (h : (l.map Prod.fst).Nodup) (hmem : (k, v) ∈ l) :
    List.lookup k l = some v := by
  obtain ⟨before, after, rfl⟩ := append_of_mem hmem
  rw [lookup_eq_some_iff]
  refine ⟨before, after, rfl, fun p hp => bne_iff_ne.2 fun heq => ?_⟩
  rw [map_append, nodup_append] at h
  exact h.2.2 p.1 (mem_map.2 ⟨p, hp, rfl⟩) k (by simp) heq.symm

theorem mem_of_lookup (h : List.lookup k l = some v) : (k, v) ∈ l := by
  obtain ⟨before, after, rfl, -⟩ := lookup_eq_some_iff.1 h
  simp

theorem mem_iff_lookup (h : (l.map Prod.fst).Nodup) :
    (k, v) ∈ l ↔ List.lookup k l = some v :=
  ⟨lookup_of_mem h, mem_of_lookup⟩

theorem mem_assocSet_iff {v'} (h : (l.map Prod.fst).Nodup) :
    (k', v') ∈ assocSet k v l ↔ k' = k ∧ v' = v ∨ k' ≠ k ∧ (k', v') ∈ l := by
  rw [mem_iff_lookup (nodup_keys_assocSet h), mem_iff_lookup h]
  by_cases hk : k' = k
  · subst hk
    simp [lookup_assocSet_self, eq_comm]
  · simp [lookup_assocSet_of_ne hk, hk]

/-- Takes a key out. -/
def assocErase (k : κ) (l : List (κ × ν)) : List (κ × ν) := l.filter fun p => !(p.1 == k)

theorem lookup_assocErase_self (k : κ) (l : List (κ × ν)) :
    List.lookup k (assocErase k l) = none := by
  rw [lookup_eq_none_iff]
  intro p hp
  have h : p.1 ≠ k := by simpa [assocErase] using (mem_filter.1 hp).2
  exact bne_iff_ne.2 (Ne.symm h)

theorem lookup_assocErase_of_ne (hne : k' ≠ k) (l : List (κ × ν)) :
    List.lookup k' (assocErase k l) = List.lookup k' l := by
  have hne' : (k' == k) = false := by simpa using hne
  induction l with
  | nil => rfl
  | cons p rest ih =>
    obtain ⟨a, v⟩ := p
    simp only [assocErase] at ih
    by_cases h : a = k
    · subst h
      simpa [assocErase, lookup_cons, hne'] using ih
    · have h' : (a == k) = false := by simpa using h
      simp only [assocErase, filter_cons, h', Bool.not_false, if_true, lookup_cons, ih]

end Assoc
