import Mathlib.Algebra.Order.Ring.Int
import Mathlib.Data.List.Destutter
import Mathlib.Data.List.Sort
import Mathlib.Data.List.TakeWhile

/-!
# Sorting by a key and collapsing equal keys

`std::sort` followed by `std::unique`, where both look at a key of the elements only. Which of
several elements with one key survives is open.
-/

namespace SortUnique

open List

variable {α κ : Type} [LinearOrder κ]

/-- One way of sorting by the key; `std::sort` need not be stable. -/
structure KeySort (key : α → κ) where
  run : List α → List α
  perm : ∀ l, (run l).Perm l
  sorted : ∀ l, (run l).Pairwise fun a b => key a ≤ key b

variable {key : α → κ}

def sortUnique (sort : KeySort key) (l : List α) : List α :=
  (sort.run l).destutter fun a b => key a ≠ key b

/-- and it is one of the elements given. -/
theorem mem_of_mem_sortUnique {sort : KeySort key} {l a} (h : a ∈ sortUnique sort l) : a ∈ l :=
  (sort.perm l).mem_iff.1 ((destutter_sublist _ _).mem h)

/-- One element for each key is left, -/
theorem nodup_sortUnique (sort : KeySort key) (l : List α) :
    ((sortUnique sort l).map key).Nodup := by
  have hle : (sortUnique sort l).IsChain (fun a b => key a ≤ key b) :=
    ((sort.sorted l).sublist (destutter_sublist _ _)).isChain
  have hne : (sortUnique sort l).IsChain (fun a b => key a ≠ key b) :=
    isChain_destutter _ _
  have hlt : ((sortUnique sort l).map key).IsChain (· < ·) := by
    rw [isChain_map, isChain_iff_getElem]
    rw [isChain_iff_getElem] at hle hne
    exact fun i hi => lt_of_le_of_ne (hle i hi) (hne i hi)
  exact (isChain_iff_pairwise.1 hlt).imp ne_of_lt

omit [LinearOrder κ] in
variable [DecidableEq κ] in
theorem exists_mem_destutter' (x : α) : ∀ l a, x ∈ a :: l →
      ∃ y ∈ List.destutter' (fun a b => key a ≠ key b) a l, key y = key x
  | [], a, h => ⟨a, by simp, by rw [mem_singleton.1 h]⟩
  | b :: l, a, h => by
    rw [List.destutter'_cons]
    split
    · rename_i hab
      rcases mem_cons.1 h with rfl | h
      · exact ⟨x, mem_cons_self, rfl⟩
      · obtain ⟨y, hy, hk⟩ := exists_mem_destutter' x l b h
        exact ⟨y, mem_cons_of_mem _ hy, hk⟩
    · rename_i hab
      rcases mem_cons.1 h with rfl | h
      · exact exists_mem_destutter' x l x mem_cons_self
      rcases mem_cons.1 h with rfl | h
      · obtain ⟨y, hy, hk⟩ := exists_mem_destutter' a l a mem_cons_self
        exact ⟨y, hy, hk.trans (not_not.1 hab)⟩
      · exact exists_mem_destutter' x l a (mem_cons_of_mem _ h)

/-- for each key that occurs, -/
theorem exists_mem_sortUnique (sort : KeySort key) {l x} (h : x ∈ l) :
    ∃ y ∈ sortUnique sort l, key y = key x := by
  have hx : x ∈ sort.run l := (sort.perm l).mem_iff.2 h
  unfold sortUnique
  cases hr : sort.run l with
  | nil => simp [hr] at hx
  | cons a as =>
    rw [hr] at hx
    exact exists_mem_destutter' x as a hx

/-! ## A sort for every choice -/

instance keyTotal : Std.Total (fun a b : α => key a ≤ key b) := ⟨fun _ _ => le_total _ _⟩

instance keyIsTrans : IsTrans α (fun a b : α => key a ≤ key b) := ⟨fun _ _ _ h h' => le_trans h h'⟩

def stable (key : α → κ) : KeySort key where
  run := List.insertionSort fun a b => key a ≤ key b
  perm := perm_insertionSort _
  sorted := pairwise_insertionSort _

section Choice

variable [DecidableEq α]

def preferring (key : α → κ) (l : List α) (x : α) : KeySort key where
  run m := (stable key).run (if m = l ∧ x ∈ l then x :: l.erase x else m)
  perm m := by
    split
    · rename_i h
      rw [h.1]
      exact ((stable key).perm _).trans (perm_cons_erase h.2).symm
    · exact (stable key).perm m
  sorted _ := (stable key).sorted _

omit [LinearOrder κ] [DecidableEq α] in
variable [DecidableEq κ] in
theorem mem_destutter'_of_new (x : α) : ∀ l a r, (∀ b ∈ a :: l, key b ≠ key x) →
      x ∈ List.destutter' (fun a b => key a ≠ key b) a (l ++ x :: r)
  | [], a, r, h => by
    rw [nil_append, List.destutter'_cons, if_pos (h a mem_cons_self)]
    exact mem_cons_of_mem _ (mem_destutter' _ _ _)
  | b :: l, a, r, h => by
    rw [cons_append, List.destutter'_cons]
    have hb := mem_destutter'_of_new x l b r fun c hc => h c (mem_cons_of_mem _ hc)
    split
    · exact mem_cons_of_mem _ hb
    exact mem_destutter'_of_new x l a r fun c hc => by
      rcases mem_cons.1 hc with rfl | hc
      · exact h c mem_cons_self
      · exact h c (mem_cons_of_mem _ (mem_cons_of_mem _ hc))

/-- Each of several elements with one key survives under some sort. -/
theorem exists_sort_choosing (key : α → κ) {l x} (hx : x ∈ l) :
    ∃ sort : KeySort key, x ∈ sortUnique sort l := by
  refine ⟨preferring key l x, ?_⟩
  have hrun : (preferring key l x).run l =
      (x :: l.erase x).insertionSort (fun a b => key a ≤ key b) := by
    simp [preferring, stable, hx]
  rw [sortUnique, hrun, insertionSort_cons, orderedInsert_eq_take_drop]
  set m := (l.erase x).insertionSort fun a b => key a ≤ key b
  have hnew : ∀ b ∈ m.takeWhile fun b => decide ¬ key x ≤ key b, key b ≠ key x := by
    intro b hb heq
    have := mem_takeWhile_imp hb
    simp [heq] at this
  cases ht : m.takeWhile (fun b => decide ¬ key x ≤ key b) with
  | nil => exact mem_destutter' _ _ _
  | cons a as => exact mem_destutter'_of_new x as a _ (by rwa [ht] at hnew)

end Choice

end SortUnique
