import Mathlib.Algebra.Order.Ring.Int
import Mathlib.Data.List.Basic

/-!
# Cells that are changed by compare-and-swap

A cell holds a pointer to a value, and a value never changes: a thread reads the pointer, builds a
new value from the one that it found, and swaps the pointer if it is still the one that it read.
Values are numbered in the order in which they were made and none is reused.
-/

structure Cells (α : Type) where
  pointers : List Nat
  values : List α
  valid : ∀ p ∈ pointers, p < values.length

namespace Cells

open List

variable {α : Type}

def size (h : Cells α) : Nat := h.pointers.length

def single (v : α) : Cells α := ⟨[0], [v], by simp⟩

def pointer (h : Cells α) (n : Nat) : Option Nat := h.pointers[n]?

def value (h : Cells α) (p : Nat) : Option α := h.values[p]?

/-- The value of a cell. -/
def read (h : Cells α) (n : Nat) : Option α := (h.pointer n).bind h.value

def alloc (h : Cells α) (v : α) : Cells α where
  pointers := h.pointers ++ [h.values.length]
  values := h.values ++ [v]
  valid := by
    intro p hp
    rw [length_append, length_singleton]
    rcases mem_append.1 hp with hp | hp
    · exact Nat.lt_succ_of_lt (h.valid p hp)
    · exact mem_singleton.1 hp ▸ Nat.lt_succ_self _

def swap (h : Cells α) (n old : Nat) (new : α) : Option (Cells α) :=
  if h.pointer n = some old then
    some
      { pointers := h.pointers.set n h.values.length
        values := h.values ++ [new]
        valid := by
          intro p hp
          rw [length_append, length_singleton]
          rcases mem_or_eq_of_mem_set hp with hp | rfl
          · exact Nat.lt_succ_of_lt (h.valid p hp)
          · exact Nat.lt_succ_self _ }
  else none

variable {h h' : Cells α} {n m p : Nat} {v : α}

theorem value_append (hp : h.pointer n = some p) (v : α) : (h.values ++ [v])[p]? = h.value p :=
  List.getElem?_append_left (h.valid p (mem_of_getElem? hp))

theorem pointer_isSome (hn : n < h.size) : ∃ p, h.pointer n = some p :=
  ⟨_, List.getElem?_eq_getElem hn⟩

theorem lt_size_of_pointer (hp : h.pointer n = some p) : n < h.size :=
  (List.getElem?_eq_some_iff.1 hp).1

theorem read_eq_none (hn : h.size ≤ n) : h.read n = none := by
  have hp : h.pointer n = none := List.getElem?_eq_none hn
  rw [read, hp]
  rfl

theorem read_of_pointer (hp : h.pointer n = some p) : h.read n = h.value p := by
  rw [read, hp]
  rfl

/-! ## After an update -/

theorem read_alloc (h : Cells α) (v : α) (m : Nat) :
    (h.alloc v).read m = if m = h.size then some v else h.read m := by
  by_cases hm : m < h.size
  · obtain ⟨p, hp⟩ := pointer_isSome hm
    have hp' : (h.alloc v).pointer m = some p := (List.getElem?_append_left hm).trans hp
    rw [if_neg (Nat.ne_of_lt hm), read_of_pointer hp', read_of_pointer hp]
    exact value_append hp v
  · by_cases heq : m = h.size
    · subst heq
      have hp' : (h.alloc v).pointer h.size = some h.values.length :=
        List.getElem?_concat_length
      rw [if_pos rfl, read_of_pointer hp']
      exact List.getElem?_concat_length
    · have hlt : (h.alloc v).size ≤ m := by
        rw [size, alloc, length_append, length_singleton]
        exact Nat.lt_of_le_of_ne (Nat.not_lt.1 hm) (Ne.symm heq)
      rw [if_neg heq, read_eq_none hlt, read_eq_none (Nat.not_lt.1 hm)]

theorem size_alloc (h : Cells α) (v : α) : (h.alloc v).size = h.size + 1 := by
  simp [size, alloc]

section

variable (hs : h.swap n p v = some h')
include hs

theorem pointer_of_swap : h.pointer n = some p := by
  by_contra hp
  rw [swap, if_neg hp] at hs
  cases hs

/-- A swap succeeds only if nothing was swapped in between. -/
theorem read_eq_of_swap : h.read n = h.value p :=
  read_of_pointer (pointer_of_swap hs)

theorem size_swap : h'.size = h.size := by
  rw [swap, if_pos (pointer_of_swap hs)] at hs
  cases hs
  exact length_set

theorem read_swap_self : h'.read n = some v := by
  have hn := lt_size_of_pointer (pointer_of_swap hs)
  rw [swap, if_pos (pointer_of_swap hs)] at hs
  cases hs
  have hp' : (h.pointers.set n h.values.length)[n]? = some h.values.length :=
    List.getElem?_set_self hn
  rw [read, pointer, hp']
  exact List.getElem?_concat_length

theorem read_swap_of_ne (hm : m ≠ n) : h'.read m = h.read m := by
  rw [swap, if_pos (pointer_of_swap hs)] at hs
  cases hs
  have hp' : (h.pointers.set n h.values.length)[m]? = h.pointers[m]? :=
    List.getElem?_set_ne hm.symm
  rw [read, pointer, hp', read]
  cases hp : h.pointer m with
  | none =>
    rw [pointer] at hp
    rw [hp]
    rfl
  | some q =>
    have hq := value_append hp v
    rw [pointer] at hp
    rw [hp]
    exact hq

end

end Cells
