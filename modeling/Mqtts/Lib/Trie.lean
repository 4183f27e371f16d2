import Mqtts.Lib.Assoc

/-!
# Tries

A map from paths to values as a tree with one node per stored path and per proper initial part of
one. A user needs only what the operations do to `find`.
-/

open Assoc

inductive Trie (κ ν : Type) where
  | node (value : Option ν) (children : List (κ × Trie κ ν))

namespace Trie

variable {κ ν : Type}

def value : Trie κ ν → Option ν
  | node v _ => v

def children : Trie κ ν → List (κ × Trie κ ν)
  | node _ cs => cs

@[simp] theorem value_node (v : Option ν) (cs : List (κ × Trie κ ν)) : (node v cs).value = v := rfl

@[simp] theorem children_node (v : Option ν) (cs : List (κ × Trie κ ν)) :
    (node v cs).children = cs := rfl

def empty : Trie κ ν := node none []

def bare (t : Trie κ ν) : Bool := t.value.isNone && t.children.isEmpty

variable [BEq κ]

def child (t : Trie κ ν) (k : κ) : Option (Trie κ ν) := List.lookup k t.children

/-- The value at a path. -/
def find (t : Trie κ ν) : List κ → Option ν
  | [] => t.value
  | k :: ks =>
    match t.child k with
    | none => none
    | some c => c.find ks

/-- Gives a path a value and makes the nodes that are missing. -/
def set (v : ν) (t : Trie κ ν) : List κ → Trie κ ν
  | [] => node (some v) t.children
  | k :: ks => node t.value (assocSet k (set v ((t.child k).getD empty) ks) t.children)

/-- Takes a value away and prunes the branch that it leaves without a value and without children. -/
def eraseAt (t : Trie κ ν) : List κ → Option (ν × Trie κ ν)
  | [] => t.value.map fun v => (v, node none t.children)
  | k :: ks =>
    match t.child k with
    | none => none
    | some c =>
      match c.eraseAt ks with
      | none => none
      | some (v, c') =>
        some (v, node t.value
          (if c'.bare then assocErase k t.children else assocSet k c' t.children))

@[simp] theorem find_nil (t : Trie κ ν) : t.find [] = t.value := by rw [find]

theorem find_cons (t : Trie κ ν) (k : κ) (ks : List κ) :
    t.find (k :: ks) = (t.child k).bind (fun c => c.find ks) := by
  rw [find]
  cases t.child k <;> rfl

@[simp] theorem find_empty (p : List κ) : (empty : Trie κ ν).find p = none := by
  cases p <;> rfl

theorem find_of_bare {t : Trie κ ν} (h : t.bare) (p : List κ) : t.find p = none := by
  obtain ⟨v, cs⟩ := t
  simp only [bare, value_node, children_node, Bool.and_eq_true, Option.isNone_iff_eq_none,
    List.isEmpty_iff] at h
  obtain ⟨rfl, rfl⟩ := h
  exact find_empty p

variable [LawfulBEq κ]

theorem find_set_self (v : ν) : ∀ p (t : Trie κ ν), (t.set v p).find p = some v
  | [], t => by simp [set]
  | k :: ks, t => by
    rw [set, find_cons, child, children_node, lookup_assocSet_self]
    exact find_set_self v ks _

theorem find_set_of_ne (v : ν) : ∀ {p q} (t : Trie κ ν), q ≠ p → (t.set v p).find q = t.find q
  | [], [], _, h => absurd rfl h
  | [], k :: ks, t, _ => by rw [set, find_cons, find_cons]; rfl
  | k :: ks, [], t, _ => by simp [set]
  | k :: ks, a :: as, t, h => by
    rw [set, find_cons, find_cons, child, children_node]
    by_cases ha : a = k
    · subst ha
      rw [lookup_assocSet_self, Option.bind_some, find_set_of_ne v _ fun h' => h (by rw [h'])]
      cases t.child a <;> simp
    · rw [lookup_assocSet_of_ne ha]
      rfl

omit [LawfulBEq κ] in
theorem eraseAt_eq_none : ∀ p (t : Trie κ ν), t.eraseAt p = none ↔ t.find p = none
  | [], t => by simp [eraseAt]
  | k :: ks, t => by
    rw [eraseAt, find_cons]
    cases t.child k with
    | none => simp
    | some c =>
      have ih := eraseAt_eq_none ks c
      cases h : c.eraseAt ks with
      | none => simpa [h] using ih.1 h
      | some r => simpa [h] using ih

theorem find_eraseAt : ∀ {p} {t t' : Trie κ ν} {v}, t.eraseAt p = some (v, t') →
      t.find p = some v ∧ t'.find p = none ∧ ∀ q, q ≠ p → t'.find q = t.find q
  | [], t, t', v, h => by
    obtain ⟨w, hw, heq⟩ := Option.map_eq_some_iff.1 (by simpa only [eraseAt] using h)
    cases heq
    refine ⟨hw, rfl, fun q hq => ?_⟩
    cases q with
    | nil => exact absurd rfl hq
    | cons k ks => rw [find_cons, find_cons]; rfl
  | k :: ks, t, t', v, h => by
    rw [eraseAt] at h
    cases hc : t.child k with
    | none => simp [hc] at h
    | some c =>
      rw [hc] at h
      cases he : c.eraseAt ks with
      | none => simp [he] at h
      | some r =>
        obtain ⟨w, c'⟩ := r
        simp only [he, Option.some.injEq, Prod.mk.injEq] at h
        obtain ⟨rfl, rfl⟩ := h
        obtain ⟨h1, h2, h3⟩ := find_eraseAt he
        -- the branch of `k` reads as `c'`, pruned or not
        have hself : ∀ ks', find (node t.value (if c'.bare then assocErase k t.children
            else assocSet k c' t.children)) (k :: ks') = c'.find ks' := by
          intro ks'
          rw [find_cons, child, children_node]
          split_ifs with hb
          · rw [lookup_assocErase_self, find_of_bare hb]
            rfl
          · rw [lookup_assocSet_self]
            rfl
        refine ⟨by rw [find_cons, hc]; exact h1, by rw [hself]; exact h2, ?_⟩
        intro q hq
        cases q with
        | nil => simp
        | cons a as =>
          by_cases ha : a = k
          · subst ha
            rw [hself, h3 as (fun h' => hq (by rw [h'])), find_cons, hc]
            rfl
          · rw [find_cons, find_cons, child, children_node]
            split
            · rw [lookup_assocErase_of_ne ha]; rfl
            · rw [lookup_assocSet_of_ne ha]; rfl

end Trie
