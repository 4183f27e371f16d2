import Mqtts.Lib.Map
import Mathlib.Data.List.Induction

/-!
# Tries in a vector

A trie whose nodes lie in a vector and name their children by number. A removal unlinks the nodes
that it leaves bare, from the leaf up, and puts their numbers on a stack, from which later
insertions take the numbers of new nodes. Every node holds a map of entries, so an entry is found by
a path and a key.
-/

open Std (ExtTreeMap TransOrd LawfulEqOrd)

structure Cell (κ α β : Type) [Ord κ] [Ord α] where
  children : ExtTreeMap κ Nat := ∅
  entries : ExtTreeMap α β := ∅

/-- The vector of nodes, the root at 0, and the stack of free numbers, its top first. -/
structure Arena (κ α β : Type) [Ord κ] [Ord α] where
  cells : List (Cell κ α β) := [{}]
  free : List Nat := []

namespace Arena

open Option List

variable {κ α β : Type} [Ord κ] [Ord α]

section Operations

variable [TransOrd κ] [TransOrd α] (a : Arena κ α β) (n : Nat)

def cell : Cell κ α β := a.cells.getD n {}

def setCell (c : Cell κ α β) : Arena κ α β := { a with cells := a.cells.set n c }

variable (k : κ) (p : List κ)

def child : Option Nat := (a.cell n).children[k]?

/-- The number of the node at a path. -/
def locate : Option Nat := p.foldlM (fun n k => a.child n k) 0

/-- The entry of a key at a path. -/
def get (key : α) : Option β :=
  (a.locate p).bind fun n => (a.cell n).entries[key]?

def fresh : Nat := a.free.headD a.cells.length

def allocate : Arena κ α β :=
  match a.free with
  | [] => { a with cells := a.cells ++ [{}] }
  | _ :: free => { a with free := free }

def link (m : Nat) : Arena κ α β :=
  a.setCell n { a.cell n with children := (a.cell n).children.insert k m }

def unlink : Arena κ α β :=
  a.setCell n { a.cell n with children := (a.cell n).children.erase k }

def release : Arena κ α β :=
  { a.setCell n {} with free := n :: a.free }

def enter : Arena κ α β × Nat :=
  match a.child n k with
  | some m => (a, m)
  | none => (a.allocate.link n k a.fresh, a.fresh)

def descend (a : Arena κ α β) (n : Nat) : List κ → Arena κ α β × Nat
  | [] => (a, n)
  | k :: ks => descend (a.enter n k).1 (a.enter n k).2 ks

def setEntries (entries : ExtTreeMap α β) : Arena κ α β :=
  a.setCell n { a.cell n with entries := entries }

def insert (key : α) (e : β) : Arena κ α β :=
  let r := a.descend 0 p
  r.1.setEntries r.2 ((r.1.cell r.2).entries.insert key e)

def walk (n : Nat) (path : List (Nat × κ)) : List κ → Option (Nat × List (Nat × κ))
  | [] => some (n, path)
  | k :: ks =>
    match a.child n k with
    | none => none
    | some m => walk m ((n, k) :: path) ks

def bare : Bool := (a.cell n).entries.isEmpty && (a.cell n).children.isEmpty

def prune (a : Arena κ α β) (n : Nat) : List (Nat × κ) → Arena κ α β
  | [] => a
  | (parent, k) :: path => if a.bare n then prune ((a.unlink parent k).release n) parent path else a

def remove (key : α) : Arena κ α β :=
  match a.walk 0 [] p with
  | none => a
  | some (n, path) => (a.setEntries n ((a.cell n).entries.erase key)).prune n path

end Operations

/-! ## Cells -/

section Cells

variable {a : Arena κ α β} {n m : Nat}

theorem cell_setCell (hn : n < a.cells.length) (c : Cell κ α β) (m : Nat) :
    (a.setCell n c).cell m = if n = m then c else a.cell m := by
  simp only [cell, setCell, getD_eq_getElem?_getD, List.getElem?_set]
  by_cases h : n = m
  · subst h
    simp [hn]
  · simp [h]

@[simp] theorem length_setCell (n : Nat) (c : Cell κ α β) :
    (a.setCell n c).cells.length = a.cells.length := by simp [setCell]

@[simp] theorem cell_allocate (n : Nat) : a.allocate.cell n = a.cell n := by
  rw [allocate]
  cases a.free with
  | nil =>
    simp only [cell, getD_eq_getElem?_getD, List.getElem?_append]
    split
    · rfl
    · rename_i h
      rw [List.getElem?_eq_none (Nat.le_of_not_lt h)]
      cases n - a.cells.length <;> simp
  | cons m free => rfl

end Cells

/-! ## Paths -/

section Paths

variable [TransOrd κ] {a a' : Arena κ α β} {p q : List κ} {k : κ} {n m : Nat}

@[simp] theorem locate_nil (a : Arena κ α β) : a.locate [] = some 0 := rfl

theorem locate_concat (a : Arena κ α β) (p : List κ) (k : κ) :
    a.locate (p ++ [k]) = (a.locate p).bind (fun n => a.child n k) := by
  simp [locate, foldlM_append]

theorem locate_congr (h : ∀ n k, a'.child n k = a.child n k) (p : List κ) :
    a'.locate p = a.locate p := by
  have hchild : (fun n k => a'.child n k) = fun n k => a.child n k := by
    funext n k
    exact h n k
  rw [locate, locate, hchild]

def Injective (a : Arena κ α β) : Prop :=
  ∀ p q n, a.locate p = some n → a.locate q = some n → p = q

theorem locate_relink [DecidableEq κ] (hinj : a.Injective) (hp : a.locate p = some n) {child}
    (hchild : ∀ n' j, a'.child n' j = if n' = n ∧ j = k then child else a.child n' j)
    (hold : ∀ m, a.child n k = some m → ∀ j, a.child m j = none)
    (hnew : ∀ m, child = some m → ∀ j, a'.child m j = none) (q : List κ) :
    a'.locate q = if q = p ++ [k] then child else a.locate q := by
  induction q using List.reverseRecOn with
  | nil => simp
  | append_singleton q j ih =>
    rw [locate_concat, ih, locate_concat]
    by_cases hq : q = p ++ [k]
    · -- beyond the edge there was nothing, and there is nothing
      subst hq
      rw [if_pos rfl, if_neg (by simp), locate_concat, hp, bind_some]
      have hl : child.bind (fun m => a'.child m j) = none :=
        bind_eq_none_iff.2 fun m hm => hnew m hm j
      have hr := bind_eq_none_iff.2 fun m hm => hold m hm j
      rw [hl, hr]
    · rw [if_neg hq]
      cases hm : a.locate q with
      | none =>
        have hne : q ++ [j] ≠ p ++ [k] := by
          intro heq
          obtain ⟨rfl, -⟩ := append_inj' heq rfl
          rw [hp] at hm
          cases hm
        rw [if_neg hne]
        rfl
      | some n' =>
        rw [bind_some, bind_some, hchild]
        have hiff : (n' = n ∧ j = k) ↔ q ++ [j] = p ++ [k] := by
          constructor
          · rintro ⟨rfl, rfl⟩
            rw [hinj q p n' hm hp]
          · intro heq
            obtain ⟨rfl, hj⟩ := append_inj' heq rfl
            rw [hp, Option.some.injEq] at hm
            exact ⟨hm.symm, singleton_inj.1 hj⟩
        simp only [hiff]

end Paths

/-! ## The invariant -/

/-- Every number below the length of the vector is that of a node at one path, or it is
free, and a free node is empty. -/
structure Sound [TransOrd κ] (a : Arena κ α β) : Prop where
  injective : a.Injective
  bound : ∀ p n, a.locate p = some n → n < a.cells.length
  freeBound : ∀ n ∈ a.free, n < a.cells.length
  freeNodup : a.free.Nodup
  dead : ∀ n ∈ a.free, ∀ p, a.locate p ≠ some n
  blank : ∀ n ∈ a.free, a.cell n = {}
  covered : ∀ n, n < a.cells.length → n ∉ a.free → ∃ p, a.locate p = some n

section Invariant

variable [TransOrd κ] {a a' : Arena κ α β} {p q : List κ} {k : κ} {n m : Nat}

theorem child_empty (n : Nat) (k : κ) : ({} : Arena κ α β).child n k = none := by
  cases n <;> simp [child, cell]

theorem locate_empty : ∀ p, p ≠ [] → ({} : Arena κ α β).locate p = none := by
  intro p hp
  induction p using List.reverseRecOn with
  | nil => exact absurd rfl hp
  | append_singleton p k _ =>
    rw [locate_concat]
    exact bind_eq_none_iff.2 fun n _ => child_empty n k

theorem sound_empty : ({} : Arena κ α β).Sound := by
  have hroot : ∀ p n, ({} : Arena κ α β).locate p = some n → p = [] ∧ n = 0 := by
    intro p n h
    by_cases hp : p = []
    · subst hp
      exact ⟨rfl, (Option.some.inj h).symm⟩
    · rw [locate_empty p hp] at h
      cases h
  refine ⟨?_, ?_, nofun, .nil, nofun, nofun, ?_⟩
  · intro p q n hp hq
    rw [(hroot p n hp).1, (hroot q n hq).1]
  · intro p n hp
    rw [(hroot p n hp).2]
    exact Nat.one_pos
  · intro n hn _
    obtain rfl : n = 0 := Nat.lt_one_iff.1 hn
    exact ⟨[], rfl⟩

namespace Sound

theorem ne_child (h : a.Sound) (hp : a.locate p = some m) (hk : a.child m k = some n) : m ≠ n := by
  rintro rfl
  have hpk : a.locate (p ++ [k]) = some m := by rw [locate_concat, hp, bind_some, hk]
  exact absurd (congrArg List.length (h.injective _ _ m hp hpk)) (by simp)

theorem fresh (h : a.Sound) : (∀ p, a.locate p ≠ some a.fresh) ∧ a.cell a.fresh = {} ∧
      a.fresh < a.allocate.cells.length ∧ a.fresh ∉ a.allocate.free ∧
      (∀ n, n ∈ a.allocate.free ↔ n ∈ a.free ∧ n ≠ a.fresh) ∧
      (∀ n, n < a.allocate.cells.length ↔ n < a.cells.length ∨ n = a.fresh) := by
  cases hf : a.free with
  | nil =>
    have hfresh : a.fresh = a.cells.length := by rw [Arena.fresh, hf]; rfl
    have halloc : a.allocate = { a with cells := a.cells ++ [{}] } := by rw [allocate, hf]
    rw [hfresh, halloc]
    refine ⟨fun p hp => Nat.lt_irrefl _ (h.bound p _ hp), by simp [cell], by simp,
      by simp [hf], by simp [hf], fun n => ?_⟩
    simp only [length_append, length_singleton]
    omega
  | cons m free =>
    have hfresh : a.fresh = m := by rw [Arena.fresh, hf]; rfl
    have halloc : a.allocate = { a with free := free } := by rw [allocate, hf]
    have hm : m ∈ a.free := by simp [hf]
    have hnodup := h.freeNodup
    rw [hf, nodup_cons] at hnodup
    rw [hfresh, halloc]
    refine ⟨h.dead m hm, h.blank m hm, h.freeBound m hm, hnodup.1, fun n => ?_, fun n => ?_⟩
    · constructor
      · exact fun hn => ⟨mem_cons_of_mem _ hn, fun heq => hnodup.1 (heq ▸ hn)⟩
      · rintro ⟨hn, hne⟩
        exact (mem_cons.1 hn).resolve_left hne
    · constructor
      · exact .inl
      · rintro (hn | rfl)
        · exact hn
        · exact h.freeBound n hm

end Sound

section

variable (hn : n < a.cells.length)
include hn

theorem entries_link (k : κ) (m n' : Nat) :
    ((a.link n k m).cell n').entries = (a.cell n').entries := by
  rw [link, cell_setCell hn]
  split
  · rename_i h
    rw [h]
  · rfl

theorem entries_unlink (k : κ) (n' : Nat) :
    ((a.unlink n k).cell n').entries = (a.cell n').entries := by
  rw [unlink, cell_setCell hn]
  split
  · rename_i h
    rw [h]
  · rfl

theorem child_setEntries (entries : ExtTreeMap α β) (n' : Nat) (k : κ) :
    (a.setEntries n entries).child n' k = a.child n' k := by
  rw [child, setEntries, cell_setCell hn]
  split
  · rename_i h
    rw [← h]
    rfl
  · rfl

theorem locate_setEntries (entries : ExtTreeMap α β) (q : List κ) :
    (a.setEntries n entries).locate q = a.locate q :=
  locate_congr (child_setEntries hn entries) q

end

theorem Sound.setEntries (h : a.Sound) (hp : a.locate p = some n) (entries : ExtTreeMap α β) :
    (a.setEntries n entries).Sound := by
  have hn := h.bound p n hp
  have hlocate := locate_setEntries hn entries
  have hlength : (a.setEntries n entries).cells.length = a.cells.length := by
    simp [Arena.setEntries]
  refine ⟨?_, ?_, ?_, h.freeNodup, ?_, ?_, ?_⟩
  · intro q q' m
    rw [hlocate, hlocate]
    exact h.injective q q' m
  · intro q m
    rw [hlocate, hlength]
    exact h.bound q m
  · intro m hm
    rw [hlength]
    exact h.freeBound m hm
  · intro m hm q
    rw [hlocate]
    exact h.dead m hm q
  · intro m hm
    have hne : n ≠ m := fun heq => h.dead m hm p (heq ▸ hp)
    rw [Arena.setEntries, cell_setCell hn, if_neg hne]
    exact h.blank m hm
  · intro m hm hfree
    rw [hlength] at hm
    obtain ⟨q, hq⟩ := h.covered m hm hfree
    exact ⟨q, by rw [hlocate, hq]⟩

end Invariant

/-! ## Insertion -/

section Insertion

variable [TransOrd κ] [LawfulEqOrd κ] [DecidableEq κ] {a : Arena κ α β} {p : List κ} {k : κ}
  {n : Nat}

theorem child_link (hn : n < a.cells.length) (k : κ) (m n' : Nat) (j : κ) :
    (a.link n k m).child n' j = if n' = n ∧ j = k then some m else a.child n' j := by
  rw [child, link, cell_setCell hn]
  by_cases hn' : n = n'
  · subst hn'
    simp [child, eq_comm]
  · simp [child, hn', Ne.symm hn']

theorem child_unlink (hn : n < a.cells.length) (k : κ) (n' : Nat) (j : κ) :
    (a.unlink n k).child n' j = if n' = n ∧ j = k then none else a.child n' j := by
  rw [child, unlink, cell_setCell hn]
  by_cases hn' : n = n'
  · subst hn'
    simp [child, eq_comm]
  · simp [child, hn', Ne.symm hn']

theorem locate_link_fresh (h : a.Sound) (hp : a.locate p = some n) (hk : a.child n k = none)
    (q : List κ) : (a.allocate.link n k a.fresh).locate q =
      if q = p ++ [k] then some a.fresh else a.locate q := by
  obtain ⟨hdead, hblank, -, -, -, hsize⟩ := h.fresh
  have hn : n < a.allocate.cells.length := (hsize n).2 (.inl (h.bound p n hp))
  have hne : a.fresh ≠ n := fun heq => hdead p (by rw [hp, heq])
  have hchild : ∀ n' j, (a.allocate.link n k a.fresh).child n' j =
      if n' = n ∧ j = k then some a.fresh else a.child n' j := by
    intro n' j
    rw [child_link hn, child, cell_allocate]
    rfl
  refine locate_relink h.injective hp hchild (fun m hm => by rw [hk] at hm; cases hm) ?_ q
  intro m hm j
  cases hm
  rw [hchild, if_neg fun hc => hne hc.1, child, hblank]
  simp

theorem Sound.link_fresh (h : a.Sound) (hp : a.locate p = some n) (hk : a.child n k = none) :
    (a.allocate.link n k a.fresh).Sound := by
  obtain ⟨hdead, -, hlt, hnot, hfree, hsize⟩ := h.fresh
  have hn : n < a.allocate.cells.length := (hsize n).2 (.inl (h.bound p n hp))
  have hlocate := locate_link_fresh h hp hk
  have hlength : (a.allocate.link n k a.fresh).cells.length = a.allocate.cells.length := by
    simp [link]
  have hcases : ∀ q m, (a.allocate.link n k a.fresh).locate q = some m →
      (q = p ++ [k] ∧ m = a.fresh) ∨ a.locate q = some m := by
    intro q m hq
    rw [hlocate] at hq
    split at hq
    · rename_i heq
      exact .inl ⟨heq, (Option.some.inj hq).symm⟩
    · exact .inr hq
  refine ⟨?_, ?_, ?_, ?_, ?_, ?_, ?_⟩
  · intro q q' m hq hq'
    rcases hcases q m hq with ⟨h1, h2⟩ | h1
    · rcases hcases q' m hq' with ⟨h3, -⟩ | h3
      · rw [h1, h3]
      · exact absurd (h2 ▸ h3) (hdead q')
    · rcases hcases q' m hq' with ⟨-, h4⟩ | h3
      · exact absurd (h4 ▸ h1) (hdead q)
      · exact h.injective q q' m h1 h3
  · intro q m hq
    rw [hlength]
    rcases hcases q m hq with ⟨-, rfl⟩ | h1
    · exact hlt
    · exact (hsize m).2 (.inl (h.bound q m h1))
  · intro m hm
    rw [hlength]
    exact (hsize m).2 (.inl (h.freeBound m ((hfree m).1 hm).1))
  · show a.allocate.free.Nodup
    rw [allocate]
    have hnodup := h.freeNodup
    cases hf : a.free with
    | nil => simp
    | cons m free =>
      rw [hf] at hnodup
      exact (nodup_cons.1 hnodup).2
  · intro m hm q hq
    obtain ⟨hm', hne⟩ := (hfree m).1 hm
    rcases hcases q m hq with ⟨-, h2⟩ | h1
    · exact hne h2
    · exact h.dead m hm' q h1
  · intro m hm
    obtain ⟨hm', -⟩ := (hfree m).1 hm
    have hne : n ≠ m := fun heq => h.dead m hm' p (heq ▸ hp)
    rw [link, cell_setCell hn, if_neg hne, cell_allocate]
    exact h.blank m hm'
  · intro m hm hnfree
    rw [hlength] at hm
    by_cases hfr : m = a.fresh
    · exact ⟨p ++ [k], by rw [hlocate, if_pos rfl, hfr]⟩
    have hm' : m < a.cells.length := ((hsize m).1 hm).resolve_right hfr
    obtain ⟨q, hq⟩ := h.covered m hm' fun hmem => hnfree ((hfree m).2 ⟨hmem, hfr⟩)
    have hne : q ≠ p ++ [k] := by
      intro heq
      rw [heq, locate_concat, hp, bind_some, hk] at hq
      cases hq
    exact ⟨q, by rw [hlocate, if_neg hne, hq]⟩

variable [TransOrd α]

theorem Sound.enter (h : a.Sound) (hp : a.locate p = some n) (k : κ) :
    (a.enter n k).1.Sound ∧ (a.enter n k).1.locate (p ++ [k]) = some (a.enter n k).2 ∧
      ∀ q key, (a.enter n k).1.get q key = a.get q key := by
  rw [Arena.enter]
  cases hk : a.child n k with
  | some m =>
    refine ⟨h, ?_, fun _ _ => rfl⟩
    rw [locate_concat, hp, bind_some, hk]
  | none =>
    obtain ⟨hdead, hblank, -, -, -, hsize⟩ := h.fresh
    have hn : n < a.allocate.cells.length := (hsize n).2 (.inl (h.bound p n hp))
    have hlocate := locate_link_fresh h hp hk
    refine ⟨h.link_fresh hp hk, by rw [hlocate, if_pos rfl], fun q key => ?_⟩
    rw [get, get, hlocate]
    simp only [entries_link hn, cell_allocate]
    by_cases hq : q = p ++ [k]
    · rw [if_pos hq, hq, locate_concat, hp, bind_some, bind_some, hblank, hk]
      simp
    · rw [if_neg hq]

theorem Sound.descend : ∀ (ks : List κ) {a : Arena κ α β} {p n}, a.Sound → a.locate p = some n →
      (a.descend n ks).1.Sound ∧ (a.descend n ks).1.locate (p ++ ks) = some (a.descend n ks).2 ∧
        ∀ q key, (a.descend n ks).1.get q key = a.get q key
  | [], a, p, n, h, hp => ⟨h, by rw [append_nil]; exact hp, fun _ _ => rfl⟩
  | k :: ks, a, p, n, h, hp => by
    obtain ⟨h1, hp1, hget1⟩ := h.enter hp k
    obtain ⟨h2, hp2, hget2⟩ := Sound.descend ks h1 hp1
    rw [Arena.descend]
    refine ⟨h2, ?_, fun q key => (hget2 q key).trans (hget1 q key)⟩
    rw [← hp2, append_assoc]
    rfl

omit [LawfulEqOrd κ] in
theorem get_setEntries (h : a.Sound) (hp : a.locate p = some n) (entries : ExtTreeMap α β)
    (q : List κ) (key : α) :
    (a.setEntries n entries).get q key = if q = p then entries[key]? else a.get q key := by
  have hn := h.bound p n hp
  rw [get, locate_setEntries hn, get]
  split_ifs with hq
  · rw [hq, hp, bind_some, setEntries, cell_setCell hn, if_pos rfl]
  · cases hm : a.locate q with
    | none => rfl
    | some m =>
      have hne : n ≠ m := fun heq => hq (h.injective q p n (heq ▸ hm) hp)
      rw [bind_some, bind_some, setEntries, cell_setCell hn, if_neg hne]

/-- An insertion keeps the representation sound. -/
theorem Sound.insert (h : a.Sound) (p : List κ) (key : α) (e : β) : (a.insert p key e).Sound := by
  obtain ⟨h1, hp1, -⟩ := Sound.descend p h (locate_nil a)
  exact h1.setEntries hp1 _

/-- What an insertion does to `get`. -/
theorem get_insert [LawfulEqOrd α] [DecidableEq α] (h : a.Sound) (p : List κ) (key : α) (e : β)
    (q : List κ) (key' : α) :
    (a.insert p key e).get q key' = if q = p ∧ key' = key then some e else a.get q key' := by
  obtain ⟨h1, hp1, hget⟩ := Sound.descend p h (locate_nil a)
  rw [nil_append] at hp1
  rw [insert, get_setEntries h1 hp1, Maps.get_insert, ← hget q key']
  by_cases hq : q = p
  · subst hq
    rw [if_pos rfl, get, hp1, bind_some]
    simp [eq_comm]
  · rw [if_neg hq, if_neg fun hc => hq hc.1]

end Insertion

end Arena
