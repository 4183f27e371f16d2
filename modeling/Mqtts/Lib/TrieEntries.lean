import Mathlib.Algebra.BigOperators.Group.List.Basic
import Mathlib.Data.List.Nodup
import Mqtts.Lib.Trie

/-!
# The entries of a trie

`set` and `eraseAt` keep a trie tidy, and the entries of a tidy trie are what `find` reads.
-/

open List Assoc

namespace Trie

variable {κ ν : Type}

mutual

/-- The values of a trie with their paths. -/
def entries : Trie κ ν → List (List κ × ν)
  | node v cs => (v.toList.map fun w => ([], w)) ++ entriesOf cs

def entriesOf : List (κ × Trie κ ν) → List (List κ × ν)
  | [] => []
  | (k, c) :: cs => (c.entries.map fun e => (k :: e.1, e.2)) ++ entriesOf cs

end

mutual

/-- The children of every node have different keys and each of them holds a value or leads to one.
-/
def Tidy : Trie κ ν → Prop
  | node _ cs => (cs.map Prod.fst).Nodup ∧ TidyAll cs

def TidyAll : List (κ × Trie κ ν) → Prop
  | [] => True
  | (_, c) :: cs => c.bare = false ∧ c.Tidy ∧ TidyAll cs

end

variable {cs : List (κ × Trie κ ν)}

theorem tidyAll_iff : TidyAll cs ↔ ∀ e ∈ cs, e.2.bare = false ∧ e.2.Tidy := by
  induction cs with
  | nil => simp [TidyAll]
  | cons e cs ih =>
    obtain ⟨k, c⟩ := e
    rw [TidyAll, ih, forall_mem_cons, and_assoc]

theorem tidy_iff {t : Trie κ ν} : t.Tidy ↔ (t.children.map Prod.fst).Nodup ∧
      ∀ e ∈ t.children, e.2.bare = false ∧ e.2.Tidy := by
  obtain ⟨v, cs⟩ := t
  rw [Tidy, tidyAll_iff]
  rfl

theorem tidy_empty : (empty : Trie κ ν).Tidy := by
  rw [tidy_iff]
  exact ⟨nodup_nil, fun e he => by cases he⟩

theorem mem_entriesOf {e} :
    e ∈ entriesOf cs ↔ ∃ k c p, (k, c) ∈ cs ∧ (p, e.2) ∈ c.entries ∧ e.1 = k :: p := by
  induction cs with
  | nil => simp [entriesOf]
  | cons x cs ih =>
    obtain ⟨k, c⟩ := x
    rw [entriesOf, mem_append, ih, mem_map]
    constructor
    · rintro (⟨e', he', rfl⟩ | ⟨k', c', p, hmem, hp, heq⟩)
      · exact ⟨k, c, e'.1, mem_cons_self, he', rfl⟩
      · exact ⟨k', c', p, mem_cons_of_mem _ hmem, hp, heq⟩
    · rintro ⟨k', c', p, hmem, hp, heq⟩
      rcases mem_cons.1 hmem with hhead | htail
      · cases hhead
        exact .inl ⟨(p, e.2), hp, Prod.ext heq.symm rfl⟩
      · exact .inr ⟨k', c', p, htail, hp, heq⟩

theorem nodup_entriesOf (hkeys : (cs.map Prod.fst).Nodup)
    (hcs : ∀ e ∈ cs, (e.2.entries.map Prod.fst).Nodup) : ((entriesOf cs).map Prod.fst).Nodup := by
  induction cs with
  | nil => exact nodup_nil
  | cons x cs ih =>
    obtain ⟨k, c⟩ := x
    rw [map_cons, nodup_cons] at hkeys
    obtain ⟨hhead, htail⟩ := forall_mem_cons.1 hcs
    have hmap : (c.entries.map fun e => (k :: e.1, e.2)).map Prod.fst =
        (c.entries.map Prod.fst).map (fun p => k :: p) := by
      rw [map_map, map_map]
      rfl
    rw [entriesOf, map_append, nodup_append, hmap]
    refine ⟨List.Nodup.map (fun p q h => (List.cons.inj h).2) hhead, ih hkeys.2 htail, ?_⟩
    intro p hp q hq heq
    obtain ⟨p', -, rfl⟩ := mem_map.1 hp
    obtain ⟨e, he, rfl⟩ := mem_map.1 hq
    obtain ⟨k', c', q', hmem, -, hpath⟩ := mem_entriesOf.1 he
    rw [hpath] at heq
    have hkey : k = k' := (List.cons.inj heq).1
    exact hkeys.1 (mem_map.2 ⟨(k', c'), hmem, hkey.symm⟩)

mutual

/-- each path once. -/
theorem nodup_entries : ∀ (t : Trie κ ν), t.Tidy → (t.entries.map Prod.fst).Nodup
  | node v cs, h => by
    obtain ⟨hkeys, hcs⟩ := tidy_iff.1 h
    rw [entries, map_append, nodup_append]
    refine ⟨?_, nodup_entriesOf hkeys (nodup_entriesAll cs fun e he => (hcs e he).2), ?_⟩
    · cases v <;> simp
    · intro p hp q hq heq
      obtain ⟨e, he, rfl⟩ := mem_map.1 hq
      obtain ⟨k, c, q', -, -, hpath⟩ := mem_entriesOf.1 he
      obtain ⟨e', he', rfl⟩ := mem_map.1 hp
      obtain ⟨w, -, rfl⟩ := mem_map.1 he'
      rw [hpath] at heq
      cases heq

theorem nodup_entriesAll : ∀ (cs : List (κ × Trie κ ν)), (∀ e ∈ cs, e.2.Tidy) →
    ∀ e ∈ cs, (e.2.entries.map Prod.fst).Nodup
  | [], _, e, he => absurd he not_mem_nil
  | (_, c) :: cs, h, e, he => by
    obtain ⟨hhead, htail⟩ := forall_mem_cons.1 h
    rcases mem_cons.1 he with rfl | hmem
    · exact nodup_entries c hhead
    · exact nodup_entriesAll cs htail e hmem

end

section

variable [BEq κ] [LawfulBEq κ] {t : Trie κ ν} {p : List κ}

theorem child_eq_some {c} {k : κ} (h : t.Tidy) : t.child k = some c ↔ (k, c) ∈ t.children :=
  ⟨mem_of_lookup, lookup_of_mem (tidy_iff.1 h).1⟩

theorem Tidy.child {c} {k : κ} (h : t.Tidy) (hc : t.child k = some c) : c.bare = false ∧ c.Tidy :=
  (tidy_iff.1 h).2 _ ((child_eq_some h).1 hc)

/-- The entries of a tidy trie are what `find` reads, -/
theorem mem_entries {v} (h : t.Tidy) : (p, v) ∈ t.entries ↔ t.find p = some v := by
  induction p generalizing t with
  | nil =>
    obtain ⟨w, cs⟩ := t
    rw [entries, mem_append, mem_entriesOf, find_nil, value_node]
    constructor
    · rintro (hmem | ⟨k, c, p, -, -, heq⟩)
      · cases w with
        | none => cases hmem
        | some w =>
          obtain rfl : v = w := (Prod.mk.inj (mem_singleton.1 hmem)).2
          rfl
      · cases heq
    · rintro rfl
      exact .inl (mem_singleton.2 rfl)
  | cons k p ih =>
    obtain ⟨w, cs⟩ := t
    rw [entries, mem_append, mem_entriesOf, find_cons]
    constructor
    · rintro (hmem | ⟨k', c, p', hin, hp, heq⟩)
      · cases w with
        | none => cases hmem
        | some w => cases (Prod.mk.inj (mem_singleton.1 hmem)).1
      · obtain ⟨rfl, rfl⟩ := List.cons.inj heq
        have hc := (child_eq_some h).2 hin
        rw [hc, Option.bind_some]
        exact (ih (h.child hc).2).1 hp
    · intro hfind
      obtain ⟨c, hc, hp⟩ := Option.bind_eq_some_iff.1 hfind
      exact .inr ⟨k, c, p, (child_eq_some h).1 hc, (ih (h.child hc).2).2 hp, rfl⟩

/-! ## Updates -/

omit [LawfulBEq κ] in
theorem bare_set (v : ν) (p : List κ) (t : Trie κ ν) : (t.set v p).bare = false := by
  cases p with
  | nil => simp [set, bare]
  | cons k p =>
    rw [set, bare, children_node]
    cases t.children with
    | nil => simp [assocSet]
    | cons e cs =>
      obtain ⟨k', c⟩ := e
      rw [assocSet]
      split <;> simp

theorem tidy_set {v : ν} (h : t.Tidy) : (t.set v p).Tidy := by
  induction p generalizing t with
  | nil =>
    rw [set, tidy_iff, children_node]
    exact tidy_iff.1 h
  | cons k p ih =>
    have hchild : ((t.child k).getD empty).Tidy := by
      cases hc : t.child k with
      | none => exact tidy_empty
      | some c => exact (h.child hc).2
    obtain ⟨hkeys, hcs⟩ := tidy_iff.1 h
    rw [set, tidy_iff, children_node]
    refine ⟨nodup_keys_assocSet hkeys, ?_⟩
    intro e he
    rcases mem_assocSet he with rfl | hold
    · exact ⟨bare_set v p _, ih hchild⟩
    · exact hcs e hold

theorem tidy_eraseAt {v : ν} {t'} (h : t.Tidy) (herase : t.eraseAt p = some (v, t')) : t'.Tidy := by
  induction p generalizing t t' with
  | nil =>
    rw [eraseAt] at herase
    obtain ⟨w, -, heq⟩ := Option.map_eq_some_iff.1 herase
    obtain ⟨-, rfl⟩ := Prod.mk.inj heq
    rw [tidy_iff, children_node]
    exact tidy_iff.1 h
  | cons k p ih =>
    rw [eraseAt] at herase
    cases hc : t.child k with
    | none =>
      rw [hc] at herase
      cases herase
    | some c =>
      rw [hc] at herase
      cases he : c.eraseAt p with
      | none =>
        simp only [he] at herase
        cases herase
      | some r =>
        simp only [he, Option.some.injEq, Prod.mk.injEq] at herase
        obtain ⟨rfl, rfl⟩ := herase
        have hrest : r.2.Tidy := ih (h.child hc).2 he
        obtain ⟨hkeys, hcs⟩ := tidy_iff.1 h
        rw [tidy_iff, children_node]
        split_ifs with hbare
        · have hsub : (assocErase k t.children).Sublist t.children := filter_sublist
          exact ⟨hkeys.sublist (hsub.map _), fun e hmem => hcs e (hsub.mem hmem)⟩
        · refine ⟨nodup_keys_assocSet hkeys, ?_⟩
          intro e hmem
          rcases mem_assocSet hmem with rfl | hold
          · exact ⟨Bool.eq_false_iff.2 hbare, hrest⟩
          · exact hcs e hold

/-! ## Totals -/

end

/-- The sum of a measure over the values. -/
def total (f : ν → Nat) (t : Trie κ ν) : Nat := (t.entries.map fun e => f e.2).sum

theorem total_eq_of_perm {f : ν → Nat} {t : Trie κ ν} {l}
    (h : t.entries.Perm l) : t.total f = (l.map fun e => f e.2).sum :=
  (h.map _).sum_eq

section

variable [BEq κ] [LawfulBEq κ] {f : ν → Nat} {p : List κ} {t : Trie κ ν}

theorem total_of_more {v} {t' : Trie κ ν} (h : t.Tidy) (h' : t'.Tidy) (hp : t.find p = some v)
    (hp' : t'.find p = none) (hother : ∀ q, q ≠ p → t'.find q = t.find q) :
    t.total f = t'.total f + f v := by
  have hperm : t.entries.Perm ((p, v) :: t'.entries) := by
    have hnot : (p, v) ∉ t'.entries := by
      intro hmem
      rw [mem_entries h', hp'] at hmem
      cases hmem
    refine (perm_ext_iff_of_nodup (nodup_entries t h).of_map
      (nodup_cons.2 ⟨hnot, (nodup_entries t' h').of_map⟩)).2 ?_
    rintro ⟨q, w⟩
    rw [mem_cons, mem_entries h, mem_entries h']
    by_cases hq : q = p
    · subst hq
      rw [hp, hp']
      simp [eq_comm]
    · rw [hother q hq]
      simp [hq]
  rw [total_eq_of_perm hperm, map_cons, sum_cons, Nat.add_comm]
  rfl

theorem total_eraseAt {v} {t' : Trie κ ν} (h : t.Tidy) (herase : t.eraseAt p = some (v, t')) :
    t.total f = t'.total f + f v := by
  obtain ⟨hp, hp', hother⟩ := find_eraseAt herase
  exact total_of_more h (tidy_eraseAt h herase) hp hp' hother

theorem le_total (h : t.Tidy) : ((t.find p).map f).getD 0 ≤ t.total f := by
  cases hp : t.find p with
  | none => exact Nat.zero_le _
  | some v =>
    cases he : t.eraseAt p with
    | none =>
      rw [(eraseAt_eq_none p t).1 he] at hp
      cases hp
    | some r =>
      obtain ⟨hp', -, -⟩ := find_eraseAt he
      cases hp.symm.trans hp'
      rw [total_eraseAt h he]
      exact Nat.le_add_left ..

/-- An update moves the sum by what it writes and takes away. -/
theorem total_set {v : ν} (h : t.Tidy) :
    (t.set v p).total f + ((t.find p).map f).getD 0 = t.total f + f v := by
  have hset := find_set_self v p t
  have hother : ∀ q, q ≠ p → (t.set v p).find q = t.find q := fun q hq => find_set_of_ne v t hq
  cases hp : t.find p with
  | none =>
    rw [total_of_more (tidy_set h) h hset hp fun q hq => (hother q hq).symm]
    rfl
  | some w =>
    -- Compare both with the trie without the value.
    cases he : t.eraseAt p with
    | none =>
      rw [(eraseAt_eq_none p t).1 he] at hp
      cases hp
    | some r =>
      obtain ⟨w', t'⟩ := r
      obtain ⟨hp', hnone, hrest⟩ := find_eraseAt he
      cases hp.symm.trans hp'
      have htidy := tidy_eraseAt h he
      rw [total_of_more h htidy hp hnone hrest, total_of_more (tidy_set h) htidy hset hnone
          (fun q hq => (hrest q hq).trans (hother q hq).symm)]
      show _ + f w = _
      omega

end

end Trie
