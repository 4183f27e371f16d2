import Mqtts.Lib.SortUnique

/-!
# The smallest elements of a sequence

A bounded heap keeps the `n` smallest elements it was offered, with the largest of them on top.
-/

namespace Smallest

open List SortUnique

variable {α κ : Type} [LinearOrder κ] (key : α → κ)

def push (x : α) : List α → List α
  | [] => [x]
  | y :: heap => if key x < key y then y :: push x heap else x :: y :: heap

structure Pick (α : Type) where
  best : List α := []
  truncated : Bool := false

/-- One more element goes in as long as there is room, and afterwards replaces the top if it is
smaller; the flag says that an element was left out. -/
def offer (limit : Nat) (pick : Pick α) (x : α) : Pick α :=
  if limit = 0 then { pick with truncated := true }
  else if pick.best.length < limit then { pick with best := push key x pick.best }
  else
    match pick.best with
    | [] => { pick with truncated := true }
    | top :: rest =>
      if key x < key top then { best := push key x rest, truncated := true }
      else { pick with truncated := true }

def offerAll (limit : Nat) (xs : List α) : Pick α := xs.foldl (offer key limit) {}

theorem push_perm (x : α) (heap : List α) : (push key x heap).Perm (x :: heap) := by
  induction heap with
  | nil => exact List.Perm.refl _
  | cons y heap ih =>
    rw [push]
    split
    · exact (ih.cons y).trans (List.Perm.swap x y heap)
    · exact List.Perm.refl _

variable {key}

theorem sorted_push {x heap} (h : heap.Pairwise fun a b => key b < key a)
    (hx : ∀ y ∈ heap, key y ≠ key x) : (push key x heap).Pairwise (fun a b => key b < key a) := by
  induction heap with
  | nil => exact pairwise_singleton _ _
  | cons y heap ih =>
    obtain ⟨hy, hheap⟩ := pairwise_cons.1 h
    obtain ⟨hxy, hrest⟩ := forall_mem_cons.1 hx
    rw [push]
    split
    · rename_i hlt
      refine pairwise_cons.2 ⟨?_, ih hheap hrest⟩
      intro z hz
      rcases mem_cons.1 ((push_perm key x heap).mem_iff.1 hz) with rfl | hmem
      · exact hlt
      · exact hy z hmem
    · rename_i hle
      have hlt : key y < key x := lt_of_le_of_ne (not_lt.1 hle) hxy
      refine pairwise_cons.2 ⟨?_, h⟩
      intro z hz
      rcases mem_cons.1 hz with rfl | hmem
      · exact hlt
      · exact (hy z hmem).trans hlt

structure Selected (key : α → κ) (limit : Nat) (xs : List α) (pick : Pick α) : Prop where
  sorted : pick.best.Pairwise fun a b => key b < key a
  length_le : pick.best.length ≤ limit
  others : ∃ rest, xs.Perm (pick.best ++ rest) ∧ (∀ x ∈ rest, ∀ y ∈ pick.best, key y < key x) ∧
    (rest ≠ [] → pick.best.length = limit) ∧ (pick.truncated ↔ rest ≠ [])

variable {limit : Nat} {xs : List α} {pick : Pick α}

theorem Selected.offer {x} (h : Selected key limit xs pick) (hx : ∀ y ∈ xs, key y ≠ key x) :
    Selected key limit (xs ++ [x]) (offer key limit pick x) := by
  obtain ⟨hsorted, hle, rest, hperm, hlarger, hfull, htruncated⟩ := h
  have hbest : ∀ y ∈ pick.best, key y ≠ key x := by
    intro y hy
    exact hx y (hperm.mem_iff.2 (mem_append_left _ hy))
  have hxs : (xs ++ [x]).Perm (pick.best ++ x :: rest) :=
    (perm_append_singleton x xs).trans
      ((hperm.cons x).trans perm_middle.symm)
  -- An element that is left out of a full heap.
  have hout : (∀ y ∈ pick.best, key y < key x) → pick.best.length = limit →
      Selected key limit (xs ++ [x]) { pick with truncated := true } := by
    intro hsmaller hlength
    refine ⟨hsorted, hle, x :: rest, hxs, ?_, fun _ => hlength, ?_⟩
    · exact forall_mem_cons.2 ⟨hsmaller, hlarger⟩
    · exact ⟨fun _ => cons_ne_nil _ _, fun _ => rfl⟩
  rw [Smallest.offer]
  split
  · rename_i hzero
    have hnil : pick.best = [] := length_eq_zero_iff.1 (by omega)
    refine hout ?_ (by rw [hnil, hzero]; rfl)
    rw [hnil]
    exact fun y hy => absurd hy not_mem_nil
  split
  · rename_i hroom
    have hnone : rest = [] := by
      by_contra hne
      have := hfull hne
      omega
    subst hnone
    have hpush := push_perm key x pick.best
    refine ⟨sorted_push hsorted hbest, ?_, [], ?_, ?_, ?_, htruncated⟩
    · rw [hpush.length_eq, length_cons]
      omega
    · rw [append_nil]
      exact hxs.trans (perm_middle.trans ((append_nil _ ▸ hpush.symm)))
    · exact fun z hz => absurd hz not_mem_nil
    · exact fun hne => absurd rfl hne
  · rename_i hzero hroom
    have hlength : pick.best.length = limit := by omega
    cases hcases : pick.best with
    | nil =>
      rw [hcases] at hlength
      exact absurd hlength.symm hzero
    | cons top tail =>
      rw [hcases] at hsorted hbest hlength hlarger hxs
      obtain ⟨htop, htail⟩ := pairwise_cons.1 hsorted
      obtain ⟨hxtop, hxtail⟩ := forall_mem_cons.1 hbest
      simp only
      split
      · rename_i hlt
        -- The top makes room, and is larger than everything that stays.
        have hpush := push_perm key x tail
        refine ⟨sorted_push htail hxtail, ?_, top :: rest, ?_, ?_, ?_, ?_⟩
        · rw [hpush.length_eq]
          exact Nat.le_of_eq hlength
        · have hswap := (@List.perm_middle _ x (top :: tail) rest).trans
              ((List.Perm.swap top x _).trans (@List.perm_middle _ top (x :: tail) rest).symm)
          exact hxs.trans (hswap.trans (hpush.symm.append_right _))
        · intro z hz y hy
          have hyz : key y < key top := by
            rcases mem_cons.1 (hpush.mem_iff.1 hy) with rfl | hmem
            · exact hlt
            · exact htop y hmem
          rcases mem_cons.1 hz with rfl | hmem
          · exact hyz
          · exact hyz.trans (hlarger z hmem top mem_cons_self)
        · intro _
          rw [hpush.length_eq]
          exact hlength
        · exact ⟨fun _ => cons_ne_nil _ _, fun _ => rfl⟩
      · rename_i hge
        have hlt : key top < key x := lt_of_le_of_ne (not_lt.1 hge) hxtop
        rw [← hcases]
        refine hout ?_ (hcases ▸ hlength)
        intro y hy
        rw [hcases] at hy
        rcases mem_cons.1 hy with rfl | hmem
        · exact hlt
        · exact (htop y hmem).trans hlt

theorem selected_nil (limit : Nat) : Selected key limit [] {} where
  sorted := List.Pairwise.nil
  length_le := Nat.zero_le _
  others := by
    refine ⟨[], List.Perm.refl _, fun x hx => absurd hx not_mem_nil, fun hne => absurd rfl hne, ?_⟩
    exact ⟨fun h => (by cases h), fun hne => absurd rfl hne⟩

/-- What the heap holds after a sequence of elements with different keys, -/
theorem selected_offerAll (limit : Nat) (xs : List α) (hxs : (xs.map key).Nodup) :
    Selected key limit xs (offerAll key limit xs) := by
  rw [offerAll]
  induction xs using List.reverseRecOn with
  | nil => exact selected_nil limit
  | append_singleton xs x ih =>
    rw [map_append, nodup_append] at hxs
    obtain ⟨hnodup, -, hdisjoint⟩ := hxs
    rw [foldl_append]
    refine (ih hnodup).offer ?_
    intro y hy
    exact hdisjoint (key y) (mem_map.2 ⟨y, hy, rfl⟩) (key x)
      (mem_map.2 ⟨x, mem_singleton.2 rfl, rfl⟩)

/-- which is the beginning of the sorted sequence. -/
theorem Selected.take (h : Selected key limit xs pick) :
    ∃ all : List α, all.Perm xs ∧ all.Pairwise (fun a b => key a ≤ key b) ∧
      pick.best.reverse = all.take limit ∧ (pick.truncated ↔ limit < all.length) := by
  obtain ⟨hsorted, hle, rest, hperm, hlarger, hfull, htruncated⟩ := h
  have hlater := (stable key).perm rest
  have hreverse := reverse_perm pick.best
  refine ⟨pick.best.reverse ++ (stable key).run rest,
    (hreverse.append hlater).trans hperm.symm, ?_, ?_, ?_⟩
  · refine pairwise_append.2 ⟨?_, (stable key).sorted rest, ?_⟩
    · exact pairwise_reverse.2 (hsorted.imp le_of_lt)
    · intro y hy x hx
      exact le_of_lt (hlarger x (hlater.mem_iff.1 hx) y (hreverse.mem_iff.1 hy))
  · by_cases hrest : rest = []
    · subst hrest
      rw [List.Perm.eq_nil hlater, append_nil, take_of_length_le]
      rw [length_reverse]
      exact hle
    · rw [take_left' (by rw [length_reverse, hfull hrest])]
  · rw [htruncated, length_append, length_reverse, hlater.length_eq]
    constructor
    · intro hrest
      have hpos := length_pos_iff.2 hrest
      have hlength := hfull hrest
      omega
    · rintro hlt rfl
      rw [length_nil] at hlt
      omega

theorem Selected.stable_eq (h : Selected key limit xs pick) :
    (stable key).run pick.best = pick.best.reverse := by
  have hnodup : (pick.best.map key).Nodup := by
    rw [List.Nodup, pairwise_map]
    exact h.sorted.imp fun hlt => (ne_of_lt hlt).symm
  have hperm := (stable key).perm pick.best
  have hreverse := reverse_perm pick.best
  refine List.Perm.eq_of_pairwise ?_ ((stable key).sorted pick.best)
    (pairwise_reverse.2 (h.sorted.imp le_of_lt)) (hperm.trans hreverse.symm)
  intro a b ha hb hab hba
  exact inj_on_of_nodup_map hnodup (hperm.mem_iff.1 ha) (hreverse.mem_iff.1 hb)
    (le_antisymm hab hba)

end Smallest
