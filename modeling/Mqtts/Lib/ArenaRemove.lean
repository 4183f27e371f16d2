import Mqtts.Lib.Arena

/-!
# Removal from tries in a vector

A removal takes an entry away and then goes back along the path and takes every bare node off its
parent, until one is not bare.
-/

open Std (ExtTreeMap TransOrd LawfulEqOrd)

namespace Arena

open Option List

variable {κ α β : Type} [Ord κ] [Ord α]

/-! ## A bare leaf -/

section Leaf

variable [TransOrd κ] [TransOrd α] {a : Arena κ α β} {p : List κ} {k : κ} {n m : Nat}

theorem cell_of_bare (h : a.bare n) : a.cell n = {} := by
  rw [bare, Bool.and_eq_true, ExtTreeMap.isEmpty_iff, ExtTreeMap.isEmpty_iff] at h
  cases hc : a.cell n with
  | mk children entries =>
    rw [hc] at h
    simp only at h
    rw [h.1, h.2]

theorem cell_unlink_release (hn : n < a.cells.length) (hne : m ≠ n) (hm : m < a.cells.length)
    (hbare : a.bare n) (n' : Nat) :
    ((a.unlink m k).release n).cell n' = (a.unlink m k).cell n' := by
  have hn' : n < (a.unlink m k).cells.length := by simpa [unlink] using hn
  show ((a.unlink m k).setCell n {}).cell n' = (a.unlink m k).cell n'
  rw [cell_setCell hn']
  split
  · rename_i heq
    rw [← heq, unlink, cell_setCell hm, if_neg hne, cell_of_bare hbare]
  · rfl

variable [LawfulEqOrd κ] [DecidableEq κ]

/-- Taking one bare leaf away changes one path. -/
theorem locate_unlink_release (h : a.Sound) (hp : a.locate p = some m)
    (hk : a.child m k = some n) (hbare : a.bare n) (q : List κ) :
    ((a.unlink m k).release n).locate q = if q = p ++ [k] then none else a.locate q := by
  have hpk : a.locate (p ++ [k]) = some n := by rw [locate_concat, hp, bind_some, hk]
  have hm := h.bound p m hp
  have hne := h.ne_child hp hk
  refine locate_relink h.injective hp (fun n' j => ?_) ?_ (fun _ hm => by cases hm) q
  · rw [child, cell_unlink_release (h.bound _ _ hpk) hne hm hbare]
    exact child_unlink hm k n' j
  · intro n' hn' j
    rw [hk, Option.some.injEq] at hn'
    rw [child, ← hn', cell_of_bare hbare]
    simp

theorem get_unlink_release (h : a.Sound) (hp : a.locate p = some m)
    (hk : a.child m k = some n) (hbare : a.bare n) (q : List κ) (key : α) :
    ((a.unlink m k).release n).get q key = a.get q key := by
  have hpk : a.locate (p ++ [k]) = some n := by rw [locate_concat, hp, bind_some, hk]
  have hm := h.bound p m hp
  have hne := h.ne_child hp hk
  rw [get, locate_unlink_release h hp hk hbare, get]
  simp only [cell_unlink_release (h.bound _ _ hpk) hne hm hbare, entries_unlink hm]
  by_cases hq : q = p ++ [k]
  · rw [if_pos hq, hq, hpk, bind_some, cell_of_bare hbare]
    simp
  · rw [if_neg hq]

theorem Sound.unlink_release (h : a.Sound) (hp : a.locate p = some m)
    (hk : a.child m k = some n) (hbare : a.bare n) : ((a.unlink m k).release n).Sound := by
  have hpk : a.locate (p ++ [k]) = some n := by rw [locate_concat, hp, bind_some, hk]
  have hm := h.bound p m hp
  have hn := h.bound _ _ hpk
  have hne := h.ne_child hp hk
  have hlocate := locate_unlink_release h hp hk hbare
  have hcell := cell_unlink_release (k := k) hn hne hm hbare
  have hlength : ((a.unlink m k).release n).cells.length = a.cells.length := by
    simp [release, unlink]
  have hfree : ((a.unlink m k).release n).free = n :: a.free := rfl
  have hcases : ∀ q n', ((a.unlink m k).release n).locate q = some n' →
      q ≠ p ++ [k] ∧ a.locate q = some n' := by
    intro q n' hq
    rw [hlocate] at hq
    split at hq
    · cases hq
    · rename_i hq'
      exact ⟨hq', hq⟩
  refine ⟨?_, ?_, ?_, ?_, ?_, ?_, ?_⟩
  · exact fun q q' n' hq hq' => h.injective q q' n' (hcases q n' hq).2 (hcases q' n' hq').2
  · intro q n' hq
    rw [hlength]
    exact h.bound q n' (hcases q n' hq).2
  · intro n' hn'
    rw [hlength]
    rcases mem_cons.1 (hfree ▸ hn') with rfl | hn'
    · exact hn
    · exact h.freeBound n' hn'
  · rw [hfree, nodup_cons]
    exact ⟨fun hmem => h.dead n hmem _ hpk, h.freeNodup⟩
  · intro n' hn' q hq
    obtain ⟨hne', hold⟩ := hcases q n' hq
    rcases mem_cons.1 (hfree ▸ hn') with rfl | hn'
    · exact hne' (h.injective q _ n' hold hpk)
    · exact h.dead n' hn' q hold
  · intro n' hn'
    have hne' : m ≠ n' := by
      rcases mem_cons.1 (hfree ▸ hn') with rfl | hn'
      · exact hne
      · exact fun heq => h.dead n' hn' p (heq ▸ hp)
    rw [hcell, unlink, cell_setCell hm, if_neg hne']
    rcases mem_cons.1 (hfree ▸ hn') with rfl | hn'
    · exact cell_of_bare hbare
    · exact h.blank n' hn'
  · intro n' hn' hnfree
    rw [hlength] at hn'
    rw [hfree, mem_cons, not_or] at hnfree
    obtain ⟨q, hq⟩ := h.covered n' hn' hnfree.2
    have hq' : q ≠ p ++ [k] := by
      intro heq
      rw [heq, hpk, Option.some.injEq] at hq
      exact hnfree.1 hq.symm
    exact ⟨q, by rw [hlocate, if_neg hq', hq]⟩

end Leaf

/-! ## The way back -/

section Trails

variable [TransOrd κ] {a : Arena κ α β} {n : Nat}

def wayKeys (path : List (Nat × κ)) : List κ := (path.map Prod.snd).reverse

/-- What the way back has to be for the next round; it does not notice that the edge below it is
gone. -/
def Trail (a : Arena κ α β) : Nat → List (Nat × κ) → Prop
  | n, [] => n = 0
  | n, (m, k) :: path => a.child m k = some n ∧ Trail a m path

omit [TransOrd κ] [Ord κ] in
@[simp] theorem wayKeys_cons (m : Nat) (k : κ) (path : List (Nat × κ)) :
    wayKeys ((m, k) :: path) = wayKeys path ++ [k] := by simp [wayKeys]

theorem Trail.locate : ∀ {path n}, a.Trail n path → a.locate (wayKeys path) = some n
  | [], n, h => by rw [show n = 0 from h]; rfl
  | (m, k) :: path, n, h => by rw [wayKeys_cons, locate_concat, Trail.locate h.2, bind_some, h.1]

theorem walk_spec : ∀ (ks : List κ) {n path}, a.Trail n path →
    (a.walk n path ks = none → a.locate (wayKeys path ++ ks) = none) ∧
    ∀ n' path', a.walk n path ks = some (n', path') →
      a.Trail n' path' ∧ wayKeys path' = wayKeys path ++ ks
  | [], n, path, h => by
    refine ⟨nofun, fun n' path' hw => ?_⟩
    obtain ⟨rfl, rfl⟩ := Prod.mk.inj (Option.some.inj hw)
    exact ⟨h, by simp⟩
  | k :: ks, n, path, h => by
    rw [walk]
    cases hk : a.child n k with
    | none =>
      refine ⟨fun _ => ?_, nofun⟩
      rw [locate, foldlM_append]
      show (a.locate (wayKeys path)).bind _ = none
      rw [h.locate, bind_some, foldlM_cons, hk]
      rfl
    | some m =>
      have htrail : a.Trail m ((n, k) :: path) := ⟨hk, h⟩
      obtain ⟨hnone, hsome⟩ := walk_spec ks htrail
      rw [wayKeys_cons, append_assoc] at hnone hsome
      exact ⟨hnone, hsome⟩

theorem Trail.setEntries (hn : n < a.cells.length) (entries : ExtTreeMap α β) :
    ∀ {path n'}, a.Trail n' path → (a.setEntries n entries).Trail n' path
  | [], _, h => h
  | (_, _) :: _, _, h =>
    ⟨(child_setEntries hn entries _ _).trans h.1, Trail.setEntries hn entries h.2⟩

variable [LawfulEqOrd κ] [DecidableEq κ] [TransOrd α]

theorem Trail.unlink_release (h : a.Sound) {m k path}
    (htrail : a.Trail n ((m, k) :: path)) (hbare : a.bare n) :
    ((a.unlink m k).release n).Trail m path := by
  have hpk := htrail.locate
  have hp := htrail.2.locate
  rw [wayKeys_cons] at hpk
  have hm := h.bound _ _ hp
  have hne := h.ne_child hp htrail.1
  have hchild : ∀ n' j, ((a.unlink m k).release n).child n' j =
      if n' = m ∧ j = k then none else a.child n' j := by
    intro n' j
    rw [child, cell_unlink_release (h.bound _ _ hpk) hne hm hbare]
    exact child_unlink hm k n' j
  -- an edge on the way up from `m` that is the one below `m` would lead back to `m`
  have hup : ∀ (above : List (Nat × κ)) (n' : Nat), above.length ≤ path.length →
      a.Trail n' above → ((a.unlink m k).release n).Trail n' above := by
    intro above
    induction above with
    | nil => exact fun n' _ ht => ht
    | cons e above ih =>
      obtain ⟨m', j⟩ := e
      intro n' hlen ht
      have hne' : ¬(m' = m ∧ j = k) := by
        rintro ⟨rfl, -⟩
        have hself := h.injective _ _ m' ht.2.locate hp
        have hlength := congrArg List.length hself
        simp only [wayKeys, length_reverse, length_map] at hlength
        simp only [length_cons] at hlen
        omega
      refine ⟨?_, ih m' (Nat.le_of_succ_le hlen) ht.2⟩
      rw [hchild, if_neg hne']
      exact ht.1
  exact hup path m (Nat.le_refl _) htrail.2

theorem Sound.prune : ∀ (path : List (Nat × κ)) {a : Arena κ α β} {n}, a.Sound → a.Trail n path →
      (a.prune n path).Sound ∧ ∀ q key, (a.prune n path).get q key = a.get q key
  | [], a, n, h, _ => ⟨h, fun _ _ => rfl⟩
  | (m, k) :: path, a, n, h, htrail => by
    rw [Arena.prune]
    by_cases hbare : a.bare n
    · rw [if_pos hbare]
      obtain ⟨h1, hget⟩ := Sound.prune path (h.unlink_release htrail.2.locate htrail.1 hbare)
        (htrail.unlink_release h hbare)
      refine ⟨h1, fun q key => (hget q key).trans ?_⟩
      exact get_unlink_release h htrail.2.locate htrail.1 hbare q key
    · rw [if_neg hbare]
      exact ⟨h, fun _ _ => rfl⟩

variable [LawfulEqOrd α] [DecidableEq α]

theorem remove_spec (h : a.Sound) (p : List κ) (key : α) :
    (a.remove p key).Sound ∧ ∀ q key', (a.remove p key).get q key' =
      if q = p ∧ key' = key then none else a.get q key' := by
  have hroot : a.Trail 0 [] := rfl
  obtain ⟨hnone, hsome⟩ := walk_spec p hroot
  rw [remove]
  cases hw : a.walk 0 [] p with
  | none =>
    refine ⟨h, fun q key' => ?_⟩
    by_cases hq : q = p ∧ key' = key
    · have hp : a.locate q = none := by rw [hq.1]; exact hnone hw
      rw [if_pos hq, get, hp]
      rfl
    · rw [if_neg hq]
  | some r =>
    obtain ⟨n, path⟩ := r
    obtain ⟨htrail, hkeys⟩ := hsome n path hw
    have hp : a.locate p = some n := by rw [← htrail.locate, hkeys]; rfl
    obtain ⟨h2, hget⟩ := Sound.prune path (h.setEntries hp ((a.cell n).entries.erase key))
      (htrail.setEntries (h.bound p n hp) _)
    refine ⟨h2, fun q key' => ?_⟩
    rw [hget, get_setEntries h hp, Maps.get_erase]
    by_cases hq : q = p
    · subst hq
      rw [if_pos rfl, get, hp, bind_some]
      simp [eq_comm]
    · rw [if_neg hq, if_neg fun hc => hq hc.1]

/-- A removal keeps the representation sound, by induction along the way back. -/
theorem Sound.remove (h : a.Sound) (p : List κ) (key : α) :
    (a.remove p key).Sound := (remove_spec h p key).1

/-- What a removal does to `get`. -/
theorem get_remove (h : a.Sound) (p : List κ) (key : α) (q : List κ) (key' : α) :
    (a.remove p key).get q key' = if q = p ∧ key' = key then none else a.get q key' :=
  (remove_spec h p key).2 q key'

end Trails

end Arena
