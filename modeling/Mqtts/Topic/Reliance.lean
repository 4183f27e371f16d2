import Mqtts.Topic.Paths

/-!
# What concurrent calls rely on

In a run of orderly steps a `subscribe` always stands at a located node: only the holder of the
creation mutex adds an edge, so no edge is replaced, and an edge is taken out only if it leads to a
node that is empty and that no `subscribe` has come to. When it returns success, its client is
therefore a subscriber of the located node with the levels of its filter, and stays one until an
`unsubscribe` of the pair begins.
-/

namespace Mqtts.Concurrent

open Assoc Concurrent.Tree List

/-! ## What a call relies on -/

namespace Stage

def rest : Stage → List Str
  | .walking _ l r | .locking _ l r | .checking _ l r | .creating _ l r => l :: r
  | .linking _ l r _ _ | .swapping _ l r _ _ _ => l :: r
  | _ => []

def locked : Stage → Bool
  | .checking _ _ _ | .creating _ _ _ | .linking _ _ _ _ _ | .swapping _ _ _ _ _ _ => true
  | _ => false

def missing : Stage → Option (Nat × Str)
  | .creating n l _ | .linking n l _ _ _ | .swapping n l _ _ _ _ => some (n, l)
  | _ => none

def fresh : Stage → Option Nat
  | .linking _ _ _ m _ | .swapping _ _ _ m _ _ => some m
  | _ => none

theorem locked_of_missing {s : Stage} {e} (h : s.missing = some e) : s.locked := by
  cases s <;> first | rfl | cases h

theorem node_of_missing {s : Stage} {n l} (h : s.missing = some (n, l)) : s.node = some n := by
  cases s <;> first | cases h; rfl | cases h

end Stage

/-- What a call relies on. -/
structure CallOk (x : Sys) (c : Nat) (k : Call) : Prop where
  place : ∀ {n}, k.stage.node = some n →
    n < x.tree.size ∧ x.tree.path n ++ k.stage.rest = splitLevels k.op.filter
  located : ∀ {n}, k.stage.node = some n → k.op.subscribes → x.tree.Located n
  locked : k.stage.locked → x.creationMutex = some c
  missing : ∀ {n l}, k.stage.missing = some (n, l) → x.tree.child n l = none
  fresh : ∀ {n m l}, k.stage.missing = some (n, l) → k.stage.fresh = some m →
    m < x.tree.size ∧ x.tree.path m = x.tree.path n ++ [l]
  cleans : ∀ {frames}, k.stage = .cleaning frames → k.op = .cleanup

def Sys.Has (x : Sys) (filter client : Str) : Prop :=
  ∃ n, x.tree.path n = splitLevels filter ∧ x.tree.Located n ∧
    (x.tree.subscribers n).has client

/-- The invariant of orderly runs. -/
structure Inv (x : Sys) : Prop where
  linked : x.tree.Linked
  calls : ∀ {c k}, x.calls[c]? = some k → CallOk x c k
  kept : ∀ {k filter client}, k ∈ x.calls → x.Subscribed filter client k → x.Has filter client

/-! ## What the step of another call keeps -/

/-- A `subscribe` has come to the node, or it has a subscriber. -/
def Sys.Needed (x : Sys) (n : Nat) : Prop :=
  (∃ k ∈ x.calls, k.op.subscribes ∧ k.stage.node = some n) ∨
    (x.tree.subscribers n).elems ≠ []

/-- What the step of one call may do to all that the other calls rely on. -/
structure Moves (x x' : Sys) (c : Nat) : Prop where
  size : x.tree.size ≤ x'.tree.size
  path : ∀ {n}, n < x.tree.size → x'.tree.path n = x.tree.path n
  located : ∀ {n}, n < x.tree.size → x.Needed n → x.tree.Located n → x'.tree.Located n
  mutex : ∀ {d}, d ≠ c → x.creationMutex = some d → x'.creationMutex = some d
  missing : ∀ {d n l}, d ≠ c → x.creationMutex = some d →
    x.tree.child n l = none → x'.tree.child n l = none
  subscribers : ∀ {k filter client n}, k ∈ x.calls →
    x.Subscribed filter client k → x.tree.path n = splitLevels filter → n < x.tree.size →
      (x.tree.subscribers n).has client → (x'.tree.subscribers n).has client

variable {x x' : Sys} {c : Nat} {k : Call}

theorem CallOk.frame {d : Nat} (h : CallOk x d k) (hk : k ∈ x.calls) (hm : Moves x x' c)
    (hd : d ≠ c) : CallOk x' d k where
  place := by
    intro n hn
    obtain ⟨hlt, hpath⟩ := h.place hn
    exact ⟨hlt.trans_le hm.size, by rw [hm.path hlt, hpath]⟩
  located := by
    intro n hn hs
    exact hm.located (h.place hn).1 (.inl ⟨k, hk, hs, hn⟩) (h.located hn hs)
  locked := fun hl => hm.mutex hd (h.locked hl)
  missing := by
    intro n l hn
    exact hm.missing hd (h.locked (Stage.locked_of_missing hn)) (h.missing hn)
  fresh := by
    intro n m l hn hf
    obtain ⟨hlt, hpath⟩ := h.fresh hn hf
    rw [hm.path hlt, hm.path (h.place (Stage.node_of_missing hn)).1]
    exact ⟨hlt.trans_le hm.size, hpath⟩
  cleans := h.cleans

variable {n : Nat} {s : Stage}

theorem needed_of_has {client} (h : (x.tree.subscribers n).has client) : x.Needed n := by
  obtain ⟨i, hi, -⟩ := SubscriberSet.has_iff.1 h
  exact .inr (ne_nil_of_mem hi)

theorem Sys.Has.frame {filter client} (h : x.Has filter client) (hl : x.tree.Linked)
    (hm : Moves x x' c) (hk : k ∈ x.calls) (hs : x.Subscribed filter client k) :
    x'.Has filter client := by
  obtain ⟨n, hpath, hloc, hhas⟩ := h
  have hlt := (hl.follow hloc).1
  refine ⟨n, ?_, hm.located hlt (needed_of_has hhas) hloc, hm.subscribers hk hs hpath hlt hhas⟩
  rw [hm.path hlt, hpath]

theorem calls_setStage (hk : x.calls[c]? = some k)
    (hcalls : x'.calls = x.calls.modify c fun k => { k with stage := s }) {d : Nat} {k' : Call}
    (hk' : x'.calls[d]? = some k') :
    (d = c ∧ k' = { k with stage := s }) ∨ (d ≠ c ∧ x.calls[d]? = some k') := by
  rw [hcalls] at hk'
  by_cases hd : d = c
  · subst hd
    rw [List.getElem?_modify_eq, hk] at hk'
    exact .inl ⟨rfl, (Option.some.inj hk').symm⟩
  · rw [List.getElem?_modify_ne _ _ (Ne.symm hd)] at hk'
    exact .inr ⟨hd, hk'⟩

theorem exists_call_setStage (hcalls : x'.calls = x.calls.modify c fun k => { k with stage := s })
    {u : Call} (hu : u ∈ x.calls) : ∃ u' ∈ x'.calls, u'.op = u.op ∧ u'.started = u.started := by
  obtain ⟨d, hd⟩ := mem_iff_getElem?.1 hu
  rw [hcalls]
  by_cases hdc : d = c
  · subst hdc
    refine ⟨{ u with stage := s }, mem_of_getElem? (i := d) ?_, rfl, rfl⟩
    rw [List.getElem?_modify_eq, hd]
    rfl
  · refine ⟨u, mem_of_getElem? (i := d) ?_, rfl, rfl⟩
    rw [List.getElem?_modify_ne _ _ (Ne.symm hdc), hd]

/-- The invariant after such a step. -/
theorem Inv.frame (h : Inv x) (hk : x.calls[c]? = some k) (hm : Moves x x' c)
    (hcalls : x'.calls = x.calls.modify c fun k => { k with stage := s }) (hl : x'.tree.Linked)
    (hc : CallOk x' c { k with stage := s })
    (hkept : ∀ {filter client : Str} {options : SubscriptionOptions} {m : Nat}, k.op = .subscribe
    filter client options → s = .returned true m → x'.Has filter client) :
    Inv x' where
  linked := hl
  calls := by
    intro d k' hk'
    rcases calls_setStage hk hcalls hk' with ⟨rfl, rfl⟩ | ⟨hd, hold⟩
    · exact hc
    · exact (h.calls hold).frame (mem_of_getElem? hold) hm hd
  kept := by
    intro k' filter client hk' hs
    obtain ⟨options, m, hop, hstage, hafter⟩ := hs
    obtain ⟨d, hd⟩ := mem_iff_getElem?.1 hk'
    rcases calls_setStage hk hcalls hd with ⟨rfl, rfl⟩ | ⟨-, hold⟩
    · exact hkept hop hstage
    have hmem := mem_of_getElem? hold
    have hsub : x.Subscribed filter client k' := by
      refine ⟨options, m, hop, hstage, ?_⟩
      intro u hu huop
      obtain ⟨u', hu', hop', hstarted⟩ := exists_call_setStage hcalls hu
      rw [← hstarted]
      exact hafter u' hu' (hop'.trans huop)
    exact (h.kept hmem hsub).frame h.linked hm hmem hsub

/-! ## The kinds of steps -/

/-- Nothing in the tree changes. -/
theorem moves_same (htree : x'.tree = x.tree)
    (hmutex : ∀ {d}, d ≠ c → x.creationMutex = some d → x'.creationMutex = some d) :
    Moves x x' c := by
  refine ⟨?_, ?_, ?_, hmutex, ?_, ?_⟩ <;> rw [htree]
  · intro n _
    rfl
  · intro n _ _ hn
    exact hn
  · intro d n l _ _ hn
    exact hn
  · intro k filter client n _ _ _ _ hhas
    exact hhas

/-- A new node. -/
theorem moves_alloc {new} (hnew : new.children = []) (htree : x'.tree = x.tree.alloc new)
    (hmutex : x'.creationMutex = x.creationMutex) : Moves x x' c where
  size := by
    rw [htree, Cells.size_alloc]
    exact Nat.le_succ _
  path := by
    intro n hn
    rw [htree, path_alloc hn]
  located := by
    intro n hlt _ hn
    rw [htree, Tree.Located, path_alloc hlt]
    refine follow_of_children (fun _ => False) ?_ ?_ hn not_false
    · intro m l hm
      exact hm.elim
    · intro k m l hm _
      rw [child_alloc hnew, hm]
  mutex := by
    intro d _ hd
    rw [hmutex, hd]
  missing := by
    intro d n l _ _ hn
    rw [htree, child_alloc hnew, hn]
  subscribers := by
    intro k filter client n _ _ _ hlt hhas
    rw [htree, subscribers_alloc hlt]
    exact hhas

/-- New subscribers. -/
theorem moves_subscribers {new} (hset : x.tree.Sets x'.tree n new)
    (hpath : new.path = x.tree.path n) (hchildren : new.children = (x.tree.content n).children)
    (hmutex : x'.creationMutex = x.creationMutex)
    (hnew : ∀ {k filter client}, k ∈ x.calls → x.Subscribed filter client k → x.tree.path n =
    splitLevels filter → (x.tree.subscribers n).has client → new.subscribers.has client) :
    Moves x x' c := by
  have hchild : ∀ (k : Nat) (l : Str), x'.tree.child k l = x.tree.child k l := by
    intro k l
    by_cases hk : k = n
    · rw [hk, hset.child_self, hchildren]
      rfl
    · exact hset.child_of_ne hk l
  refine ⟨hset.size.ge, fun _ => hset.path hpath _, ?_, ?_, ?_, ?_⟩
  · intro k _ _ hk
    rw [Tree.Located, hset.path hpath]
    refine follow_of_children (fun _ => False) ?_ ?_ hk not_false
    · intro m l hm
      exact hm.elim
    · intro k m l hm _
      rw [hchild, hm]
  · intro d _ hd
    rw [hmutex, hd]
  · intro d k l _ _ hk
    rw [hchild, hk]
  · intro k filter client m hk hs hm _ hhas
    by_cases hmn : m = n
    · subst hmn
      rw [subscribers, hset.self]
      exact hnew hk hs hm hhas
    · rw [hset.subscribers_of_ne hmn]
      exact hhas

/-- An edge more. -/
theorem moves_link {m : Nat} {l : Str} (hset : x.tree.Sets x'.tree n
      { x.tree.content n with children := assocSet l m (x.tree.content n).children })
    (hmissing : x.tree.child n l = none) (hlocked : x.creationMutex = some c) : Moves x x' c := by
  have hother : ∀ {d : Nat}, d ≠ c → x.creationMutex = some d → False := by
    intro d hd hmutex
    rw [hlocked] at hmutex
    exact hd (Option.some.inj hmutex).symm
  refine ⟨hset.size.ge, fun _ => hset.path rfl _, ?_, ?_, ?_, ?_⟩
  · intro k _ _ hk
    rw [Tree.Located, hset.path rfl]
    refine follow_of_children (fun _ => False) ?_ ?_ hk not_false
    · intro m l hm
      exact hm.elim
    · intro k j r hj _
      by_cases hk : k = n
      · have hr : r ≠ l := by
          rintro rfl
          rw [hk, hmissing] at hj
          cases hj
        rw [hk, hset.child_self, lookup_assocSet_of_ne hr, ← hj, hk]
        rfl
      · rw [hset.child_of_ne hk, hj]
  · intro d hd hmutex
    exact (hother hd hmutex).elim
  · intro d k r hd hmutex
    exact (hother hd hmutex).elim
  · intro k filter client j _ _ _ _ hhas
    rw [hset.subscribers rfl]
    exact hhas

/-- An edge less. -/
theorem moves_unlink {m : Nat} {l : Str} (hset : x.tree.Sets x'.tree n
      { x.tree.content n with children := assocErase l (x.tree.content n).children })
    (hm : x.tree.child n l = some m) (hidle : x.Idle m)
    (hmutex : x'.creationMutex = x.creationMutex) : Moves x x' c := by
  obtain ⟨hsubs, hchildren, hcalls⟩ := hidle
  refine ⟨hset.size.ge, fun _ => hset.path rfl _, ?_, ?_, ?_, ?_⟩
  · intro k _ hneeded hk
    rw [Tree.Located, hset.path rfl]
    refine follow_of_children (fun j => j = m) ?_ ?_ hk ?_
    · rintro j r rfl
      rw [child, hchildren]
      rfl
    · intro k j r hj hjm
      by_cases hk : k = n
      · have hr : r ≠ l := by
          rintro rfl
          rw [hk, hm] at hj
          exact hjm (Option.some.inj hj).symm
        rw [hk, hset.child_self, lookup_assocErase_of_ne hr, ← hj, hk]
        rfl
      · rw [hset.child_of_ne hk, hj]
    · rintro rfl
      rcases hneeded with ⟨s, hs, hop, hnode⟩ | hsome
      · exact hcalls s hs hop hnode
      · exact hsome hsubs
  · intro d _ hd
    rw [hmutex, hd]
  · intro d k r _ _ hk
    by_cases hkn : k = n
    · subst hkn
      rw [hset.child_self]
      by_cases hr : r = l
      · rw [hr]
        exact lookup_assocErase_self _ _
      · rw [lookup_assocErase_of_ne hr]
        exact hk
    · rw [hset.child_of_ne hkn, hk]
  · intro k filter client j _ _ _ _ hhas
    rw [hset.subscribers rfl]
    exact hhas

end Mqtts.Concurrent
