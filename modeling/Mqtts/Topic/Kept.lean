import Mqtts.Topic.Reliance

/-!
# What concurrent calls keep

Each step of `subscribe`, of `unsubscribe` and of `cleanup_empty_nodes` keeps the invariant if it is
orderly.
-/

namespace Mqtts.Concurrent

open Option List Assoc SortUnique Runs

variable {x x' : Sys} {c : Nat} {k : Call}

/-! ## The steps of `subscribe` and `unsubscribe` -/

theorem CallOk.congr (h : CallOk x c k) (htree : x'.tree = x.tree)
    (hmutex : x'.creationMutex = x.creationMutex) : CallOk x' c k := by
  obtain ⟨hplace, hlocated, hlocked, hmissing, hfresh, hcleans⟩ := h
  rw [← htree] at hplace hlocated hmissing hfresh
  rw [← hmutex] at hlocked
  exact ⟨hplace, hlocated, hlocked, hmissing, hfresh, hcleans⟩

theorem callOk_returned (x : Sys) (c : Nat) (k : Call) (ok : Bool) (m : Nat) :
    CallOk x c { k with stage := .returned ok m } where
  place := fun h => nomatch h
  located := fun h => nomatch h
  locked := fun h => nomatch h
  missing := fun h => nomatch h
  fresh := fun h => nomatch h
  cleans := fun h => nomatch h

theorem callOk_cleaning (x : Sys) (c : Nat) {k : Call} (hop : k.op = .cleanup)
    (frames : List Frame) : CallOk x c { k with stage := .cleaning frames } where
  place := fun h => nomatch h
  located := fun h => nomatch h
  locked := fun h => nomatch h
  missing := fun h => nomatch h
  fresh := fun h => nomatch h
  cleans := fun _ => hop

namespace Stage

def success : Stage → Bool
  | .returned ok _ => ok
  | _ => false

theorem success_of_node {s : Stage} {n} (h : s.node = some n) : s.success = false := by
  cases s <;> first | rfl | cases h

theorem node_arrive (op : Op) (n : Nat) (r : List Str) : (Sys.arrive op n r).node = some n := by
  cases r with
  | nil => cases op <;> rfl
  | cons l r => rfl

theorem arrive_spec (op : Op) (n : Nat) (r : List Str) :
    (Sys.arrive op n r).rest = r ∧ (Sys.arrive op n r).locked = false ∧
      (Sys.arrive op n r).missing = none := by
  cases r with
  | nil => cases op <;> exact ⟨rfl, rfl, rfl⟩
  | cons l r => exact ⟨rfl, rfl, rfl⟩

end Stage

variable {n : Nat} {r : List Str} {s : Stage}

open Stage

theorem callOk_arrive (hn : n < x.tree.size) (hpath : x.tree.path n ++ r = splitLevels k.op.filter)
    (hlocated : k.op.subscribes → x.tree.Located n) :
    CallOk x c { k with stage := Sys.arrive k.op n r } := by
  have hnode := node_arrive k.op n r
  obtain ⟨hrest, hlocked, hmissing⟩ := arrive_spec k.op n r
  generalize Sys.arrive k.op n r = s at *
  refine ⟨fun hm => ?_, fun hm => ?_, fun hl => ?_, fun hm => ?_, fun hm => ?_, ?_⟩
  · cases hnode.symm.trans hm
    exact ⟨hn, by rw [hrest, hpath]⟩
  · cases hnode.symm.trans hm
    exact hlocated
  · cases hlocked.symm.trans hl
  · cases hmissing.symm.trans hm
  · cases hmissing.symm.trans hm
  · rintro frames rfl
    cases hnode

theorem CallOk.stay (h : CallOk x c k) (hmem : k ∈ x.calls) (hm : Moves x x' c)
    (hk : k.stage.node = some n) (hn : s.node = some n) (hrest : s.rest = k.stage.rest)
    (hlocked : s.locked → x'.creationMutex = some c)
    (hmissing : ∀ {m l}, s.missing = some (m, l) → x'.tree.child m l = none)
    (hfresh : ∀ {m j l}, s.missing = some (m, l) → s.fresh = some j → j < x'.tree.size ∧
    x'.tree.path j = x'.tree.path m ++ [l]) :
    CallOk x' c { k with stage := s } where
  place := by
    intro m hm'
    cases hn.symm.trans hm'
    obtain ⟨hlt, hpath⟩ := h.place hk
    exact ⟨hlt.trans_le hm.size, by rw [hrest, hm.path hlt, hpath]⟩
  located := by
    intro m hm' hs
    cases hn.symm.trans hm'
    exact hm.located (h.place hk).1 (.inl ⟨k, hmem, hs, hk⟩) (h.located hk hs)
  locked := hlocked
  missing := hmissing
  fresh := hfresh
  cleans := by
    rintro frames rfl
    cases hn

theorem CallOk.below {m l} (h : CallOk x c k) (hmem : k ∈ x.calls) (hm : Moves x x' c)
    (hl : x'.tree.Linked) (hn : k.stage.node = some n) (hr : k.stage.rest = l :: r)
    (hchild : x'.tree.child n l = some m) :
    CallOk x' c { k with stage := Sys.arrive k.op m r } := by
  obtain ⟨hlt, hpath⟩ := hl.child hchild
  obtain ⟨hnlt, hnpath⟩ := h.place hn
  refine callOk_arrive hlt ?_ ?_
  · rw [hpath, hm.path hnlt, append_assoc, singleton_append, ← hr, hnpath]
  · intro hs
    exact hl.located_child (hm.located hnlt (.inl ⟨k, hmem, hs, hn⟩) (h.located hn hs)) hchild

theorem moves_setStage (x : Sys) (c : Nat) (s : Stage) : Moves x (x.setStage c s) c :=
  moves_same rfl fun _ hd => hd

theorem moves_unlock (hlocked : x.creationMutex = some c) (s : Stage) :
    Moves x (x.unlock.setStage c s) c := by
  refine moves_same rfl ?_
  intro d hd hmutex
  rw [hlocked] at hmutex
  exact (hd (Option.some.inj hmutex).symm).elim

theorem Inv.go (h : Inv x) (hk : x.calls[c]? = some k) (hm : Moves x x' c)
    (hcalls : x'.calls = x.calls.modify c fun k => { k with stage := s }) (hl : x'.tree.Linked)
    (hc : CallOk x' c { k with stage := s }) (hs : s.success = false) : Inv x' := by
  refine h.frame hk hm hcalls hl hc ?_
  rintro filter client options m - rfl
  cases hs

theorem Inv.setStage (h : Inv x) (hk : x.calls[c]? = some k)
    (hc : CallOk (x.setStage c s) c { k with stage := s }) (hs : s.success = false) :
    Inv (x.setStage c s) :=
  h.go hk (moves_setStage x c s) rfl h.linked hc hs

theorem Inv.finish_false (h : Inv x) (hk : x.calls[c]? = some k) : Inv (x.finish c false) :=
  h.setStage hk (callOk_returned ..) rfl

theorem Inv.stay (h : Inv x) (hk : x.calls[c]? = some k) (hnode : k.stage.node = some n)
    (hn : s.node = some n) (hrest : s.rest = k.stage.rest)
    (hsame : s.locked = false ∧ s.missing = none ∨ s.locked = k.stage.locked ∧ s.missing =
    k.stage.missing ∧ s.fresh = k.stage.fresh) :
    Inv (x.setStage c s) := by
  have hok := h.calls hk
  refine h.setStage hk ?_ (success_of_node hn)
  refine hok.stay (mem_of_getElem? hk) (moves_setStage ..) hnode hn hrest ?_ ?_ ?_ <;>
    rcases hsame with ⟨hlocked, hmissing⟩ | ⟨hlocked, hmissing, hfresh⟩
  · simp [hlocked]
  · rw [hlocked]
    exact hok.locked
  · simp [hmissing]
  · rw [hmissing]
    exact hok.missing
  · simp [hmissing]
  · rw [hmissing, hfresh]
    exact hok.fresh

theorem Inv.below {m : Nat} {l : Str} (h : Inv x) (hk : x.calls[c]? = some k) (hm : Moves x x' c)
    (hcalls : x'.calls = x.calls.modify c fun d => { d with stage := Sys.arrive k.op m r })
    (hl : x'.tree.Linked) (hn : k.stage.node = some n) (hr : k.stage.rest = l :: r)
    (hchild : x'.tree.child n l = some m) : Inv x' :=
  h.go hk hm hcalls hl ((h.calls hk).below (mem_of_getElem? hk) hm hl hn hr hchild)
    (success_of_node (node_arrive ..))

section Steps

variable {op : Op} {started n m p retries : Nat} {l : Str} {r : List Str}

open Concurrent.Tree

theorem Inv.creating (h : Inv x) (hk : x.calls[c]? = some ⟨op, .creating n l r, started⟩)
    (hstep : x.advanceCall c op (.creating n l r) = some x') : Inv x' := by
  have hok := h.calls hk
  obtain ⟨hlt, -⟩ := hok.place rfl
  cases hstep
  have hm : Moves x ((x.create n l).setStage c (.linking n l r x.tree.size 0)) c :=
    moves_alloc rfl rfl rfl
  refine h.go hk hm rfl (h.linked.alloc rfl) ?_ rfl
  refine hok.stay (mem_of_getElem? hk) hm rfl rfl rfl (fun _ => hok.locked rfl) ?_ ?_
  · rintro _ _ ⟨⟩
    exact (child_alloc rfl n l).trans (hok.missing rfl)
  · rintro _ _ _ ⟨⟩ ⟨⟩
    refine ⟨(Cells.size_alloc _ _).symm ▸ Nat.lt_succ_self _, ?_⟩
    rw [hm.path hlt]
    show Content.path (content (x.tree.alloc _) x.tree.size) = _
    rw [content_alloc, if_pos rfl]

theorem Inv.swapping
    (h : Inv x) (hk : x.calls[c]? = some ⟨op, .swapping n l r m retries p, started⟩)
    (hstep : x.advanceCall c op (.swapping n l r m retries p) = some x') : Inv x' := by
  have hok := h.calls hk
  simp only [Sys.advanceCall] at hstep
  split at hstep <;> cases hstep
  · rename_i y hy
    obtain ⟨t, ht, rfl⟩ := map_eq_some_iff.1 hy
    obtain ⟨hold, hset⟩ := Tree.sets_of_swap ht
    rw [hold] at hset
    have hm : Moves x ({ x with tree := t }.unlock.setStage c (Sys.arrive op m r)) c :=
      moves_link hset (hok.missing rfl) (hok.locked rfl)
    have hl : t.Linked := by
      refine h.linked.sets hset rfl ?_
      intro l' j hj
      by_cases hl' : l' = l
      · subst hl'
        cases (lookup_assocSet_self ..).symm.trans hj
        exact hok.fresh rfl rfl
      · exact h.linked.child ((lookup_assocSet_of_ne hl' _ _).symm.trans hj)
    exact h.below hk hm rfl hl rfl rfl ((hset.child_self l).trans (lookup_assocSet_self ..))
  · exact h.stay hk rfl rfl rfl (.inr ⟨rfl, rfl, rfl⟩)

theorem Inv.addingSwap (h : Inv x) (hk : x.calls[c]? = some ⟨op, .addingSwap n retries p, started⟩)
    (hstep : x.advanceCall c op (.addingSwap n retries p) = some x') : Inv x' := by
  have hok := h.calls hk
  have hmem := mem_of_getElem? hk
  cases op with
  | unsubscribe | cleanup => cases hstep
  | subscribe filter client options =>
    simp only [Sys.advanceCall] at hstep
    split at hstep <;> cases hstep
    · rename_i y hy
      obtain ⟨t, ht, rfl⟩ := map_eq_some_iff.1 hy
      obtain ⟨hold, hset⟩ := Tree.sets_of_swap ht
      rw [hold] at hset
      have hm : Moves x ({ x with tree := t }.finish c true) c :=
        moves_subscribers hset rfl rfl rfl fun _ _ _ hhas => SubscriberSet.has_add hhas _
      have hl : t.Linked := h.linked.sets hset rfl fun hj => h.linked.child hj
      obtain ⟨hlt, hpath⟩ := hok.place rfl
      refine h.frame hk hm rfl hl (callOk_returned ..) ?_
      rintro _ _ _ _ ⟨⟩ _
      refine ⟨n, ?_, hm.located hlt (.inl ⟨_, hmem, rfl, rfl⟩) (hok.located rfl rfl), ?_⟩
      · exact (hm.path hlt).trans ((append_nil _).symm.trans hpath)
      · show (Content.subscribers (t.content n)).has client
        rw [hset.self]
        exact SubscriberSet.has_add_self _ (.ofOptions client options)
    · exact h.stay hk rfl rfl rfl (.inl ⟨rfl, rfl⟩)

theorem Inv.removingSwap
    (h : Inv x) (hk : x.calls[c]? = some ⟨op, .removingSwap n retries p, started⟩)
    (hok' : Call.Orderly x ⟨op, .removingSwap n retries p, started⟩)
    (hstep : x.advanceCall c op (.removingSwap n retries p) = some x') : Inv x' := by
  have hok := h.calls hk
  cases op with
  | subscribe | cleanup => cases hstep
  | unsubscribe filter client =>
    simp only [Sys.advanceCall] at hstep
    split at hstep <;> cases hstep
    · rename_i y hy
      obtain ⟨t, ht, rfl⟩ := map_eq_some_iff.1 hy
      obtain ⟨hold, hset⟩ := Tree.sets_of_swap ht
      rw [hold] at hset
      have hpath : x.tree.path n = splitLevels filter :=
        (append_nil _).symm.trans (hok.place rfl).2
      have hm : Moves x ({ x with tree := t }.finish c true) c := by
        refine moves_subscribers hset rfl rfl rfl ?_
        intro s f d hs hsub hf hhas
        refine SubscriberSet.has_erase.2 ⟨hhas, ?_⟩
        rintro rfl
        obtain ⟨options, m, hop, hstage, hafter⟩ := hsub
        have hreleased := hok' (Cells.pointer_of_swap ht) s hs
        rw [Call.Released, hop, hstage] at hreleased
        obtain ⟨u, hu, huop, hlt⟩ := hreleased rfl (hf.symm.trans hpath)
        exact absurd (hafter u hu huop) (not_le.2 hlt)
      have hl : t.Linked := h.linked.sets hset rfl fun hj => h.linked.child hj
      exact h.frame hk hm rfl hl (callOk_returned ..) fun hs => by cases hs
    · exact h.stay hk rfl rfl rfl (.inl ⟨rfl, rfl⟩)

theorem Inv.advanceCall {s} (h : Inv x) (hk : x.calls[c]? = some ⟨op, s, started⟩)
    (hok : Call.Orderly x ⟨op, s, started⟩) (hstep : x.advanceCall c op s = some x') : Inv x' := by
  cases s with
  | walking n l r =>
    simp only [Sys.advanceCall] at hstep
    split at hstep <;> cases hstep
    · rename_i m hm
      exact h.below hk (moves_setStage ..) rfl h.linked rfl rfl hm
    · exact h.stay hk rfl rfl rfl (.inl ⟨rfl, rfl⟩)
    · exact h.finish_false hk
  | locking n l r =>
    simp only [Sys.advanceCall] at hstep
    split_ifs at hstep with hfree
    cases hstep
    have hm : Moves x ({ x with creationMutex := some c }.setStage c (.checking n l r)) c := by
      refine moves_same rfl ?_
      intro d _ hd
      rw [hfree] at hd
      cases hd
    refine h.go hk hm rfl h.linked ?_ rfl
    exact (h.calls hk).stay (mem_of_getElem? hk) hm rfl rfl rfl (fun _ => rfl)
      (fun hs => by cases hs) fun hs => by cases hs
  | checking n l r =>
    have hlocked := (h.calls hk).locked rfl
    simp only [Sys.advanceCall] at hstep
    split at hstep <;> cases hstep
    · rename_i m hm
      exact h.below hk (moves_unlock hlocked _) rfl h.linked rfl rfl hm
    · rename_i hm
      refine h.setStage hk ?_ rfl
      refine (h.calls hk).stay (mem_of_getElem? hk) (moves_setStage ..) rfl rfl rfl
        (fun _ => hlocked) ?_
        (fun _ hs => by cases hs)
      rintro _ _ ⟨⟩
      exact hm
  | creating n l r => exact h.creating hk hstep
  | linking n l r m retries =>
    simp only [Sys.advanceCall] at hstep
    split_ifs at hstep
    · obtain ⟨p, -, rfl⟩ := map_eq_some_iff.1 hstep
      exact h.stay hk rfl rfl rfl (.inr ⟨rfl, rfl, rfl⟩)
    · cases hstep
      exact h.go hk (moves_unlock ((h.calls hk).locked rfl) _) rfl h.linked (callOk_returned ..) rfl
  | swapping n l r m retries p => exact h.swapping hk hstep
  | adding n retries =>
    simp only [Sys.advanceCall] at hstep
    split_ifs at hstep
    · obtain ⟨p, -, rfl⟩ := map_eq_some_iff.1 hstep
      exact h.stay hk rfl rfl rfl (.inl ⟨rfl, rfl⟩)
    · cases hstep
      exact h.finish_false hk
  | addingSwap n retries p => exact h.addingSwap hk hstep
  | removing n retries =>
    cases op with
    | subscribe | cleanup => cases hstep
    | unsubscribe filter client =>
      simp only [Sys.advanceCall] at hstep
      split_ifs at hstep
      · obtain ⟨p, -, hp⟩ := map_eq_some_iff.1 hstep
        split_ifs at hp <;> subst hp
        · exact h.stay hk rfl rfl rfl (.inl ⟨rfl, rfl⟩)
        · exact h.finish_false hk
      · cases hstep
        exact h.finish_false hk
  | removingSwap n retries p => exact h.removingSwap hk hok hstep
  | cleaning | returned => cases hstep

end Steps

/-! ## The steps of `cleanup_empty_nodes` -/

section Cleanup

variable {started : Nat} {f : Frame} {frames : List Frame}

theorem Inv.cleaning {s : Stage} (h : Inv x) (hk : x.calls[c]? = some ⟨.cleanup, s, started⟩)
    (frames : List Frame) : Inv (x.setStage c (.cleaning frames)) :=
  h.setStage hk (callOk_cleaning _ _ rfl _) rfl

theorem Inv.close {s} (h : Inv x) (hk : x.calls[c]? = some ⟨.cleanup, s, started⟩)
    {level shouldDelete} (hstep : x.close c level shouldDelete frames = some x') : Inv x' := by
  unfold Sys.close at hstep
  split at hstep
  · cases hstep
    exact h.frame hk (moves_setStage ..) rfl h.linked (callOk_returned ..) fun hop => by cases hop
  · cases hstep
    exact h.cleaning hk _
  · cases hstep

theorem Inv.advanceCleanup {pick : Nat} (h : Inv x)
    (hk : x.calls[c]? = some ⟨.cleanup, .cleaning (f :: frames), started⟩)
    (hok : Call.Orderly x ⟨.cleanup, .cleaning (f :: frames), started⟩)
    (hstep : x.advanceCleanup c pick f frames = some x') : Inv x' := by
  obtain ⟨n, level, phase⟩ := f
  cases phase with
  | opening =>
    cases hstep
    exact h.cleaning hk _
  | visiting todo remove =>
    cases todo with
    | nil =>
      cases hstep
      exact h.cleaning hk _
    | cons e todo =>
      obtain ⟨⟨l, m⟩, -, rfl⟩ := map_eq_some_iff.1 hstep
      exact h.cleaning hk _
  | unlinking remove =>
    cases remove with
    | nil =>
      cases hstep
      exact h.cleaning hk _
    | cons l remove =>
      obtain ⟨p, -, rfl⟩ := map_eq_some_iff.1 hstep
      exact h.cleaning hk _
  | unlinkingSwap l remove p =>
    simp only [Sys.advanceCleanup] at hstep
    split_ifs at hstep with hnone
    · cases hstep
      exact h.finish_false hk
    · split at hstep <;> cases hstep
      · rename_i y hy
        obtain ⟨t, ht, rfl⟩ := map_eq_some_iff.1 hy
        obtain ⟨hold, hset⟩ := Tree.sets_of_swap ht
        rw [hold] at hset hnone
        rw [isNone_iff_eq_none] at hnone
        obtain ⟨m, hm⟩ := ne_none_iff_exists'.1 hnone
        have hidle : x.Idle m := hok (Cells.pointer_of_swap ht) m hm
        have hl : t.Linked := by
          refine h.linked.sets hset rfl ?_
          intro l' j hj
          by_cases hl' : l' = l
          · subst hl'
            cases (lookup_assocErase_self ..).symm.trans hj
          · exact h.linked.child ((lookup_assocErase_of_ne hl' _).symm.trans hj)
        exact h.go hk (moves_unlink hset hm hidle rfl) rfl hl (callOk_cleaning _ _ rfl _) rfl
      · exact h.cleaning hk _
  | asking =>
    cases hstep
    exact h.cleaning hk _
  | askingChildren hasSubs => exact h.close hk hstep

end Cleanup

/-! ## Runs -/

theorem inv_start : Inv .start where
  linked := by
    refine ⟨Nat.zero_lt_one, rfl, ?_⟩
    intro n m l hm
    have hn : n = 0 := Nat.lt_one_iff.1 (Tree.lt_of_child hm)
    subst hn
    cases hm
  calls := fun h => nomatch h
  kept := fun h => nomatch h

theorem Inv.tick (h : Inv x) : Inv { x with moment := x.moment + 1 } :=
  ⟨h.linked, fun hk => (h.calls hk).congr rfl rfl, h.kept⟩

theorem callOk_first (hl : x.tree.Linked) (op : Op) (started : Nat) :
    CallOk x c ⟨op, x.firstStage op, started⟩ := by
  have harrive : CallOk x c ⟨op, Sys.arrive op 0 (splitLevels op.filter), started⟩ := by
    refine callOk_arrive (k := ⟨op, .returned false 0, started⟩) hl.size ?_ ?_
    · rw [hl.root, nil_append]
    · exact fun _ => hl.located_root
  have hreturned := callOk_returned x c ⟨op, .returned false 0, started⟩ false x.moment
  cases op with
  | cleanup => exact callOk_cleaning _ _ (k := ⟨.cleanup, .returned false 0, started⟩) rfl _
  | subscribe filter client options =>
    rw [Sys.firstStage]
    split
    · exact harrive
    · exact hreturned
  | unsubscribe filter client =>
    rw [Sys.firstStage]
    split
    · exact hreturned
    · exact harrive

theorem success_firstStage (x : Sys) (op : Op) : (x.firstStage op).success = false := by
  have harrive := success_of_node (node_arrive op 0 (splitLevels op.filter))
  cases op with
  | cleanup => rfl
  | subscribe filter client options =>
    rw [Sys.firstStage]
    split
    · exact harrive
    · rfl
  | unsubscribe filter client =>
    rw [Sys.firstStage]
    split
    · rfl
    · exact harrive

theorem Inv.call (h : Inv x) (op : Op) : Inv { x with
      calls := x.calls ++ [{ op := op, stage := x.firstStage op, started := x.moment }] } where
  linked := h.linked
  calls := by
    intro d k hk
    refine CallOk.congr (x := x) ?_ rfl rfl
    by_cases hd : d < x.calls.length
    · rw [List.getElem?_append_left hd] at hk
      exact h.calls hk
    · rw [List.getElem?_append_right (not_lt.1 hd)] at hk
      obtain rfl := mem_singleton.1 (mem_of_getElem? hk)
      exact callOk_first h.linked op x.moment
  kept := by
    rintro k filter client hk ⟨options, m, hop, hstage, hafter⟩
    rcases mem_append.1 hk with hold | hnew
    · refine h.kept hold ⟨options, m, hop, hstage, ?_⟩
      intro u hu
      exact hafter u (mem_append_left _ hu)
    · rw [mem_singleton.1 hnew] at hstage
      cases (success_firstStage x op).symm.trans (congrArg success hstage)

theorem Inv.step {e} (h : Inv x) (hok : e.Orderly x) (hstep : x.step e = some x') : Inv x' := by
  obtain ⟨y, hy, rfl⟩ := map_eq_some_iff.1 hstep
  refine Inv.tick ?_
  cases e with
  | call op =>
    cases hy
    exact h.call op
  | advance c pick =>
    obtain ⟨⟨op, s, started⟩, hk, hnext⟩ := bind_eq_some_iff.1 hy
    have hcall := hok _ hk
    split at hnext
    · rename_i f frames hs
      obtain rfl : s = .cleaning (f :: frames) := hs
      obtain rfl : op = .cleanup := (h.calls hk).cleans rfl
      exact h.advanceCleanup hk hcall hnext
    · exact h.advanceCall hk hcall hnext

/-- Every run of orderly steps keeps the invariant. -/
theorem inv_of_reach (h : Reach Sys.step (fun x e => e.Orderly x) (· = .start) x) : Inv x := by
  refine h.invariant ?_ ?_
  · rintro x rfl
    exact inv_start
  · intro x e x' hx hok hstep
    exact hx.step hok hstep

/-- In every run of orderly steps no successful subscription is lost, for every filter and
topic that match as the tree cuts them (`treeMatches_eq`: as the MQTT rules say,
unless one of them ends in `/`). -/
theorem subscriptions_kept (h : Reach Sys.step (fun x e => e.Orderly x) (· = .start) x)
    {filter topic : Str} (hne : topic ≠ []) (hlen : topic.length ≤ 65535)
    (hmatch : treeMatches filter topic) : x.Keeps filter topic := by
  intro _ client k hk hs o sort
  have hinv := inv_of_reach h
  obtain ⟨n, hpath, hlocated, hhas⟩ := hinv.kept hk hs
  rw [Tree.Located, hpath] at hlocated
  exact Tree.exists_mem_findSubscribers hne hlen hmatch hlocated hhas o sort

/-! ## Runs that keep and runs that lose -/

def steps (c count : Nat) : List Event := List.replicate count (.advance c 0)

/-- `c` subscribes to `a` and unsubscribes; a cleanup takes the node out and is not done when
`c` subscribes again. -/
def orderlyRun : List Event :=
  [.call (.subscribe [0x61] [0x63] {})] ++ steps 0 8 ++
    [.call (.unsubscribe [0x61] [0x63])] ++ steps 1 3 ++
    [.call .cleanup] ++ steps 2 12 ++
    [.call (.subscribe [0x61] [0x63] {})] ++ steps 3 8 ++ steps 2 1

def orderlySys : Sys := (runOk Sys.step (fun x e => e.Orderly x) .start orderlyRun).getD .start

theorem subscriptions_kept_again : orderlySys.calls.map (·.stage) =
        [.returned true 8, .returned true 12, .returned true 35, .returned true 34] ∧
      orderlySys.Keeps [0x61] [0x61] :=
  ⟨by decide +kernel,
    subscriptions_kept (reach_runOk_getD _ (.start rfl) (by decide +kernel)) (by decide)
      (by decide) (by decide)⟩

def unlinkedRun : List Event :=
  [.call (.subscribe [0x61] [0x63] {})] ++ steps 0 8 ++
    [.call (.unsubscribe [0x61] [0x63])] ++ steps 1 3 ++
    [.call .cleanup] ++ steps 2 8 ++
    [.call (.subscribe [0x61] [0x63] {})] ++ steps 3 3 ++ steps 2 5

/-- An `unsubscribe` begins, then a `subscribe` of the same pair begins and returns, and then
the `unsubscribe` goes on. -/
def overtakenRun : List Event :=
  [.call (.subscribe [0x61] [0x63] {})] ++ steps 0 8 ++
    [.call (.unsubscribe [0x61] [0x63])] ++ steps 1 1 ++
    [.call (.subscribe [0x61] [0x63] {})] ++ steps 2 3 ++ steps 1 2

def slashRun : List Event :=
  [.call (.subscribe [0x61] [0x63] {})] ++ steps 0 8 ++
    [.call (.unsubscribe [0x61, slash] [0x63])] ++ steps 1 3

def plusRun : List Event := [.call (.subscribe [0x61, slash, 0x2b] [0x63] {})] ++ steps 0 14

def Sys.after (events : List Event) : Sys :=
  (runOk Sys.step (fun _ _ => True) .start events).getD .start

theorem Sys.reach_after {events} (hrun : (runOk Sys.step (fun _ _ => True) .start events).isSome) :
    Reach Sys.step (fun _ _ => True) (· = .start) (Sys.after events) :=
  reach_runOk_getD _ (.start rfl) hrun

def Sys.clients (x : Sys) (topic : Str) : Option (List Str) :=
  (x.tree.findSubscribers .listed (stable _) topic).toOption.map (·.map (·.clientId))

theorem Sys.not_noneLost (filter topic client : Str) (started m : Nat) (hne : topic ≠ [])
    (hlen : topic.length ≤ 65535) (hmatch : mqttMatches filter topic)
    (hdone : ∀ k ∈ x.calls, k.stage.done)
    (hmem : ⟨.subscribe filter client {}, .returned true m, started⟩ ∈ x.calls)
    (hafter : ∀ u ∈ x.calls, u.op = .unsubscribe filter client → u.started ≤ m)
    (hlost : x.clients topic = some []) : ¬ x.NoneLost := by
  intro h
  obtain ⟨found, hfound, i, hi, -⟩ := h hne hlen hmatch hdone hmem ⟨{}, m, rfl, rfl, hafter⟩
    .listed (stable _)
  rw [Sys.clients, hfound] at hlost
  have hnil : found.map (·.clientId) = [] := Option.some.inj hlost
  rw [map_eq_nil_iff.1 hnil] at hi
  cases hi

/-- A client is lost to a cleanup, to an `unsubscribe` that began earlier, to an `unsubscribe`
of another filter, and to the trailing slash of the topic. -/
theorem subscriptions_lost : (∃ x, Reach Sys.step (fun _ _ => True) (· = .start) x ∧
      x.calls.map (·.op) = [.subscribe [0x61] [0x63] {}, .unsubscribe [0x61] [0x63], .cleanup,
        .subscribe [0x61] [0x63] {}] ∧ ¬ x.NoneLost) ∧
    (∃ x, Reach Sys.step (fun _ _ => True) (· = .start) x ∧
      x.calls.map (·.op) = [.subscribe [0x61] [0x63] {}, .unsubscribe [0x61] [0x63],
        .subscribe [0x61] [0x63] {}] ∧ ¬ x.NoneLost) ∧
    (∃ x, Reach Sys.step (fun _ _ => True) (· = .start) x ∧
      x.calls.map (·.op) = [.subscribe [0x61] [0x63] {}, .unsubscribe [0x61, slash] [0x63]] ∧
      ¬ x.NoneLost) ∧
    (∃ x, Reach Sys.step (fun _ _ => True) (· = .start) x ∧
      x.calls.map (·.op) = [.subscribe [0x61, slash, 0x2b] [0x63] {}] ∧ ¬ x.NoneLost) := by
  refine ⟨⟨Sys.after unlinkedRun, Sys.reach_after (by decide +kernel), by decide +kernel, ?_⟩,
    ⟨Sys.after overtakenRun, Sys.reach_after (by decide +kernel), by decide +kernel, ?_⟩,
    ⟨Sys.after slashRun, Sys.reach_after (by decide +kernel), by decide +kernel, ?_⟩,
    ⟨Sys.after plusRun, Sys.reach_after (by decide +kernel), by decide +kernel, ?_⟩⟩
  · exact Sys.not_noneLost [0x61] [0x61] [0x63] 22 25 (by decide) (by decide)
      (by decide) (by decide +kernel) (by decide +kernel) (by decide +kernel) (by decide +kernel)
  · exact Sys.not_noneLost [0x61] [0x61] [0x63] 11 14 (by decide) (by decide)
      (by decide) (by decide +kernel) (by decide +kernel) (by decide +kernel) (by decide +kernel)
  · exact Sys.not_noneLost [0x61] [0x61] [0x63] 0 8 (by decide) (by decide)
      (by decide) (by decide +kernel) (by decide +kernel) (by decide +kernel) (by decide +kernel)
  · exact Sys.not_noneLost [0x61, slash, 0x2b] [0x61, slash] [0x63] 0 14 (by decide) (by decide)
      (by decide) (by decide +kernel) (by decide +kernel) (by decide +kernel) (by decide +kernel)

end Mqtts.Concurrent
