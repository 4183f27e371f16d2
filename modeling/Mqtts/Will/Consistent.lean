import Mqtts.Will.Scheduler

/-!
# The two structures of the scheduler agree

The loops of the scheduler work one entry at a time.
-/

namespace Mqtts.Will

namespace WillScheduler

/-- Every entry of a queue has its iterator and its live generation, every iterator has its entry,
and the wills `fires` that were taken and are being published have a generation that is live, in
flight and shared with no other will of the client. -/
structure Consistent (fires : List Entry) (s : WillScheduler) : Prop where
  ordered : ∀ o, Ordered (s.queues o)
  entry : ∀ {o e}, e ∈ s.queues o → e.ref < s.allocated ∧ e.owner = o
  named : ∀ {o e}, e ∈ s.queues o → e.clientId ≠ []
  ref_inj : ∀ {o o' e e'}, e ∈ s.queues o → e' ∈ s.queues o' → e.ref = e'.ref → e = e'
  client : ∀ {o e}, e ∈ s.queues o → ∃ state,
    s.generations e.clientId = some state ∧ ⟨o, e.ref⟩ ∈ state.queued ∧ e.generation ∈ state.live
  queued : ∀ {c state p}, s.generations c = some state → p ∈ state.queued →
      ∃ e ∈ s.queues p.owner, e.ref = p.position ∧ e.clientId = c
  nodup : ∀ {c state}, s.generations c = some state → state.queued.Nodup
  bounded : ∀ {c state}, s.generations c = some state → ∀ g ∈ state.live, g ≤ state.next
  generation_inj : ∀ {o o' e e'}, e ∈ s.queues o → e' ∈ s.queues o' →
    e.clientId = e'.clientId → e.generation = e'.generation → e = e'
  fire : ∀ {f}, f ∈ fires → ∃ state, s.generations f.clientId = some state ∧
    f.generation ∈ state.live ∧ f.generation ∈ state.inflight
  fire_inj : ∀ {f f'}, f ∈ fires → f' ∈ fires → f.clientId = f'.clientId →
    f.generation = f'.generation → f = f'
  apart : ∀ {o e f}, e ∈ s.queues o → f ∈ fires → e.clientId = f.clientId →
    e.generation ≠ f.generation

open List

theorem consistent_new : Consistent [] {} where
  ordered := fun o => ⟨List.Pairwise.nil, nodup_nil⟩
  entry := fun he => by cases he
  named := fun he => by cases he
  ref_inj := fun he => by cases he
  client := fun he => by cases he
  queued := fun hstate => by cases hstate
  nodup := fun hstate => by cases hstate
  bounded := fun hstate => by cases hstate
  generation_inj := fun he => by cases he
  fire := fun hf => by cases hf
  fire_inj := fun hf => by cases hf
  apart := fun he => by cases he

variable {s : WillScheduler} {fires : List Entry} {e x : Entry} {o owner : Owner} {c : ClientId}
  {state state' : ClientGenerations} {p : Queued} {now : Time}

theorem Consistent.find_eq_some (h : Consistent fires s) :
    s.find p = some e ↔ e ∈ s.queues p.owner ∧ e.ref = p.position :=
  Will.find_eq_some (h.ordered p.owner)

variable {queue : DueQueue} {i fuel : Nat}

theorem mem_setQueue : x ∈ (s.setQueue owner queue).queues o ↔
      (o = owner ∧ x ∈ queue) ∨ (o ≠ owner ∧ x ∈ s.queues o) := by
  by_cases ho : o = owner
  · subst ho
    simp [setQueue]
  · simp [setQueue, ho]

theorem queues_setQueue : (s.setQueue owner queue).queues owner = queue :=
  Function.update_self ..

theorem queues_setQueue_of_ne (ho : o ≠ owner) : (s.setQueue owner queue).queues o = s.queues o :=
  Function.update_of_ne ho ..

theorem generations_setClient {c'} : ((s.setClient c state).setQueue owner queue).generations c' =
      if c' = c then some state else s.generations c' := by
  by_cases hc : c' = c
  · subst hc
    simp [setClient, setQueue]
  · simp [setClient, setQueue, hc]

/-! ## Taking an entry out of its queue -/

structure Forgets (state state' : ClientGenerations) (p : Queued) (g : Nat) : Prop where
  next : state'.next = state.next
  queued : ∀ x, x ∈ state'.queued ↔ x ∈ state.queued ∧ x ≠ p
  nodup : state'.queued.Nodup
  live_subset : state'.live ⊆ state.live
  live : ∀ g' ∈ state.live, g' ≠ g → g' ∈ state'.live
  inflight : state.inflight ⊆ state'.inflight

theorem forgets_swapRemove (hnodup : state.queued.Nodup) (hp : state.queued[i]? = some p) :
    (∀ x, x ∈ swapRemove state.queued i ↔ x ∈ state.queued ∧ x ≠ p) ∧
      (swapRemove state.queued i).Nodup := by
  obtain ⟨hi, -⟩ := List.getElem?_eq_some_iff.1 hp
  have hperm := swapRemove_perm hi
  refine ⟨?_, hperm.nodup_iff.2 (hnodup.sublist (eraseIdx_sublist _ _))⟩
  intro x
  rw [hperm.mem_iff, mem_eraseIdx_of_nodup hnodup hp]

theorem Consistent.mem_forget {o'} (h : Consistent fires s) (he : e ∈ s.queues o)
    (hmem : ∀ x, x ∈ queue ↔ x ∈ s.queues o ∧ x.ref ≠ e.ref) :
    x ∈ ((s.setClient c state').setQueue o queue).queues o' ↔ x ∈ s.queues o' ∧ x.ref ≠ e.ref := by
  rw [mem_setQueue]
  constructor
  · rintro (⟨rfl, hx⟩ | ⟨hne, hx⟩)
    · exact (hmem x).1 hx
    · refine ⟨hx, ?_⟩
      intro heq
      obtain rfl := h.ref_inj hx he heq
      exact hne ((h.entry hx).2.symm.trans (h.entry he).2)
  · rintro ⟨hx, hne⟩
    by_cases ho : o' = o
    · subst ho
      exact .inl ⟨rfl, (hmem x).2 ⟨hx, hne⟩⟩
    · exact .inr ⟨ho, hx⟩

/-- An iteration takes an entry out of its queue, for a will that is dropped as for one that is
taken. -/
theorem Consistent.forget (h : Consistent fires s) (he : e ∈ s.queues o)
    (hstate : s.generations e.clientId = some state)
    (hforget : Forgets state state' ⟨o, e.ref⟩ e.generation) (hsub : queue.Sublist (s.queues o))
    (hmem : ∀ x, x ∈ queue ↔ x ∈ s.queues o ∧ x.ref ≠ e.ref) :
    Consistent fires ((s.setClient e.clientId state').setQueue o queue) := by
  have hqueues : ∀ {o' : Owner} {x : Entry},
      x ∈ ((s.setClient e.clientId state').setQueue o queue).queues o' ↔
        x ∈ s.queues o' ∧ x.ref ≠ e.ref := h.mem_forget he hmem
  constructor
  case ordered =>
    intro o'
    by_cases ho : o' = o
    · subst ho
      rw [queues_setQueue]
      exact (h.ordered o').sublist hsub
    · rw [queues_setQueue_of_ne ho]
      exact h.ordered o'
  case entry => exact fun hx => h.entry (hqueues.1 hx).1
  case named => exact fun hx => h.named (hqueues.1 hx).1
  case ref_inj => exact fun hx hx' => h.ref_inj (hqueues.1 hx).1 (hqueues.1 hx').1
  case client =>
    intro o' x hx
    obtain ⟨hold, hne⟩ := hqueues.1 hx
    obtain ⟨st, hst, hqueued, hlive⟩ := h.client hold
    rw [generations_setClient]
    by_cases hc : x.clientId = e.clientId
    · rw [hc, hstate] at hst
      cases hst
      rw [if_pos hc]
      refine ⟨state', rfl, (hforget.queued _).2 ⟨hqueued, ?_⟩, hforget.live _ hlive ?_⟩
      · intro heq
        exact hne (congrArg Queued.position heq)
      · intro hg
        exact hne (congrArg Entry.ref (h.generation_inj hold he hc hg))
    · rw [if_neg hc]
      exact ⟨st, hst, hqueued, hlive⟩
  case queued =>
    intro c st p hst hp
    rw [generations_setClient] at hst
    split at hst
    · rename_i hc
      cases hst
      obtain ⟨hin, hne⟩ := (hforget.queued p).1 hp
      obtain ⟨x, hx, href, hclient⟩ := h.queued hstate hin
      refine ⟨x, hqueues.2 ⟨hx, ?_⟩, href, hclient.trans hc.symm⟩
      intro heq
      obtain rfl := h.ref_inj hx he heq
      have howner : p.owner = o := (h.entry hx).2.symm.trans (h.entry he).2
      exact hne (by rw [← howner, href])
    · rename_i hc
      obtain ⟨x, hx, href, hclient⟩ := h.queued hst hp
      refine ⟨x, hqueues.2 ⟨hx, ?_⟩, href, hclient⟩
      intro heq
      obtain rfl := h.ref_inj hx he heq
      exact hc hclient.symm
  case nodup =>
    intro c st hst
    rw [generations_setClient] at hst
    split at hst
    · cases hst
      exact hforget.nodup
    · exact h.nodup hst
  case bounded =>
    intro c st hst g hg
    rw [generations_setClient] at hst
    split at hst
    · cases hst
      rw [hforget.next]
      exact h.bounded hstate g (hforget.live_subset hg)
    · exact h.bounded hst g hg
  case generation_inj =>
    exact fun hx hx' => h.generation_inj (hqueues.1 hx).1 (hqueues.1 hx').1
  case fire =>
    intro f hf
    obtain ⟨st, hst, hlive, hinflight⟩ := h.fire hf
    rw [generations_setClient]
    by_cases hc : f.clientId = e.clientId
    · rw [hc, hstate] at hst
      cases hst
      rw [if_pos hc]
      have hne : f.generation ≠ e.generation := fun heq => h.apart he hf hc.symm heq.symm
      exact ⟨state', rfl, hforget.live _ hlive hne, hforget.inflight hinflight⟩
    · rw [if_neg hc]
      exact ⟨st, hst, hlive, hinflight⟩
  case fire_inj => exact h.fire_inj
  case apart => exact fun hx => h.apart (hqueues.1 hx).1

/-! ## Dropping the state of a client -/

theorem Consistent.dropClientIfIdle (h : Consistent fires s) (c : ClientId) :
    Consistent fires (s.dropClientIfIdle c) := by
  rw [WillScheduler.dropClientIfIdle]
  split
  · exact h
  rename_i state hstate
  split
  · rename_i hidle
    obtain ⟨hqueued, hlive, -⟩ := hidle
    -- A client with a will in a queue or in flight has a live generation.
    have hentry : ∀ {o : Owner} {e : Entry}, e ∈ s.queues o → e.clientId ≠ c := by
      rintro o e he rfl
      obtain ⟨st, hst, -, hmem⟩ := h.client he
      cases hstate.symm.trans hst
      rw [hlive] at hmem
      exact Finset.notMem_empty _ hmem
    have hfire : ∀ {f : Entry}, f ∈ fires → f.clientId ≠ c := by
      rintro f hf rfl
      obtain ⟨st, hst, hmem, -⟩ := h.fire hf
      cases hstate.symm.trans hst
      rw [hlive] at hmem
      exact Finset.notMem_empty _ hmem
    have hsome : ∀ {c' : ClientId} {st : ClientGenerations},
        (s.dropClient c).generations c' = some st → s.generations c' = some st := by
      intro c' st hst
      by_cases hc : c' = c
      · subst hc
        simp [dropClient] at hst
      · simpa [dropClient, hc] using hst
    have hne : ∀ {c' : ClientId}, c' ≠ c → (s.dropClient c).generations c' = s.generations c' := by
      intro c' hc
      simp [dropClient, hc]
    exact {
      ordered := h.ordered
      entry := h.entry
      named := h.named
      ref_inj := h.ref_inj
      client := fun he => by rw [hne (hentry he)]; exact h.client he
      queued := fun hst hp => h.queued (hsome hst) hp
      nodup := fun hst => h.nodup (hsome hst)
      bounded := fun hst => h.bounded (hsome hst)
      generation_inj := h.generation_inj
      fire := fun hf => by rw [hne (hfire hf)]; exact h.fire hf
      fire_inj := h.fire_inj
      apart := h.apart }
  · exact h

theorem queues_dropClientIfIdle : (s.dropClientIfIdle c).queues = s.queues := by
  rw [dropClientIfIdle]
  split
  · rfl
  · split <;> rfl

theorem allocated_dropClientIfIdle : (s.dropClientIfIdle c).allocated = s.allocated := by
  rw [dropClientIfIdle]
  split
  · rfl
  · split <;> rfl

/-! ## A client that comes back -/

abbrev suppressed (state : ClientGenerations) (e : Entry) (i : Nat) : ClientGenerations :=
  { state with live := state.live.erase e.generation, queued := swapRemove state.queued i }

/-- An iteration of `suppress_pending` that drops the entry. -/
abbrev suppressOne (s : WillScheduler) (c : ClientId) (state : ClientGenerations) (e : Entry)
    (p : Queued) (i : Nat) : WillScheduler :=
  (s.setClient c (suppressed state e i)).setQueue p.owner (eraseAt p.position (s.queues p.owner))

theorem Consistent.suppressOne (h : Consistent fires s) (hstate : s.generations c = some state)
    (hp : state.queued[i]? = some p) (he : e ∈ s.queues p.owner) (href : e.ref = p.position)
    (hclient : e.clientId = c) : Consistent fires (s.suppressOne c state e p i) := by
  subst hclient
  obtain ⟨hqueued, hnodup⟩ := forgets_swapRemove (h.nodup hstate) hp
  refine h.forget he hstate ?_ (eraseAt_sublist _ _) ?_
  · refine ⟨rfl, ?_, hnodup, Finset.erase_subset _ _, ?_, Finset.Subset.refl _⟩
    · rw [href]
      exact hqueued
    · exact fun g hg hne => Finset.mem_erase.2 ⟨hne, hg⟩
  · intro x
    rw [mem_eraseAt (h.ordered p.owner), href]

theorem suppressLoop_end (hstate : s.generations c = some state) (hi : state.queued[i]? = none) :
    suppressLoop c now (fuel + 1) i s = s := by
  simp only [suppressLoop, hstate, hi]

theorem suppressLoop_next (hstate : s.generations c = some state) (hp : state.queued[i]? = some p)
    (hfind : s.find p = some e) :
    suppressLoop c now (fuel + 1) i s =
      if now < e.due then suppressLoop c now fuel i (s.suppressOne c state e p i)
      else suppressLoop c now fuel (i + 1) s := by
  simp only [suppressLoop, hstate, hp, hfind]

def DueBefore (s : WillScheduler) (state : ClientGenerations) (now : Time) (i : Nat) : Prop :=
  ∀ j p e, j < i → state.queued[j]? = some p → s.find p = some e → ¬ now < e.due

theorem Consistent.mem_iff_of_dueBefore (h : Consistent fires s)
    (hstate : s.generations c = some state) (hdone : DueBefore s state now i)
    (hi : state.queued.length ≤ i) :
    x ∈ s.queues o ↔ x ∈ s.queues o ∧ ¬ (x.clientId = c ∧ now < x.due) := by
  refine ⟨?_, fun hx => hx.1⟩
  intro hx
  refine ⟨hx, ?_⟩
  rintro ⟨rfl, hdue⟩
  obtain ⟨st, hst, hqueued, -⟩ := h.client hx
  cases hstate.symm.trans hst
  obtain ⟨j, hj, heq⟩ := mem_iff_getElem.1 hqueued
  have hget : state.queued[j]? = some ⟨o, x.ref⟩ := by rw [List.getElem?_eq_getElem hj, heq]
  exact hdone j _ x (by omega) hget (h.find_eq_some.2 ⟨hx, rfl⟩) hdue

theorem Consistent.suppressLoop (h : Consistent fires s) (hstate : s.generations c = some state)
    (hfuel : state.queued.length ≤ i + fuel) (hdone : DueBefore s state now i) :
    Consistent fires (suppressLoop c now fuel i s) ∧
      (∀ o x, x ∈ (suppressLoop c now fuel i s).queues o ↔
        x ∈ s.queues o ∧ ¬ (x.clientId = c ∧ now < x.due)) ∧
      (suppressLoop c now fuel i s).allocated = s.allocated := by
  induction fuel generalizing i s state with
  | zero => exact ⟨h, fun o x => h.mem_iff_of_dueBefore hstate hdone hfuel, rfl⟩
  | succ fuel ih =>
    cases hp : state.queued[i]? with
    | none =>
      rw [suppressLoop_end hstate hp]
      have hi := List.getElem?_eq_none_iff.1 hp
      exact ⟨h, fun o x => h.mem_iff_of_dueBefore hstate hdone hi, rfl⟩
    | some p =>
      obtain ⟨hi, hget⟩ := List.getElem?_eq_some_iff.1 hp
      obtain ⟨e, he, href, hclient⟩ := h.queued hstate (mem_of_getElem? hp)
      rw [suppressLoop_next hstate hp (h.find_eq_some.2 ⟨he, href⟩)]
      split
      · rename_i hlater
        have hstep := h.suppressOne hstate hp he href hclient
        have hmem : ∀ {o x}, x ∈ (s.suppressOne c state e p i).queues o ↔
            x ∈ s.queues o ∧ x.ref ≠ e.ref := by
          refine h.mem_forget he ?_
          intro x
          rw [mem_eraseAt (h.ordered p.owner), href]
        have hstate' :
            (s.suppressOne c state e p i).generations c = some (suppressed state e i) := by
          rw [generations_setClient, if_pos rfl]
        have hlength : (swapRemove state.queued i).length ≤ i + fuel := by
          rw [(swapRemove_perm hi).length_eq, length_eraseIdx_of_lt hi]
          omega
        obtain ⟨hcons, hiff, halloc⟩ := ih hstep hstate' hlength (by
          intro j p' x hj hp' hfind
          rw [show (swapRemove state.queued i)[j]? = state.queued[j]? from
            swapRemove_prefix hj hi] at hp'
          obtain ⟨hx, hxref⟩ := hstep.find_eq_some.1 hfind
          exact hdone j p' x hj hp' (h.find_eq_some.2 ⟨(hmem.1 hx).1, hxref⟩))
        refine ⟨hcons, ?_, halloc⟩
        intro o x
        rw [hiff, hmem, and_assoc]
        refine and_congr_right ?_
        intro hx
        refine ⟨fun hand => hand.2, ?_⟩
        intro hnot
        refine ⟨?_, hnot⟩
        intro heq
        obtain rfl := h.ref_inj hx he heq
        exact hnot ⟨hclient, hlater⟩
      · rename_i hdue
        refine ih h hstate (by omega) ?_
        intro j p' x hj hp' hfind
        by_cases hji : j = i
        · subst hji
          cases hp.symm.trans hp'
          have hx := h.find_eq_some.1 hfind
          obtain rfl := h.ref_inj hx.1 he (hx.2.trans href.symm)
          exact hdue
        · exact hdone j p' x (by omega) hp' hfind

/-- What the queues hold after the loop of `suppress_pending`. -/
theorem Consistent.cancel (h : Consistent fires s) (c : ClientId) (now : Time) :
    Consistent fires (s.cancel c now) ∧ (∀ o x, x ∈ (s.cancel c now).queues o ↔
        x ∈ s.queues o ∧ ¬ (x.clientId = c ∧ now < x.due)) ∧
      (s.cancel c now).allocated = s.allocated := by
  -- Without wills of the client there is nothing to drop.
  have hnone : (∀ {o x}, x ∈ s.queues o → x.clientId ≠ c) → ∀ o x, x ∈ s.queues o ↔
      x ∈ s.queues o ∧ ¬ (x.clientId = c ∧ now < x.due) :=
    fun hne o x => ⟨fun hx => ⟨hx, fun hand => hne hx hand.1⟩, fun hx => hx.1⟩
  rw [WillScheduler.cancel]
  split
  · rename_i hc
    exact ⟨h, hnone fun hx => hc ▸ h.named hx, rfl⟩
  rw [suppressPending]
  cases hstate : s.generations c with
  | none =>
    refine ⟨h, hnone ?_, rfl⟩
    rintro o x hx rfl
    obtain ⟨st, hst, -⟩ := h.client hx
    rw [hstate] at hst
    cases hst
  | some state =>
    have hlength : state.queued.length ≤ 0 + state.queued.length := Nat.le_of_eq
      (Nat.zero_add _).symm
    obtain ⟨hcons, hiff, halloc⟩ := h.suppressLoop hstate hlength
      (fun j p e hj => absurd hj (Nat.not_lt_zero j))
    refine ⟨hcons.dropClientIfIdle c, ?_, allocated_dropClientIfIdle.trans halloc⟩
    intro o x
    rw [queues_dropClientIfIdle]
    exact hiff o x

end WillScheduler

end Mqtts.Will
