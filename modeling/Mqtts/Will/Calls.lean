import Mqtts.Will.Consistent

/-!
# The calls of the scheduler

Every call keeps the structures of the scheduler consistent, and changes the queues as its name
says.
-/

namespace Mqtts.Will

open List Function

def Entry.endIf (b : Bool) (e : Entry) : Entry := { e with due := if b then 0 else e.due }

theorem Entry.endIf_endIf (b b' : Bool) (e : Entry) : (e.endIf b).endIf b' = e.endIf (b || b') := by
  cases b <;> cases b' <;> rfl

namespace WillScheduler

variable {s : WillScheduler} {fires : List Entry} {e x : Entry} {o owner : Owner} {c : ClientId}
  {state state' : ClientGenerations} {p : Queued} {now : Time}

/-! ## A session that ends -/

section

variable (h : Consistent fires s)
include h

theorem Consistent.endIf {s'} {b : Owner → Entry → Bool} (hordered : ∀ o, Ordered (s'.queues o))
    (hmem : ∀ {o x}, x ∈ s'.queues o ↔ ∃ y ∈ s.queues o, x = y.endIf (b o y))
    (hgenerations : s'.generations = s.generations) (hallocated : s'.allocated = s.allocated) :
    Consistent fires s' where
  ordered := hordered
  entry := by
    intro o e he
    obtain ⟨y, hy, rfl⟩ := hmem.1 he
    rw [hallocated]
    exact h.entry (e := y) hy
  named := by
    intro o e he
    obtain ⟨y, hy, rfl⟩ := hmem.1 he
    exact h.named (e := y) hy
  ref_inj := by
    intro o o' e e' he he' href
    obtain ⟨y, hy, rfl⟩ := hmem.1 he
    obtain ⟨y', hy', rfl⟩ := hmem.1 he'
    obtain rfl := h.ref_inj hy hy' href
    rw [← (h.entry hy).2, ← (h.entry hy').2]
  client := by
    intro o e he
    obtain ⟨y, hy, rfl⟩ := hmem.1 he
    rw [hgenerations]
    exact h.client (e := y) hy
  queued := by
    intro c state p hstate hp
    rw [hgenerations] at hstate
    obtain ⟨y, hy, href, hclient⟩ := h.queued hstate hp
    exact ⟨_, hmem.2 ⟨y, hy, rfl⟩, href, hclient⟩
  nodup := fun hstate => h.nodup (hgenerations ▸ hstate)
  bounded := fun hstate => h.bounded (hgenerations ▸ hstate)
  generation_inj := by
    intro o o' e e' he he' hclient hgeneration
    obtain ⟨y, hy, rfl⟩ := hmem.1 he
    obtain ⟨y', hy', rfl⟩ := hmem.1 he'
    obtain rfl := h.generation_inj hy hy' hclient hgeneration
    rw [← (h.entry hy).2, ← (h.entry hy').2]
  fire := fun hf => hgenerations ▸ h.fire hf
  fire_inj := h.fire_inj
  apart := by
    intro o e f he hf hclient
    obtain ⟨y, hy, rfl⟩ := hmem.1 he
    exact h.apart (e := y) hy hf hclient

theorem Consistent.expireOne (he : e ∈ s.queues p.owner) (href : e.ref = p.position) :
    Consistent fires (s.expireOne p) ∧ (∀ o x, x ∈ (s.expireOne p).queues o ↔
        ∃ y ∈ s.queues o, x = y.endIf (p == ⟨o, y.ref⟩)) ∧
      (s.expireOne p).allocated = s.allocated ∧
      (s.expireOne p).generations = s.generations := by
  have hstep : s.expireOne p = s.setQueue p.owner
      (emplace { e with due := 0 } (eraseAt p.position (s.queues p.owner))) := by
    rw [WillScheduler.expireOne, h.find_eq_some.2 ⟨he, href⟩]
  have hmem : ∀ o x, x ∈ (s.expireOne p).queues o ↔
      ∃ y ∈ s.queues o, x = y.endIf (p == ⟨o, y.ref⟩) := by
    intro o x
    rw [hstep, mem_setQueue, mem_emplace, mem_eraseAt (h.ordered p.owner)]
    constructor
    · rintro (⟨rfl, rfl | ⟨hx, hne⟩⟩ | ⟨ho, hx⟩)
      · refine ⟨e, he, ?_⟩
        rw [beq_iff_eq.2 (show p = ⟨p.owner, e.ref⟩ by rw [href])]
        rfl
      · refine ⟨x, hx, ?_⟩
        rw [beq_eq_false_iff_ne.2 fun heq => hne (congrArg Queued.position heq).symm]
        rfl
      · refine ⟨x, hx, ?_⟩
        rw [beq_eq_false_iff_ne.2 fun heq => ho (congrArg Queued.owner heq).symm]
        rfl
    · rintro ⟨y, hy, rfl⟩
      by_cases hp : p = ⟨o, y.ref⟩
      · rw [beq_iff_eq.2 hp]
        subst hp
        obtain rfl := h.ref_inj he hy href
        exact .inl ⟨rfl, .inl rfl⟩
      · rw [beq_eq_false_iff_ne.2 hp]
        by_cases ho : o = p.owner
        · subst ho
          exact .inl ⟨rfl, .inr ⟨hy, fun (heq : y.ref = _) => hp (by rw [heq])⟩⟩
        · exact .inr ⟨ho, hy⟩
  have hordered : ∀ o, Ordered ((s.expireOne p).queues o) := by
    intro o
    rw [hstep]
    by_cases ho : o = p.owner
    · subst ho
      rw [queues_setQueue]
      refine ((h.ordered _).sublist (eraseAt_sublist _ _)).emplace ?_
      intro x hx
      rw [href]
      exact ((mem_eraseAt (h.ordered _)).1 hx).2
    · rw [queues_setQueue_of_ne ho]
      exact h.ordered o
  have hrest : (s.expireOne p).allocated = s.allocated ∧
      (s.expireOne p).generations = s.generations := by
    rw [hstep]
    exact ⟨rfl, rfl⟩
  exact ⟨h.endIf hordered (hmem _ _) hrest.2 hrest.1, hmem, hrest⟩

theorem Consistent.expireLoop {l : List Queued}
    (hl : ∀ p ∈ l, ∃ e ∈ s.queues p.owner, e.ref = p.position) :
    Consistent fires (l.foldl WillScheduler.expireOne s) ∧
      (∀ o x, x ∈ (l.foldl WillScheduler.expireOne s).queues o ↔
        ∃ y ∈ s.queues o, x = y.endIf (l.contains ⟨o, y.ref⟩)) ∧
      (l.foldl WillScheduler.expireOne s).allocated = s.allocated := by
  induction l generalizing s with
  | nil =>
    refine ⟨h, ?_, rfl⟩
    intro o x
    exact ⟨fun hx => ⟨x, hx, rfl⟩, fun ⟨y, hy, hxy⟩ => hxy ▸ hy⟩
  | cons p l ih =>
    obtain ⟨⟨e, he, href⟩, hrest⟩ := forall_mem_cons.1 hl
    obtain ⟨hone, hmem, halloc, -⟩ := h.expireOne he href
    have hl' : ∀ p' ∈ l, ∃ e ∈ (s.expireOne p).queues p'.owner, e.ref = p'.position := by
      intro p' hp'
      obtain ⟨y, hy, hyref⟩ := hrest p' hp'
      exact ⟨_, (hmem _ _).2 ⟨y, hy, rfl⟩, hyref⟩
    obtain ⟨hcons, hiff, halloc'⟩ := ih hone hl'
    refine ⟨hcons, ?_, halloc'.trans halloc⟩
    intro o x
    rw [foldl_cons, hiff]
    constructor
    · rintro ⟨y', hy', rfl⟩
      obtain ⟨y, hy, rfl⟩ := (hmem _ _).1 hy'
      refine ⟨y, hy, ?_⟩
      rw [Entry.endIf_endIf, contains_cons, Bool.beq_comm]
      rfl
    · rintro ⟨y, hy, rfl⟩
      refine ⟨_, (hmem _ _).2 ⟨y, hy, rfl⟩, ?_⟩
      rw [Entry.endIf_endIf, contains_cons, Bool.beq_comm]
      rfl

/-- The wills of a client are due at once. -/
theorem Consistent.expireNow (c : ClientId) :
    Consistent fires (s.expireNow c) ∧ (∀ o x, x ∈ (s.expireNow c).queues o ↔
        ∃ y ∈ s.queues o, x = y.endIf (y.clientId == c)) ∧
      (s.expireNow c).allocated = s.allocated := by
  have hnone : (∀ {o x}, x ∈ s.queues o → x.clientId ≠ c) → ∀ o x, x ∈ s.queues o ↔
      ∃ y ∈ s.queues o, x = y.endIf (y.clientId == c) := by
    intro hne o x
    constructor
    · intro hx
      refine ⟨x, hx, ?_⟩
      rw [beq_eq_false_iff_ne.2 (hne hx)]
      rfl
    · rintro ⟨y, hy, rfl⟩
      rw [beq_eq_false_iff_ne.2 (hne hy)]
      exact hy
  rw [WillScheduler.expireNow]
  split
  · rename_i hc
    exact ⟨h, hnone fun hx => hc ▸ h.named hx, rfl⟩
  cases hstate : s.generations c with
  | none =>
    refine ⟨h, hnone ?_, rfl⟩
    rintro o x hx rfl
    obtain ⟨st, hst, -⟩ := h.client hx
    rw [hstate] at hst
    cases hst
  | some state =>
    obtain ⟨hcons, hiff, halloc⟩ := h.expireLoop fun p hp => by
      obtain ⟨e, he, href, -⟩ := h.queued hstate hp
      exact ⟨e, he, href⟩
    refine ⟨hcons, ?_, halloc⟩
    intro o x
    rw [hiff]
    have hcontains : ∀ y ∈ s.queues o, state.queued.contains ⟨o, y.ref⟩ = (y.clientId == c) := by
      intro y hy
      rw [Bool.eq_iff_iff, contains_iff_mem, beq_iff_eq]
      constructor
      · intro hmem
        obtain ⟨e, he, href, hclient⟩ := h.queued hstate hmem
        obtain rfl := h.ref_inj he hy href
        exact hclient
      · rintro rfl
        obtain ⟨st, hst, hqueued, -⟩ := h.client hy
        cases hstate.symm.trans hst
        exact hqueued
    constructor <;> rintro ⟨y, hy, rfl⟩
    · exact ⟨y, hy, by rw [hcontains y hy]⟩
    · exact ⟨y, hy, by rw [hcontains y hy]⟩

/-! ## Wills that are due -/

theorem Consistent.mono {fires'} (hsub : ∀ f ∈ fires', f ∈ fires) : Consistent fires' s :=
  { h with
    fire := fun hf => h.fire (hsub _ hf)
    fire_inj := fun hf hf' => h.fire_inj (hsub _ hf) (hsub _ hf')
    apart := fun he hf => h.apart he (hsub _ hf) }

end

theorem forgetQueued_eq {ref} (hp : p ∈ state.queued) (href : p.position = ref)
    (huniq : ∀ x ∈ state.queued, x.position = ref → x = p) :
    ∃ i, state.queued[i]? = some p ∧
      forgetQueued state ref = { state with queued := swapRemove state.queued i } := by
  have hsome : (state.queued.findIdx? fun x => x.position == ref).isSome := by
    rw [List.findIdx?_isSome, any_eq_true]
    exact ⟨p, hp, beq_iff_eq.2 href⟩
  obtain ⟨i, hi⟩ := Option.isSome_iff_exists.1 hsome
  obtain ⟨hlt, hpos, -⟩ := List.findIdx?_eq_some_iff_getElem.1 hi
  refine ⟨i, ?_, ?_⟩
  · rw [List.getElem?_eq_getElem hlt, huniq _ (getElem_mem hlt) (beq_iff_eq.1 hpos)]
  · rw [forgetQueued, hi]

theorem Consistent.takeOne {rest : DueQueue} (h : Consistent fires s)
    (hqueue : s.queues owner = e :: rest) :
    (s.takeOne owner e rest).1 = some e ∧ Consistent (e :: fires) (s.takeOne owner e rest).2 ∧
      (s.takeOne owner e rest).2.queues = Function.update s.queues owner rest ∧
      (s.takeOne owner e rest).2.allocated = s.allocated := by
  have he : e ∈ s.queues owner := by
    rw [hqueue]
    exact mem_cons_self
  obtain ⟨state, hstate, hqueued, hlive⟩ := h.client he
  obtain ⟨i, hp, hforget⟩ := forgetQueued_eq hqueued rfl (by
    intro x hx hposition
    obtain ⟨y, hy, href, -⟩ := h.queued hstate hx
    obtain rfl := h.ref_inj hy he (href.trans hposition)
    have howner : x.owner = owner := (h.entry hy).2.symm.trans (h.entry he).2
    rw [← howner, href])
  obtain ⟨hmem, hnodup⟩ := forgets_swapRemove (h.nodup hstate) hp
  have hrest : ∀ x, x ∈ rest ↔ x ∈ s.queues owner ∧ x.ref ≠ e.ref := by
    have hrefs := (h.ordered owner).nodup
    rw [hqueue, map_cons, nodup_cons] at hrefs
    intro x
    rw [hqueue, mem_cons]
    constructor
    · intro hx
      exact ⟨.inr hx, fun heq => hrefs.1 (mem_map.2 ⟨x, hx, heq⟩)⟩
    · rintro ⟨rfl | hx, hne⟩
      · exact (hne rfl).elim
      · exact hx
  have hsub : rest.Sublist (s.queues owner) := hqueue ▸ sublist_cons_self e rest
  have hstep : s.takeOne owner e rest = (some e, (s.setClient e.clientId
      { state with
        queued := swapRemove state.queued i
        inflight := insert e.generation state.inflight }).setQueue owner rest) := by
    rw [WillScheduler.takeOne, hstate]
    simp only [hforget]
    rw [if_pos hlive]
  rw [hstep]
  have hforgets : Forgets state
      { state with
        queued := swapRemove state.queued i
        inflight := insert e.generation state.inflight } ⟨owner, e.ref⟩ e.generation :=
    ⟨rfl, hmem, hnodup, Finset.Subset.refl _, fun g hg _ => hg, Finset.subset_insert _ _⟩
  have hcons := h.forget he hstate hforgets hsub hrest
  refine ⟨rfl, ?_, rfl, rfl⟩
  exact { hcons with
    fire := by
      intro f hf
      rcases mem_cons.1 hf with rfl | hin
      · rw [generations_setClient, if_pos rfl]
        exact ⟨_, rfl, hlive, Finset.mem_insert_self _ _⟩
      · exact hcons.fire hin
    fire_inj := by
      intro f f' hf hf' hclient hgeneration
      rcases mem_cons.1 hf with rfl | hin
      · rcases mem_cons.1 hf' with rfl | hin'
        · rfl
        · exact (h.apart he hin' hclient hgeneration).elim
      · rcases mem_cons.1 hf' with rfl | hin'
        · exact (h.apart he hin hclient.symm hgeneration.symm).elim
        · exact h.fire_inj hin hin' hclient hgeneration
    apart := by
      intro o x f hx hf hclient hgeneration
      rcases mem_cons.1 hf with rfl | hin
      · obtain ⟨hold, hne⟩ := (h.mem_forget he hrest).1 hx
        exact hne (congrArg Entry.ref (h.generation_inj hold he hclient hgeneration))
      · exact hcons.apart hx hin hclient hgeneration }

/-- The entries that `take_due` hands out. -/
def isDue (now : Time) (flushAll : Bool) (e : Entry) : Bool := decide (flushAll ∨ e.due ≤ now)

theorem Consistent.takeLoop {fuel} (h : Consistent fires s) (now : Time) (flushAll : Bool)
    (hfuel : (s.queues owner).length ≤ fuel) :
    (takeLoop owner now flushAll fuel s).1 = (s.queues owner).takeWhile (isDue now flushAll) ∧
      Consistent (fires ++ (takeLoop owner now flushAll fuel s).1)
        (takeLoop owner now flushAll fuel s).2 ∧
      (takeLoop owner now flushAll fuel s).2.queues =
        Function.update s.queues owner ((s.queues owner).dropWhile (isDue now flushAll)) ∧
      (takeLoop owner now flushAll fuel s).2.allocated = s.allocated := by
  induction fuel generalizing s fires with
  | zero =>
    have hnil : s.queues owner = [] := length_eq_zero_iff.1 (Nat.le_zero.1 hfuel)
    rw [takeLoop, append_nil, hnil]
    refine ⟨rfl, h, ?_, rfl⟩
    rw [dropWhile_nil, ← hnil, update_eq_self]
  | succ fuel ih =>
    cases hqueue : s.queues owner with
    | nil =>
      simp only [takeLoop, hqueue, append_nil]
      refine ⟨rfl, h, ?_, trivial⟩
      rw [dropWhile_nil, ← hqueue, update_eq_self]
    | cons e rest =>
      by_cases hdue : flushAll ∨ e.due ≤ now
      · obtain ⟨htaken, hcons, hqueues, halloc⟩ := h.takeOne hqueue
        have hrest : (s.takeOne owner e rest).2.queues owner = rest := by
          rw [hqueues, update_self]
        have hlength : ((s.takeOne owner e rest).2.queues owner).length ≤ fuel := by
          rw [hrest]
          rw [hqueue, length_cons] at hfuel
          omega
        obtain ⟨hlist, hcons', hqueues', halloc'⟩ := ih hcons hlength
        have hloop : takeLoop owner now flushAll (fuel + 1) s =
            (e :: (takeLoop owner now flushAll fuel (s.takeOne owner e rest).2).1,
              (takeLoop owner now flushAll fuel (s.takeOne owner e rest).2).2) := by
          simp only [takeLoop, hqueue, if_pos hdue, htaken]
          rfl
        have hbool : isDue now flushAll e := decide_eq_true hdue
        rw [hloop, takeWhile_cons_of_pos hbool, dropWhile_cons_of_pos hbool]
        rw [hrest] at hlist hqueues'
        refine ⟨by rw [hlist], hcons'.mono ?_, ?_, halloc'.trans halloc⟩
        · intro f hf
          simpa [or_left_comm] using hf
        · rw [hqueues', hqueues, update_idem]
      · have hbool : ¬ isDue now flushAll e := fun htrue => hdue (of_decide_eq_true htrue)
        rw [takeWhile_cons_of_neg hbool, dropWhile_cons_of_neg hbool]
        simp only [takeLoop, hqueue, if_neg hdue, append_nil]
        refine ⟨trivial, h, ?_, trivial⟩
        rw [← hqueue, update_eq_self]

theorem takeWhile_of_sorted {queue : DueQueue} (now : Time) (flushAll : Bool)
    (h : queue.Pairwise fun x y => x.due ≤ y.due) :
    queue.takeWhile (isDue now flushAll) = queue.filter (isDue now flushAll) ∧
      queue.dropWhile (isDue now flushAll) = queue.filter (fun e => !isDue now flushAll e) := by
  induction queue with
  | nil => exact ⟨rfl, rfl⟩
  | cons e queue ih =>
    obtain ⟨he, hqueue⟩ := pairwise_cons.1 h
    cases hdue : isDue now flushAll e with
    | true =>
      obtain ⟨htake, hdrop⟩ := ih hqueue
      simp [hdue, htake, hdrop]
    | false =>
      -- What follows an entry that is not due is not due either.
      have hlater : ∀ x ∈ queue, isDue now flushAll x = false := by
        intro x hx
        have hnot := of_decide_eq_false hdue
        refine decide_eq_false ?_
        rintro (hflush | hle)
        · exact hnot (.inl hflush)
        · exact hnot (.inr ((he x hx).trans hle))
      have hnone : queue.filter (isDue now flushAll) = [] :=
        filter_eq_nil_iff.2 fun x hx => by rw [hlater x hx]; exact Bool.false_ne_true
      have hall : queue.filter (fun e => !isDue now flushAll e) = queue :=
        filter_eq_self.2 fun x hx => by rw [hlater x hx]; rfl
      simp [hdue, hnone, hall]

section

variable (h : Consistent fires s)
include h

/-- The entries of an owner that are due are handed out. -/
theorem Consistent.takeDue (owner : Owner) (now : Time) (flushAll : Bool) :
    (s.takeDue owner now flushAll).1 = (s.queues owner).filter (isDue now flushAll) ∧
      Consistent (fires ++ (s.takeDue owner now flushAll).1) (s.takeDue owner now flushAll).2 ∧
      (∀ o x, x ∈ (s.takeDue owner now flushAll).2.queues o ↔
        x ∈ s.queues o ∧ ¬ (o = owner ∧ isDue now flushAll x)) ∧
      (s.takeDue owner now flushAll).2.allocated = s.allocated := by
  obtain ⟨htake, hdrop⟩ := takeWhile_of_sorted now flushAll (h.ordered owner).sorted
  obtain ⟨hlist, hcons, hqueues, halloc⟩ :=
    h.takeLoop now flushAll (Nat.le_refl (s.queues owner).length)
  rw [htake] at hlist
  rw [hdrop] at hqueues
  refine ⟨hlist, hcons, ?_, halloc⟩
  intro o x
  rw [WillScheduler.takeDue, hqueues]
  by_cases ho : o = owner
  · subst ho
    simp [update_self]
  · simp [ho]

/-! ## Completions -/

theorem Consistent.setClient {fires'}
    (hstate : s.generations c = some state) (hsub : ∀ f ∈ fires', f ∈ fires)
    (hnext : state'.next = state.next) (hqueued : state'.queued = state.queued)
    (hlive : state'.live ⊆ state.live)
    (hentry : ∀ {o e}, e ∈ s.queues o → e.clientId = c → e.generation ∈ state.live →
      e.generation ∈ state'.live)
    (hfire : ∀ {f}, f ∈ fires' → f.clientId = c → f.generation ∈ state.live →
      f.generation ∈ state.inflight → f.generation ∈ state'.live ∧ f.generation ∈ state'.inflight) :
    Consistent fires' (s.setClient c state') := by
  have hself : (s.setClient c state').generations c = some state' := update_self ..
  have hother : ∀ {c'}, c' ≠ c → (s.setClient c state').generations c' = s.generations c' :=
    fun hc => update_of_ne hc ..
  have hcases : ∀ {c' st}, (s.setClient c state').generations c' = some st →
      (c' = c ∧ st = state') ∨ s.generations c' = some st := by
    intro c' st hst
    by_cases hc : c' = c
    · subst hc
      exact .inl ⟨rfl, (Option.some.inj (hself.symm.trans hst)).symm⟩
    · rw [hother hc] at hst
      exact .inr hst
  constructor
  case ordered => exact h.ordered
  case entry => exact h.entry
  case named => exact h.named
  case ref_inj => exact h.ref_inj
  case client =>
    intro o e he
    obtain ⟨st, hst, hin, hmem⟩ := h.client he
    by_cases hc : e.clientId = c
    · rw [hc, hstate] at hst
      cases hst
      rw [hc, hself]
      exact ⟨state', rfl, hqueued ▸ hin, hentry he hc hmem⟩
    · rw [hother hc]
      exact ⟨st, hst, hin, hmem⟩
  case queued =>
    intro c' st p hst hp
    rcases hcases hst with ⟨rfl, rfl⟩ | hold
    · exact h.queued hstate (hqueued ▸ hp)
    · exact h.queued hold hp
  case nodup =>
    intro c' st hst
    rcases hcases hst with ⟨rfl, rfl⟩ | hold
    · exact hqueued ▸ h.nodup hstate
    · exact h.nodup hold
  case bounded =>
    intro c' st hst g hg
    rcases hcases hst with ⟨rfl, rfl⟩ | hold
    · exact hnext ▸ h.bounded hstate g (hlive hg)
    · exact h.bounded hold g hg
  case generation_inj => exact h.generation_inj
  case fire =>
    intro f hf
    obtain ⟨st, hst, hmem, hin⟩ := h.fire (hsub f hf)
    by_cases hc : f.clientId = c
    · rw [hc, hstate] at hst
      cases hst
      rw [hc, hself]
      exact ⟨state', rfl, hfire hf hc hmem hin⟩
    · rw [hother hc]
      exact ⟨st, hst, hmem, hin⟩
  case fire_inj => exact fun hf hf' => h.fire_inj (hsub _ hf) (hsub _ hf')
  case apart => exact fun he hf => h.apart he (hsub _ hf)

/-- No queue changes. -/
theorem Consistent.complete (c : ClientId) (g : Nat) :
    Consistent (fires.filter fun f => !decide (f.clientId = c ∧ f.generation = g))
        (s.complete c g) ∧
      (s.complete c g).queues = s.queues ∧ (s.complete c g).allocated = s.allocated := by
  have hsub : ∀ f ∈ fires.filter fun f => !decide (f.clientId = c ∧ f.generation = g),
      f ∈ fires := fun f hf => (mem_filter.1 hf).1
  rw [WillScheduler.complete]
  split
  · exact ⟨h.mono hsub, rfl, rfl⟩
  cases hstate : s.generations c with
  | none => exact ⟨h.mono hsub, rfl, rfl⟩
  | some state =>
    simp only
    refine ⟨Consistent.dropClientIfIdle ?_ c, queues_dropClientIfIdle, allocated_dropClientIfIdle⟩
    refine h.setClient hstate hsub rfl rfl ?_ ?_ ?_
    · split
      · exact Finset.Subset.refl _
      · exact Finset.erase_subset _ _
    · intro o e he hc hlive
      split
      · exact hlive
      rename_i hqueued
      refine Finset.mem_erase.2 ⟨?_, hlive⟩
      rintro rfl
      -- The will waits in a queue, so the search over the iterators finds its generation.
      obtain ⟨st, hst, hin, -⟩ := h.client he
      rw [hc, hstate] at hst
      cases hst
      refine hqueued (any_eq_true.2 ⟨_, hin, ?_⟩)
      rw [h.find_eq_some.2 ⟨he, rfl⟩]
      exact beq_iff_eq.2 rfl
    · intro f hf hc hlive hinflight
      have hne : f.generation ≠ g := by
        rintro rfl
        have hkept := (mem_filter.1 hf).2
        simp [hc] at hkept
      refine ⟨?_, Finset.mem_erase.2 ⟨hne, hinflight⟩⟩
      split
      · exact hlive
      · exact Finset.mem_erase.2 ⟨hne, hlive⟩

theorem Consistent.complete_fire (he : e ∈ fires) :
    Consistent (fires.filter fun f => f ≠ e) (s.complete e.clientId e.generation) ∧
      (s.complete e.clientId e.generation).queues = s.queues := by
  obtain ⟨hcons, hqueues, -⟩ := h.complete e.clientId e.generation
  refine ⟨hcons.mono ?_, hqueues⟩
  intro f hf
  obtain ⟨hin, hne⟩ := mem_filter.1 hf
  refine mem_filter.2 ⟨hin, ?_⟩
  rw [Bool.not_eq_true', decide_eq_false_iff_not]
  rintro ⟨hclient, hgeneration⟩
  exact of_decide_eq_true hne (h.fire_inj hin he hclient hgeneration)

end

structure Matched (fires : List Entry) (s : WillScheduler) : Prop where
  queue : ∀ {o e}, e ∈ s.queues o → s.generationMatches e.clientId e.generation
  fire : ∀ {f}, f ∈ fires → s.generationMatches f.clientId f.generation

theorem Consistent.matched (h : Consistent fires s) : Matched fires s where
  queue := by
    intro o e he
    obtain ⟨state, hstate, -, hlive⟩ := h.client he
    rw [generationMatches, hstate]
    exact decide_eq_true hlive
  fire := by
    intro f hf
    obtain ⟨state, hstate, hlive, -⟩ := h.fire hf
    rw [generationMatches, hstate]
    exact decide_eq_true hlive

/-! ## A new will -/

/-- The counter of the client has not come to its end. -/
def CanNumber (s : WillScheduler) (c : ClientId) : Prop :=
  ((s.generations c).getD {}).next + 1 < 2 ^ 64

/-- The entry that `schedule` makes. -/
def newEntry (s : WillScheduler) (c : ClientId) (due : Time) (owner : Owner) : Entry where
  ref := s.allocated
  clientId := c
  generation := ((s.generations c).getD {}).next + 1
  due := due
  owner := owner

/-- The client's state after `schedule`. -/
def numbered (s : WillScheduler) (c : ClientId) (owner : Owner) : ClientGenerations :=
  let state := (s.generations c).getD {}
  { state with
    next := state.next + 1
    live := insert (state.next + 1) state.live
    queued := state.queued ++ [⟨owner, s.allocated⟩] }

theorem schedule_eq {due} (hc : c ≠ []) (hnumber : CanNumber s c) : s.schedule c due owner =
      { (s.setClient c (s.numbered c owner)).setQueue owner
          (emplace (s.newEntry c due owner) (s.queues owner)) with
        allocated := s.allocated + 1 } := by
  have hnext : nextGeneration ((s.generations c).getD {}).next =
      ((s.generations c).getD {}).next + 1 := by
    rw [nextGeneration, Nat.mod_eq_of_lt hnumber, if_neg (Nat.succ_ne_zero _)]
  rw [schedule, if_neg hc]
  simp only [hnext]
  rfl

theorem Consistent.getD_cases (h : Consistent fires s) (c : ClientId) :
    ((s.generations c).getD {}).queued.Nodup ∧ (∀ p ∈ ((s.generations c).getD {}).queued,
        ∃ e ∈ s.queues p.owner, e.ref = p.position ∧ e.clientId = c) ∧
      ∀ g ∈ ((s.generations c).getD {}).live, g ≤ ((s.generations c).getD {}).next := by
  cases hstate : s.generations c with
  | none =>
    refine ⟨nodup_nil, fun p hp => ?_, fun g hg => ?_⟩
    · cases hp
    · exact absurd hg (Finset.notMem_empty g)
  | some state => exact ⟨h.nodup hstate, fun p hp => h.queued hstate hp, h.bounded hstate⟩

/-- The new entry has a generation that no other will of the client has, as long as the counter of
the client does not wrap. -/
theorem Consistent.schedule (h : Consistent fires s) (due : Time) (owner : Owner) (hc : c ≠ [])
    (hnumber : CanNumber s c) :
    Consistent fires (s.schedule c due owner) ∧ (∀ o x, x ∈ (s.schedule c due owner).queues o ↔
        x ∈ s.queues o ∨ o = owner ∧ x = s.newEntry c due owner) ∧
      (s.schedule c due owner).allocated = s.allocated + 1 := by
  rw [schedule_eq hc hnumber]
  obtain ⟨hnodup, hqueued, hbounded⟩ := h.getD_cases c
  have hmem : ∀ {o x}, x ∈ ((s.setClient c (s.numbered c owner)).setQueue owner
      (emplace (s.newEntry c due owner) (s.queues owner))).queues o ↔
        x ∈ s.queues o ∨ o = owner ∧ x = s.newEntry c due owner := by
    intro o x
    rw [mem_setQueue, mem_emplace]
    constructor
    · rintro (⟨rfl, rfl | hx⟩ | ⟨-, hx⟩)
      · exact .inr ⟨rfl, rfl⟩
      · exact .inl hx
      · exact .inl hx
    · rintro (hx | ⟨rfl, rfl⟩)
      · by_cases ho : o = owner
        · subst ho
          exact .inl ⟨rfl, .inr hx⟩
        · exact .inr ⟨ho, hx⟩
      · exact .inl ⟨rfl, .inl rfl⟩
  have hself : ∀ {c'}, c' = c → ((s.setClient c (s.numbered c owner)).setQueue owner
      (emplace (s.newEntry c due owner) (s.queues owner))).generations c' =
        some (s.numbered c owner) := by
    intro c' hc'
    rw [generations_setClient, if_pos hc']
  have hother : ∀ {c'}, c' ≠ c → ((s.setClient c (s.numbered c owner)).setQueue owner
      (emplace (s.newEntry c due owner) (s.queues owner))).generations c' = s.generations c' := by
    intro c' hc'
    rw [generations_setClient, if_neg hc']
  -- The generations of the client's wills so far are below the new one.
  have hlt : ∀ {c' st g}, c' = c → s.generations c' = some st → g ∈ st.live →
      g < (s.newEntry c due owner).generation := by
    rintro c' st g rfl hst hg
    rw [hst] at hbounded
    show g < ((s.generations c').getD {}).next + 1
    rw [hst]
    exact Nat.lt_succ_of_le (hbounded g hg)
  have hlive : ∀ {c' st g}, c' = c → s.generations c' = some st → g ∈ st.live →
      g ∈ (s.numbered c owner).live := by
    rintro c' st g rfl hst hg
    rw [numbered, hst]
    exact Finset.mem_insert_of_mem hg
  refine ⟨?_, fun o x => hmem, rfl⟩
  constructor
  case ordered =>
    intro o
    by_cases ho : o = owner
    · subst ho
      show Ordered (((s.setClient c (s.numbered c o)).setQueue o _).queues o)
      rw [queues_setQueue]
      exact (h.ordered o).emplace fun x hx => Nat.ne_of_lt (h.entry hx).1
    · show Ordered (((s.setClient c (s.numbered c owner)).setQueue owner _).queues o)
      rw [queues_setQueue_of_ne ho]
      exact h.ordered o
  case entry =>
    intro o e he
    rcases hmem.1 he with hold | ⟨rfl, rfl⟩
    · exact ⟨Nat.lt_succ_of_lt (h.entry hold).1, (h.entry hold).2⟩
    · exact ⟨Nat.lt_succ_self _, rfl⟩
  case named =>
    intro o e he
    rcases hmem.1 he with hold | ⟨rfl, rfl⟩
    · exact h.named hold
    · exact hc
  case ref_inj =>
    intro o o' e e' he he' href
    rcases hmem.1 he with hold | ⟨rfl, rfl⟩
    · rcases hmem.1 he' with hold' | ⟨rfl, rfl⟩
      · exact h.ref_inj hold hold' href
      · exact absurd href (Nat.ne_of_lt (h.entry hold).1)
    · rcases hmem.1 he' with hold' | ⟨-, rfl⟩
      · exact absurd href.symm (Nat.ne_of_lt (h.entry hold').1)
      · rfl
  case client =>
    intro o e he
    rcases hmem.1 he with hold | ⟨rfl, rfl⟩
    · obtain ⟨st, hst, hin, hg⟩ := h.client hold
      by_cases hcl : e.clientId = c
      · refine ⟨_, hself hcl, ?_, hlive hcl hst hg⟩
        rw [hcl] at hst
        rw [numbered, hst]
        exact mem_append_left _ hin
      · exact ⟨st, (hother hcl).trans hst, hin, hg⟩
    · refine ⟨_, hself rfl, ?_, Finset.mem_insert_self _ _⟩
      exact mem_append_right _ (mem_singleton.2 rfl)
  case queued =>
    intro c' st p hst hp
    by_cases hcl : c' = c
    · cases (hself hcl).symm.trans hst
      rcases mem_append.1 hp with hold | hnew
      · obtain ⟨e, he, href, hclient⟩ := hqueued p hold
        exact ⟨e, hmem.2 (.inl he), href, hclient.trans hcl.symm⟩
      · obtain rfl := mem_singleton.1 hnew
        exact ⟨_, hmem.2 (.inr ⟨rfl, rfl⟩), rfl, hcl.symm⟩
    · obtain ⟨e, he, href, hclient⟩ := h.queued ((hother hcl).symm.trans hst) hp
      exact ⟨e, hmem.2 (.inl he), href, hclient⟩
  case nodup =>
    intro c' st hst
    by_cases hcl : c' = c
    · cases (hself hcl).symm.trans hst
      refine nodup_append.2 ⟨hnodup, nodup_singleton _, ?_⟩
      intro p hp p' hp' heq
      obtain rfl := mem_singleton.1 hp'
      obtain ⟨e, he, href, -⟩ := hqueued p hp
      exact absurd (href.trans (congrArg Queued.position heq)) (Nat.ne_of_lt (h.entry he).1)
    · exact h.nodup ((hother hcl).symm.trans hst)
  case bounded =>
    intro c' st hst g hg
    by_cases hcl : c' = c
    · cases (hself hcl).symm.trans hst
      rcases Finset.mem_insert.1 hg with rfl | hold
      · exact Nat.le_refl _
      · exact Nat.le_succ_of_le (hbounded g hold)
    · exact h.bounded ((hother hcl).symm.trans hst) g hg
  case generation_inj =>
    intro o o' e e' he he' hclient hgeneration
    rcases hmem.1 he with hold | ⟨rfl, rfl⟩
    · rcases hmem.1 he' with hold' | ⟨rfl, rfl⟩
      · exact h.generation_inj hold hold' hclient hgeneration
      · obtain ⟨st, hst, -, hg⟩ := h.client hold
        exact absurd hgeneration (Nat.ne_of_lt (hlt hclient hst hg))
    · rcases hmem.1 he' with hold' | ⟨-, rfl⟩
      · obtain ⟨st, hst, -, hg⟩ := h.client hold'
        exact absurd hgeneration.symm (Nat.ne_of_lt (hlt hclient.symm hst hg))
      · rfl
  case fire =>
    intro f hf
    obtain ⟨st, hst, hg, hin⟩ := h.fire hf
    by_cases hcl : f.clientId = c
    · refine ⟨_, hself hcl, hlive hcl hst hg, ?_⟩
      rw [hcl] at hst
      rw [numbered, hst]
      exact hin
    · exact ⟨st, (hother hcl).trans hst, hg, hin⟩
  case fire_inj => exact h.fire_inj
  case apart =>
    intro o e f he hf hclient hgeneration
    rcases hmem.1 he with hold | ⟨rfl, rfl⟩
    · exact h.apart hold hf hclient hgeneration
    · obtain ⟨st, hst, hg, -⟩ := h.fire hf
      exact absurd hgeneration.symm (Nat.ne_of_lt (hlt hclient.symm hst hg))

end WillScheduler

end Mqtts.Will
