import Mqtts.Will.Calls

/-!
# What becomes of a will

The abstract scheduler is a list with a record for every will that was scheduled. A record waits
until the will is fired by `take_due` or dropped because the client came back, and both are final.
As long as a completion is made once for a will that was handed out, it touches no other will,
although a client whose state was dropped starts again with the same generations.
-/

namespace Mqtts.Will

open List Runs

/-! ## The abstract scheduler -/

inductive Fate where
  | waiting
  /-- Handed out by a `take_due` at this time; the flag is its `flush_all`. -/
  | fired (now : Time) (flushAll : Bool)
  | dropped (now : Time)
  deriving DecidableEq

structure Record where
  clientId : ClientId
  owner : Owner
  due : Time
  ended : Bool := false
  fate : Fate := .waiting

namespace Record

def firesAt (r : Record) : Time := if r.ended then 0 else r.due

def expire (c : ClientId) (r : Record) : Record :=
  if r.fate = .waiting ∧ r.clientId = c then { r with ended := true } else r

def suppress (c : ClientId) (now : Time) (r : Record) : Record :=
  if r.fate = .waiting ∧ r.clientId = c ∧ now < r.firesAt then { r with fate := .dropped now }
  else r

def take (owner : Owner) (now : Time) (flushAll : Bool) (r : Record) : Record :=
  if r.fate = .waiting ∧ r.owner = owner ∧ (flushAll ∨ r.firesAt ≤ now) then
    { r with fate := .fired now flushAll }
  else r

def isFired (r : Record) : Bool :=
  match r.fate with
  | .fired _ _ => true
  | _ => false

/-- A will fires when it is due, when its session ended, or at a flush, and is dropped only
before it is due. -/
def Justified (r : Record) : Prop :=
  match r.fate with
  | .waiting => True
  | .fired now flushAll => flushAll ∨ r.ended ∨ r.due ≤ now
  | .dropped now => r.ended = false ∧ now < r.due

variable {r : Record} {c : ClientId} {now : Time} {owner : Owner} {flushAll : Bool}

theorem Justified.expire (h : r.Justified) : (r.expire c).Justified := by
  rw [Record.expire]
  split
  · rename_i hwait
    rw [Justified, hwait.1]
    trivial
  · exact h

theorem Justified.suppress (h : r.Justified) : (r.suppress c now).Justified := by
  rw [Record.suppress]
  split
  · rename_i hdrop
    obtain ⟨-, -, hlater⟩ := hdrop
    rw [firesAt] at hlater
    cases hended : r.ended with
    | true =>
      rw [hended] at hlater
      exact absurd hlater (Nat.not_lt_zero _)
    | false =>
      rw [hended] at hlater
      exact ⟨rfl, hlater⟩
  · exact h

theorem Justified.take (h : r.Justified) : (r.take owner now flushAll).Justified := by
  rw [Record.take]
  split
  · rename_i hfire
    obtain ⟨-, -, hflush | hdue⟩ := hfire
    · exact .inl hflush
    · rw [firesAt] at hdue
      cases hended : r.ended with
      | true => exact .inr (.inl rfl)
      | false =>
        rw [hended] at hdue
        exact .inr (.inr hdue)
  · exact h

theorem isFired_expire : (r.expire c).isFired = r.isFired := by
  rw [Record.expire]
  split <;> rfl

theorem isFired_suppress : (r.suppress c now).isFired = r.isFired := by
  rw [Record.suppress]
  split
  · rename_i hdrop
    rw [isFired, isFired, hdrop.1]
  · rfl

end Record

/-! ## The world -/

inductive Event where
  | schedule (clientId : ClientId) (due : Time) (owner : Owner)
  | observeConnect (clientId : ClientId) (cleanStart sessionPresent : Bool) (now : Time)
  | cancel (clientId : ClientId) (now : Time)
  | expireNow (clientId : ClientId)
  | takeDue (owner : Owner) (now : Time) (flushAll : Bool)
  | complete (entry : Entry)

structure World where
  code : WillScheduler := {}
  wills : List Record := []
  returned : List Nat := []
  fires : List Entry := []

def World.step (w : World) : Event → Option World
  | .schedule c due owner =>
    some { w with
      code := w.code.schedule c due owner
      -- A call without a client id schedules nothing.
      wills := if c = [] then w.wills
        else w.wills ++ [{ clientId := c, owner := owner, due := due }] }
  | .observeConnect c cleanStart sessionPresent now =>
    some { w with
      code := w.code.observeConnect c cleanStart sessionPresent now
      wills := if cleanStart || !sessionPresent then w.wills.map (Record.expire c)
        else w.wills.map (Record.suppress c now) }
  | .cancel c now =>
    some { w with
      code := w.code.cancel c now
      wills := w.wills.map (Record.suppress c now) }
  | .expireNow c =>
    some { w with
      code := w.code.expireNow c
      wills := w.wills.map (Record.expire c) }
  | .takeDue owner now flushAll =>
    some { w with
      code := (w.code.takeDue owner now flushAll).2
      wills := w.wills.map (Record.take owner now flushAll)
      returned := w.returned ++ (w.code.takeDue owner now flushAll).1.map (·.ref)
      fires := w.fires ++ (w.code.takeDue owner now flushAll).1 }
  | .complete e =>
    some { w with
      code := w.code.complete e.clientId e.generation
      fires := w.fires.filter (fun f => f ≠ e) }

/-- The counter of a client does not wrap. -/
def Numbered (w : World) (e : Event) : Prop :=
  match e with
  | .schedule c _ _ => w.code.CanNumber c
  | _ => True

def CompletesOnce (w : World) (e : Event) : Prop :=
  match e with
  | .complete entry => entry ∈ w.fires
  | _ => True

/-! ## The code follows -/

structure Waits (r : Record) (o : Owner) (e : Entry) : Prop where
  fate : r.fate = .waiting
  clientId : e.clientId = r.clientId
  owner : r.owner = o
  due : e.due = r.firesAt

/-- The entries in the queues are the records that wait, and every will that is fired is handed out
exactly once. -/
structure Follows (w : World) : Prop where
  consistent : w.code.Consistent []
  allocated : w.code.allocated = w.wills.length
  entry : ∀ {o e}, e ∈ w.code.queues o → ∃ r, w.wills[e.ref]? = some r ∧ Waits r o e
  waiting : ∀ {i r}, w.wills[i]? = some r → r.fate = .waiting →
    ∃ e ∈ w.code.queues r.owner, e.ref = i
  returned : ∀ {i r}, w.wills[i]? = some r → w.returned.count i = if r.isFired then 1 else 0
  known : ∀ i ∈ w.returned, i < w.wills.length
  justified : ∀ r ∈ w.wills, r.Justified

theorem follows_new : Follows {} where
  consistent := WillScheduler.consistent_new
  allocated := rfl
  entry := fun he => by cases he
  waiting := fun hr => by cases hr
  returned := fun hr => by cases hr
  known := fun i hi => by cases hi
  justified := fun r hr => by cases hr

variable {w : World} {c : ClientId} {now due : Time} {owner : Owner} {flushAll : Bool}
  {i : Nat} {e : Event} {w' : World}

theorem Follows.waits {r} (h : Follows w) (hr : w.wills[i]? = some r)
    (hwait : r.fate = .waiting) : ∃ e ∈ w.code.queues r.owner, e.ref = i ∧ Waits r r.owner e := by
  obtain ⟨e, he, rfl⟩ := h.waiting hr hwait
  obtain ⟨r', hr', hwaits⟩ := h.entry he
  cases hr.symm.trans hr'
  exact ⟨e, he, rfl, hwaits⟩

theorem getElem?_map_some {f : Record → Record} {wills : List Record} {r'}
    (h : (wills.map f)[i]? = some r') : ∃ r, wills[i]? = some r ∧ r' = f r := by
  rw [List.getElem?_map] at h
  obtain ⟨r, hr, heq⟩ := Option.map_eq_some_iff.1 h
  exact ⟨r, hr, heq.symm⟩

/-- A call that changes every record on its own. -/
theorem Follows.map {f : Record → Record} {s : WillScheduler} {returned : List Nat} {fires}
    (h : Follows w) (hcons : s.Consistent []) (halloc : s.allocated = w.code.allocated)
    (hentry : ∀ {o e}, e ∈ s.queues o → ∃ y ∈ w.code.queues o, y.ref = e.ref ∧
      ∀ {r}, Waits r o y → Waits (f r) o e)
    (hwaiting : ∀ {r}, (f r).fate = .waiting → r.fate = .waiting ∧
      ∀ {e}, e ∈ w.code.queues r.owner → Waits r r.owner e →
        ∃ x ∈ s.queues (f r).owner, x.ref = e.ref)
    (hreturned : ∀ {i r}, w.wills[i]? = some r → returned.count i = if (f r).isFired then 1 else 0)
    (hknown : ∀ i ∈ returned, i < w.wills.length)
    (hjustified : ∀ {r : Record}, r.Justified → (f r).Justified) :
    Follows ⟨s, w.wills.map f, returned, fires⟩ where
  consistent := hcons
  allocated := halloc.trans (h.allocated.trans (length_map _).symm)
  entry := fun he => by
    obtain ⟨y, hy, href, hwaits⟩ := hentry he
    obtain ⟨r, hr, hold⟩ := h.entry hy
    refine ⟨f r, ?_, hwaits hold⟩
    rw [List.getElem?_map, ← href, hr, Option.map_some]
  waiting := fun hr' hwait => by
    obtain ⟨r, hr, rfl⟩ := getElem?_map_some hr'
    obtain ⟨hold, hkept⟩ := hwaiting hwait
    obtain ⟨e, he, rfl, hwaits⟩ := h.waits hr hold
    exact hkept he hwaits
  returned := fun hr' => by
    obtain ⟨r, hr, rfl⟩ := getElem?_map_some hr'
    exact hreturned hr
  known := by rwa [length_map]
  justified := fun r' hr' => by
    obtain ⟨r, hr, rfl⟩ := mem_map.1 hr'
    exact hjustified (h.justified r hr)

theorem Follows.cancel (h : Follows w) (c : ClientId) (now : Time) : Follows { w with
      code := w.code.cancel c now
      wills := w.wills.map (Record.suppress c now) } := by
  obtain ⟨hcons, hmem, halloc⟩ := h.consistent.cancel c now
  refine h.map hcons halloc ?_ ?_ ?_ h.known Record.Justified.suppress
  · intro o e he
    obtain ⟨hold, hnot⟩ := (hmem o e).1 he
    refine ⟨e, hold, rfl, fun hwaits => ?_⟩
    rwa [Record.suppress, if_neg]
    rintro ⟨-, hclient, hlater⟩
    exact hnot ⟨hwaits.clientId.trans hclient, hwaits.due ▸ hlater⟩
  · intro r hwait
    rw [Record.suppress] at hwait ⊢
    split_ifs at hwait with hkept
    refine ⟨hwait, fun he hwaits => ⟨_, ?_, rfl⟩⟩
    rw [if_neg hkept]
    refine (hmem _ _).2 ⟨he, ?_⟩
    rintro ⟨hclient, hlater⟩
    exact hkept ⟨hwait, hwaits.clientId ▸ hclient, hwaits.due ▸ hlater⟩
  · intro i r hr
    rw [Record.isFired_suppress]
    exact h.returned hr

theorem Follows.expireNow (h : Follows w) (c : ClientId) : Follows { w with
      code := w.code.expireNow c
      wills := w.wills.map (Record.expire c) } := by
  obtain ⟨hcons, hmem, halloc⟩ := h.consistent.expireNow c
  refine h.map hcons halloc ?_ ?_ ?_ h.known Record.Justified.expire
  · intro o e he
    obtain ⟨y, hy, rfl⟩ := (hmem o e).1 he
    refine ⟨y, hy, rfl, fun {r} hwaits => ?_⟩
    by_cases hclient : r.clientId = c
    · rw [Record.expire, if_pos ⟨hwaits.fate, hclient⟩,
        beq_iff_eq.2 (hwaits.clientId.trans hclient)]
      exact ⟨hwaits.fate, hwaits.clientId, hwaits.owner, rfl⟩
    · rw [Record.expire, if_neg fun hand => hclient hand.2,
        beq_eq_false_iff_ne.2 fun heq => hclient (hwaits.clientId ▸ heq)]
      exact hwaits
  · intro r hwait
    have hold : r.fate = .waiting := by
      rw [Record.expire] at hwait
      split at hwait <;> exact hwait
    have howner : (r.expire c).owner = r.owner := by
      rw [Record.expire]
      split <;> rfl
    rw [howner]
    exact ⟨hold, fun he _ => ⟨_, (hmem _ _).2 ⟨_, he, rfl⟩, rfl⟩⟩
  · intro i r hr
    rw [Record.isFired_expire]
    exact h.returned hr

theorem count_map_ref {queue : DueQueue} (h : (queue.map (·.ref)).Nodup) (i : Nat) :
    (queue.map (·.ref)).count i = if ∃ e ∈ queue, e.ref = i then 1 else 0 := by
  rw [List.Nodup.count h]
  simp only [mem_map]

theorem Follows.takeDue (h : Follows w) (owner : Owner) (now : Time) (flushAll : Bool)
    (fires : List Entry) :
    Follows { w with
      code := (w.code.takeDue owner now flushAll).2
      wills := w.wills.map (Record.take owner now flushAll)
      returned := w.returned ++ (w.code.takeDue owner now flushAll).1.map (·.ref)
      fires := fires } := by
  obtain ⟨hlist, hcons, hmem, halloc⟩ := h.consistent.takeDue owner now flushAll
  have hdue : ∀ {r : Record} {o e}, Waits r o e →
      (WillScheduler.isDue now flushAll e ↔ flushAll ∨ r.firesAt ≤ now) := by
    intro r o e hwaits
    rw [WillScheduler.isDue, hwaits.due, decide_eq_true_iff]
  refine h.map (hcons.mono fun f hf => by cases hf) halloc ?_ ?_ ?_ ?_ Record.Justified.take
  · intro o e he
    obtain ⟨hold, hnot⟩ := (hmem o e).1 he
    refine ⟨e, hold, rfl, fun hwaits => ?_⟩
    rwa [Record.take, if_neg]
    rintro ⟨-, howner, hready⟩
    exact hnot ⟨hwaits.owner.symm.trans howner, (hdue hwaits).2 hready⟩
  · intro r hwait
    rw [Record.take] at hwait ⊢
    split_ifs at hwait with hkept
    refine ⟨hwait, fun he hwaits => ⟨_, ?_, rfl⟩⟩
    rw [if_neg hkept]
    refine (hmem _ _).2 ⟨he, ?_⟩
    rintro ⟨howner, hready⟩
    exact hkept ⟨hwait, howner, (hdue hwaits).1 hready⟩
  · intro i r hr
    have hnodup : ((w.code.takeDue owner now flushAll).1.map (·.ref)).Nodup := by
      rw [hlist]
      exact (h.consistent.ordered owner).nodup.sublist (filter_sublist.map _)
    rw [count_append, h.returned hr, count_map_ref hnodup, Record.take]
    -- The will is handed out now exactly if the abstract scheduler fires it.
    have hiff : (∃ e ∈ (w.code.takeDue owner now flushAll).1, e.ref = i) ↔
        r.fate = .waiting ∧ r.owner = owner ∧ (flushAll ∨ r.firesAt ≤ now) := by
      rw [hlist]
      constructor
      · rintro ⟨e, he, rfl⟩
        obtain ⟨hin, hready⟩ := mem_filter.1 he
        obtain ⟨r', hr', hwaits⟩ := h.entry hin
        cases hr.symm.trans hr'
        exact ⟨hwaits.fate, hwaits.owner, (hdue hwaits).1 hready⟩
      · rintro ⟨hwait, rfl, hready⟩
        obtain ⟨e, he, href, hwaits⟩ := h.waits hr hwait
        exact ⟨e, mem_filter.2 ⟨he, (hdue hwaits).2 hready⟩, href⟩
    by_cases hfire : r.fate = .waiting ∧ r.owner = owner ∧ (flushAll ∨ r.firesAt ≤ now)
    · rw [if_pos (hiff.2 hfire), if_pos hfire, Record.isFired, hfire.1]
      rfl
    · rw [if_neg fun hex => hfire (hiff.1 hex), if_neg hfire, Nat.add_zero]
  · intro i hi
    rcases mem_append.1 hi with hold | hnew
    · exact h.known i hold
    obtain ⟨e, he, rfl⟩ := mem_map.1 hnew
    rw [hlist] at he
    obtain ⟨r, hr, -⟩ := h.entry (mem_filter.1 he).1
    exact (List.getElem?_eq_some_iff.1 hr).1

theorem Follows.schedule (h : Follows w) (hc : c ≠ []) (hnumber : w.code.CanNumber c) :
    Follows { w with
      code := w.code.schedule c due owner
      wills := w.wills ++ [{ clientId := c, owner := owner, due := due }] } := by
  obtain ⟨hcons, hmem, halloc⟩ := h.consistent.schedule due owner hc hnumber
  have hlast : (w.wills ++ [({ clientId := c, owner := owner, due := due } : Record)])[
      w.code.allocated]? = some { clientId := c, owner := owner, due := due } := by
    rw [h.allocated, List.getElem?_concat_length]
  have hcases : ∀ {i r}, (w.wills ++ [({ clientId := c, owner := owner, due := due } : Record)])[
      i]? = some r → w.wills[i]? = some r ∨ i = w.wills.length ∧
        r = { clientId := c, owner := owner, due := due } := by
    intro i r hr
    by_cases hi : i < w.wills.length
    · rw [List.getElem?_append_left hi] at hr
      exact .inl hr
    · have hlt := (List.getElem?_eq_some_iff.1 hr).1
      rw [length_append, length_singleton] at hlt
      obtain rfl : i = w.wills.length := by omega
      rw [List.getElem?_concat_length] at hr
      exact .inr ⟨rfl, (Option.some.inj hr).symm⟩
  constructor
  case consistent => exact hcons
  case allocated => rw [halloc, h.allocated, length_append, length_singleton]
  case entry =>
    intro o e he
    rcases (hmem o e).1 he with hold | ⟨rfl, rfl⟩
    · obtain ⟨r, hr, hwaits⟩ := h.entry hold
      refine ⟨r, ?_, hwaits⟩
      show (w.wills ++ _)[e.ref]? = _
      rw [List.getElem?_append_left (List.getElem?_eq_some_iff.1 hr).1, hr]
    · exact ⟨_, hlast, rfl, rfl, rfl, rfl⟩
  case waiting =>
    intro i r hr hwait
    rcases hcases hr with hold | ⟨rfl, rfl⟩
    · obtain ⟨e, he, href⟩ := h.waiting hold hwait
      exact ⟨e, (hmem _ e).2 (.inl he), href⟩
    · exact ⟨_, (hmem _ _).2 (.inr ⟨rfl, rfl⟩), h.allocated⟩
  case returned =>
    intro i r hr
    rcases hcases hr with hold | ⟨rfl, rfl⟩
    · exact h.returned hold
    · exact count_eq_zero.2 fun hin => Nat.lt_irrefl _ (h.known _ hin)
  case known =>
    intro i hi
    rw [length_append]
    exact Nat.lt_add_right _ (h.known i hi)
  case justified =>
    intro r hr
    rcases mem_append.1 hr with hold | hnew
    · exact h.justified r hold
    · obtain rfl := mem_singleton.1 hnew
      trivial

theorem Follows.complete (h : Follows w) (e : Entry) (fires : List Entry) : Follows { w with
      code := w.code.complete e.clientId e.generation
      fires := fires } := by
  obtain ⟨hcons, hqueues, halloc⟩ := h.consistent.complete e.clientId e.generation
  exact {
    consistent := hcons
    allocated := halloc.trans h.allocated
    entry := fun he => h.entry (hqueues ▸ he)
    waiting := fun hr hwait => by
      obtain ⟨x, hx, href⟩ := h.waiting hr hwait
      exact ⟨x, hqueues ▸ hx, href⟩
    returned := h.returned
    known := h.known
    justified := h.justified }

theorem Follows.step (h : Follows w) (hnumbered : Numbered w e) (hstep : w.step e = some w') :
    Follows w' := by
  cases e <;> cases hstep
  case schedule c due owner =>
    by_cases hc : c = []
    · simp only [WillScheduler.schedule, hc, if_true]
      exact h
    · simp only [hc, if_false]
      exact h.schedule hc hnumbered
  case observeConnect c cleanStart sessionPresent now =>
    simp only [WillScheduler.observeConnect]
    split
    · exact h.expireNow c
    · exact h.cancel c now
  case cancel c now =>
    exact h.cancel c now
  case expireNow c =>
    exact h.expireNow c
  case takeDue owner now flushAll =>
    exact h.takeDue owner now flushAll _
  case complete e =>
    exact h.complete e _

theorem follows_of_reach (h : Reach World.step Numbered (· = {}) w) : Follows w := by
  refine Reach.invariant ?_ ?_ h
  · rintro w rfl
    exact follows_new
  · exact fun w e w' hw hok hstep => hw.step hok hstep

/-! ## Wills in flight -/

theorem consistent_step (h : w.code.Consistent w.fires) (hnumbered : Numbered w e)
    (hcompletes : CompletesOnce w e) (hstep : w.step e = some w') :
    w'.code.Consistent w'.fires := by
  cases e <;> cases hstep
  case schedule c due owner =>
    by_cases hc : c = []
    · simp only [WillScheduler.schedule, hc, if_true]
      exact h
    · exact (h.schedule due owner hc hnumbered).1
  case observeConnect c cleanStart sessionPresent now =>
    simp only [WillScheduler.observeConnect]
    split
    · exact (h.expireNow c).1
    · exact (h.cancel c now).1
  case cancel c now =>
    exact (h.cancel c now).1
  case expireNow c =>
    exact (h.expireNow c).1
  case takeDue owner now flushAll =>
    exact (h.takeDue owner now flushAll).2.1
  case complete e =>
    exact (h.complete_fire hcompletes).1

theorem consistent_of_reach
    (h : Reach World.step (fun w e => Numbered w e ∧ CompletesOnce w e) (· = {}) w) :
    w.code.Consistent w.fires := by
  induction h with
  | start hw =>
    subst hw
    exact WillScheduler.consistent_new
  | step _ hok hstep ih => exact consistent_step ih hok.1 hok.2 hstep

/-! ## The result -/

/-- What is true of the wills of a world: each one is handed out once or never, as its fate
says, the fates are justified, and one that waits is handed out when its owner asks for it. -/
structure Settled (w : World) : Prop where
  once : ∀ i r, w.wills[i]? = some r → w.returned.count i = if r.isFired then 1 else 0
  justified : ∀ r ∈ w.wills, r.Justified
  due : ∀ owner now flushAll i, i ∈ (w.code.takeDue owner now flushAll).1.map (·.ref) ↔
    ∃ r, w.wills[i]? = some r ∧ r.fate = .waiting ∧ r.owner = owner ∧
      (flushAll ∨ r.firesAt ≤ now)

theorem Follows.settled (h : Follows w) : Settled w where
  once := fun i r hr => h.returned hr
  justified := h.justified
  due := by
    intro owner now flushAll i
    rw [(h.consistent.takeDue owner now flushAll).1, mem_map]
    constructor
    · rintro ⟨e, he, rfl⟩
      obtain ⟨hin, hready⟩ := mem_filter.1 he
      obtain ⟨r, hr, hwaits⟩ := h.entry hin
      have hdue := of_decide_eq_true hready
      rw [hwaits.due] at hdue
      exact ⟨r, hr, hwaits.fate, hwaits.owner, hdue⟩
    · rintro ⟨r, hr, hwait, rfl, hready⟩
      obtain ⟨e, he, href, hwaits⟩ := h.waits hr hwait
      refine ⟨e, mem_filter.2 ⟨he, decide_eq_true ?_⟩, href⟩
      rw [hwaits.due]
      exact hready

/-- No completion reaches another will: those in the queues stay, and the generation of each
of them and of every other will in flight is still found. -/
structure Untouched (w : World) : Prop where
  matched : w.code.Matched w.fires
  queues : ∀ e ∈ w.fires, (w.code.complete e.clientId e.generation).queues = w.code.queues
  others : ∀ e ∈ w.fires,
    (w.code.complete e.clientId e.generation).Matched (w.fires.filter fun f => f ≠ e)

theorem fate_final {r} (hstep : w.step e = some w') (hr : w.wills[i]? = some r)
    (hfate : r.fate ≠ .waiting) : w'.wills[i]? = some r := by
  have hexpire : ∀ c, r.expire c = r := fun c => if_neg fun hand => hfate hand.1
  have hsuppress : ∀ c now, r.suppress c now = r := fun c now => if_neg fun hand => hfate hand.1
  have htake : ∀ owner now flushAll, r.take owner now flushAll = r :=
    fun owner now flushAll => if_neg fun hand => hfate hand.1
  have hmap : ∀ {f : Record → Record}, f r = r → (w.wills.map f)[i]? = some r := by
    intro f hf
    rw [List.getElem?_map, hr, Option.map_some, hf]
  cases e <;> cases hstep
  case schedule c due owner =>
    simp only
    split
    · exact hr
    · rw [List.getElem?_append_left (List.getElem?_eq_some_iff.1 hr).1, hr]
  case observeConnect c cleanStart sessionPresent now =>
    simp only
    split
    · exact hmap (hexpire c)
    · exact hmap (hsuppress c now)
  case cancel c now =>
    exact hmap (hsuppress c now)
  case expireNow c =>
    exact hmap (hexpire c)
  case takeDue owner now flushAll =>
    exact hmap (htake owner now flushAll)
  case complete e =>
    exact hr

/-- In every run in which no counter wraps the wills are settled as the abstract scheduler says,
and their fates are final; with completions as the publishing tasks make them, a completion
touches only its own will. -/
theorem wills_settled : (∀ w, Reach World.step Numbered (· = {}) w → Settled w ∧
      ∀ e w' (i : Nat) r, w.step e = some w' →
        w.wills[i]? = some r → r.fate ≠ .waiting → w'.wills[i]? = some r) ∧
    ∀ w, Reach World.step (fun w e => Numbered w e ∧ CompletesOnce w e) (· = {}) w →
      Untouched w := by
  refine ⟨?_, ?_⟩ <;> intro w hw
  · exact ⟨(follows_of_reach hw).settled, fun e w' i r => fate_final⟩
  · have hcons := consistent_of_reach hw
    exact {
      matched := hcons.matched
      queues := fun e he => (hcons.complete_fire he).2
      others := fun e he => (hcons.complete_fire he).1.matched }

instance decidableNumbered (w : World) (e : Event) : Decidable (Numbered w e) :=
  match e with
  | .schedule c _ _ =>
    inferInstanceAs (Decidable (((w.code.generations c).getD {}).next + 1 < 2 ^ 64))
  | .observeConnect _ _ _ _ => .isTrue trivial
  | .cancel _ _ => .isTrue trivial
  | .expireNow _ => .isTrue trivial
  | .takeDue _ _ _ => .isTrue trivial
  | .complete _ => .isTrue trivial

instance decidableCompletesOnce (w : World) (e : Event) : Decidable (CompletesOnce w e) :=
  match e with
  | .schedule _ _ _ => .isTrue trivial
  | .observeConnect _ _ _ _ => .isTrue trivial
  | .cancel _ _ => .isTrue trivial
  | .expireNow _ => .isTrue trivial
  | .takeDue _ _ _ => .isTrue trivial
  | .complete entry => inferInstanceAs (Decidable (entry ∈ w.fires))

def sampleClient : ClientId := [99]

def sampleEvents : List Event :=
  [.schedule sampleClient 1 0, .takeDue 0 1 false,
    .complete ⟨0, sampleClient, 1, 1, 0⟩, .schedule sampleClient 9 0,
    .observeConnect sampleClient false true 5, .schedule sampleClient 9 0,
    .observeConnect sampleClient true true 5, .takeDue 0 6 false]

def sampleWorld : World :=
  (runOk World.step (fun w e => Numbered w e ∧ CompletesOnce w e) {} sampleEvents).getD {}

theorem wills_settled_sample : sampleWorld.wills.map (·.fate) =
        [.fired 1 false, .dropped 5, .fired 6 false] ∧
      Settled sampleWorld ∧ Untouched sampleWorld := by
  have hrun : (runOk World.step (fun w e => Numbered w e ∧ CompletesOnce w e) {}
      sampleEvents).isSome := by decide
  have hstart : Reach World.step (fun w e => Numbered w e ∧ CompletesOnce w e) (· = {}) {} :=
    .start rfl
  have hreach := reach_runOk_getD {} hstart hrun
  exact ⟨by decide, (wills_settled.1 _ (hreach.mono fun _ _ hok => hok.1)).1,
    wills_settled.2 _ hreach⟩

def samplePublished : WillScheduler :=
  ((WillScheduler.schedule {} sampleClient 1 0).takeDue 0 1 false).2.complete
    sampleClient 1

def sampleInFlight : List Entry × WillScheduler :=
  (samplePublished.schedule sampleClient 2 0).takeDue 0 2 false

/-- A flush hands out a will before it is due. And when the state of a client is made again, a
completion of its first will that is made twice ends the second one, which is in flight. -/
theorem early_flush_and_late_completion :
    ((WillScheduler.schedule {} sampleClient 10 0).takeDue 0 5 true).1.map (·.due) = [10] ∧
      sampleInFlight.1.map (·.generation) = [1] ∧
      sampleInFlight.2.generationMatches sampleClient 1 ∧
      (sampleInFlight.2.complete sampleClient 1).generationMatches sampleClient 1 = false := by
  decide

end Mqtts.Will
