import Mathlib.Data.Finset.Basic
import Mathlib.Algebra.Order.Ring.Int
import Mqtts.Lib.Runs

/-!
# The scheduler of wills

`WillScheduler` keeps the wills that wait for their due time. The clock is read by the calls, so a
call has the reading it works with. A queue without entries and a queue that is not in the map
behave alike, and are one here.
-/

namespace Mqtts.Will

open List

abbrev ClientId := List UInt8

/-- `std::thread::id`. -/
abbrev Owner := Nat

/-- A point of the steady clock, in ticks since `time_point::min()`. -/
abbrev Time := Nat

structure Entry where
  ref : Nat
  clientId : ClientId
  generation : Nat
  due : Time
  owner : Owner
  deriving DecidableEq

structure Queued where
  owner : Owner
  position : Nat
  deriving DecidableEq

structure ClientGenerations where
  next : Nat := 0
  live : Finset Nat := ∅
  inflight : Finset Nat := ∅
  queued : List Queued := []

/-- `std::multimap` from the due time of an entry to the entry. -/
abbrev DueQueue := List Entry

/-- `emplace` of the multimap: behind the entries with the same key. -/
def emplace (e : Entry) : DueQueue → DueQueue
  | [] => [e]
  | x :: queue => if x.due ≤ e.due then x :: emplace e queue else e :: x :: queue

/-- `erase` of the multimap at an iterator. -/
def eraseAt (ref : Nat) (queue : DueQueue) : DueQueue := queue.eraseP fun e => e.ref == ref

/-- `queued[i] = queued.back(); queued.pop_back();`. -/
def swapRemove (queued : List Queued) (i : Nat) : List Queued :=
  match queued.getLast? with
  | none => queued
  | some back => (queued.set i back).dropLast

/-- Each owner thread has a queue, ordered by due time, and each client has its generations: the
next number, the live ones, those in flight, and an iterator into a queue for each of its wills that
waits. -/
structure WillScheduler where
  generations : ClientId → Option ClientGenerations := fun _ => none
  queues : Owner → DueQueue := fun _ => []
  allocated : Nat := 0

namespace WillScheduler

variable (s : WillScheduler) (clientId : ClientId)

def setClient (state : ClientGenerations) : WillScheduler :=
  { s with generations := Function.update s.generations clientId (some state) }

def dropClient : WillScheduler :=
  { s with generations := Function.update s.generations clientId none }

variable (owner : Owner) (now : Time)

def setQueue (queue : DueQueue) : WillScheduler :=
  { s with queues := Function.update s.queues owner queue }

/-- An iterator is the owner of a queue with the address (`ref`) of the entry it points to. -/
def find (p : Queued) : Option Entry :=
  (s.queues p.owner).find? fun e => e.ref == p.position

/-- The generation of a client's next will; 0 is skipped when the counter wraps. -/
def nextGeneration (next : Nat) : Nat :=
  let generation := (next + 1) % 2 ^ 64
  if generation = 0 then 1 else generation

def schedule (due : Time) (owner : Owner) : WillScheduler :=
  if clientId = [] then s
  else
    let state := (s.generations clientId).getD {}
    let generation := nextGeneration state.next
    let entry : Entry := { ref := s.allocated, clientId, generation, due, owner }
    let state :=
      { state with
        next := generation
        live := insert generation state.live
        queued := state.queued ++ [{ owner, position := entry.ref }] }
    { (s.setClient clientId state).setQueue owner (emplace entry (s.queues owner)) with
      allocated := s.allocated + 1 }

def forgetQueued (state : ClientGenerations) (ref : Nat) : ClientGenerations :=
  match state.queued.findIdx? (fun p => p.position == ref) with
  | none => state
  | some i => { state with queued := swapRemove state.queued i }

def dropClientIfIdle : WillScheduler :=
  match s.generations clientId with
  | none => s
  | some state =>
    if state.queued = [] ∧ state.live = ∅ ∧ state.inflight = ∅ then s.dropClient clientId
    else s

/-- The loop of `suppress_pending`, at index `i` of the client's iterators. -/
def suppressLoop (clientId : ClientId) (now : Time) : Nat → Nat → WillScheduler → WillScheduler
  | 0, _, s => s
  | fuel + 1, i, s =>
    match s.generations clientId with
    | none => s
    | some state =>
      match state.queued[i]? with
      | none => s
      | some p =>
        match s.find p with
        | none => s
        | some entry =>
          if now < entry.due then
            let state :=
              { state with
                live := state.live.erase entry.generation
                queued := swapRemove state.queued i }
            let queue := eraseAt p.position (s.queues p.owner)
            suppressLoop clientId now fuel i
              ((s.setClient clientId state).setQueue p.owner queue)
          else suppressLoop clientId now fuel (i + 1) s

def suppressPending : WillScheduler :=
  match s.generations clientId with
  | none => s
  | some state => (suppressLoop clientId now state.queued.length 0 s).dropClientIfIdle clientId

def cancel : WillScheduler :=
  if clientId = [] then s else s.suppressPending clientId now

/-- The body of the loop of `expire_now`. -/
def expireOne (p : Queued) : WillScheduler :=
  match s.find p with
  | none => s
  | some entry =>
    let queue := eraseAt p.position (s.queues p.owner)
    s.setQueue p.owner (emplace { entry with due := 0 } queue)

def expireNow : WillScheduler :=
  if clientId = [] then s
  else
    match s.generations clientId with
    | none => s
    | some state => state.queued.foldl expireOne s

def observeConnect (cleanStart sessionPresent : Bool) (now : Time) : WillScheduler :=
  if cleanStart || !sessionPresent then s.expireNow clientId else s.cancel clientId now

def complete (generation : Nat) : WillScheduler :=
  if clientId = [] then s
  else
    match s.generations clientId with
    | none => s
    | some state =>
      let queued :=
        state.queued.any fun p => (s.find p).any fun e => e.generation == generation
      let state :=
        { state with
          inflight := state.inflight.erase generation
          live := if queued then state.live else state.live.erase generation }
      (s.setClient clientId state).dropClientIfIdle clientId

/-- The body of the loop of `take_due`, for the first entry of the queue. -/
def takeOne (entry : Entry) (rest : DueQueue) : Option Entry × WillScheduler :=
  match s.generations entry.clientId with
  | none => (none, s.setQueue owner rest)
  | some state =>
    let state := forgetQueued state entry.ref
    if entry.generation ∈ state.live then
      let state := { state with inflight := insert entry.generation state.inflight }
      (some entry, (s.setClient entry.clientId state).setQueue owner rest)
    else
      (none, ((s.setClient entry.clientId state).setQueue owner rest).dropClientIfIdle
        entry.clientId)

def takeLoop (owner : Owner) (now : Time) (flushAll : Bool) :
    Nat → WillScheduler → List Entry × WillScheduler
  | 0, s => ([], s)
  | fuel + 1, s =>
    match s.queues owner with
    | [] => ([], s)
    | entry :: rest =>
      if flushAll ∨ entry.due ≤ now then
        let (taken, s) := s.takeOne owner entry rest
        let (due, s) := takeLoop owner now flushAll fuel s
        (taken.toList ++ due, s)
      else ([], s)

def takeDue (flushAll : Bool) : List Entry × WillScheduler :=
  takeLoop owner now flushAll (s.queues owner).length s

def generationMatches (generation : Nat) : Bool :=
  match s.generations clientId with
  | none => false
  | some state => decide (generation ∈ state.live)

end WillScheduler

/-! ## Queues -/

section

variable {e x : Entry} {queue : DueQueue} {ref : Nat}

theorem emplace_perm (e : Entry) (queue : DueQueue) : (emplace e queue).Perm (e :: queue) := by
  induction queue with
  | nil => exact List.Perm.refl _
  | cons x queue ih =>
    rw [emplace]
    split
    · exact (ih.cons x).trans (List.Perm.swap e x queue)
    · exact List.Perm.refl _

theorem mem_emplace : x ∈ emplace e queue ↔ x = e ∨ x ∈ queue := by
  rw [(emplace_perm e queue).mem_iff, mem_cons]

structure Ordered (queue : DueQueue) : Prop where
  sorted : queue.Pairwise fun x y => x.due ≤ y.due
  nodup : (queue.map (·.ref)).Nodup

theorem Ordered.sublist {queue'} (h : Ordered queue) (hsub : queue'.Sublist queue) :
    Ordered queue' where
  sorted := h.sorted.sublist hsub
  nodup := h.nodup.sublist (hsub.map _)

theorem sorted_emplace (h : queue.Pairwise fun x y => x.due ≤ y.due) :
    (emplace e queue).Pairwise (fun x y => x.due ≤ y.due) := by
  induction queue with
  | nil => exact pairwise_singleton _ _
  | cons x queue ih =>
    obtain ⟨hx, hqueue⟩ := pairwise_cons.1 h
    rw [emplace]
    split
    · rename_i hle
      refine pairwise_cons.2 ⟨?_, ih hqueue⟩
      intro y hy
      rcases mem_emplace.1 hy with rfl | hmem
      · exact hle
      · exact hx y hmem
    · rename_i hle
      have hlt : e.due ≤ x.due := Nat.le_of_lt (Nat.lt_of_not_le hle)
      refine pairwise_cons.2 ⟨?_, h⟩
      intro y hy
      rcases mem_cons.1 hy with rfl | hmem
      · exact hlt
      · exact hlt.trans (hx y hmem)

theorem Ordered.emplace (h : Ordered queue) (hfresh : ∀ x ∈ queue, x.ref ≠ e.ref) :
    Ordered (emplace e queue) where
  sorted := sorted_emplace h.sorted
  nodup := by
    rw [((emplace_perm e queue).map _).nodup_iff, map_cons, nodup_cons]
    refine ⟨?_, h.nodup⟩
    intro hmem
    obtain ⟨x, hx, heq⟩ := mem_map.1 hmem
    exact hfresh x hx heq

theorem eraseAt_sublist (ref : Nat) (queue : DueQueue) : (eraseAt ref queue).Sublist queue :=
  eraseP_sublist

theorem mem_eraseAt (h : Ordered queue) : x ∈ eraseAt ref queue ↔ x ∈ queue ∧ x.ref ≠ ref := by
  have hnodup := h.nodup
  clear h
  induction queue with
  | nil => simp [eraseAt]
  | cons y queue ih =>
    rw [map_cons, nodup_cons] at hnodup
    rw [eraseAt, eraseP_cons]
    by_cases hy : y.ref = ref
    · rw [beq_iff_eq.2 hy, cond_true, mem_cons]
      constructor
      · intro hx
        refine ⟨.inr hx, ?_⟩
        intro heq
        exact hnodup.1 (mem_map.2 ⟨x, hx, heq.trans hy.symm⟩)
      · rintro ⟨rfl | hx, hne⟩
        · exact (hne hy).elim
        · exact hx
    · rw [beq_eq_false_iff_ne.2 hy, cond_false, mem_cons, mem_cons]
      have hrest := ih hnodup.2
      constructor
      · rintro (rfl | hx)
        · exact ⟨.inl rfl, hy⟩
        · exact ⟨.inr (hrest.1 hx).1, (hrest.1 hx).2⟩
      · rintro ⟨rfl | hx, hne⟩
        · exact .inl rfl
        · exact .inr (hrest.2 ⟨hx, hne⟩)

theorem find_eq_some (h : Ordered queue) :
    queue.find? (fun e => e.ref == ref) = some x ↔ x ∈ queue ∧ x.ref = ref := by
  constructor
  · intro hfind
    have href := List.find?_some hfind
    exact ⟨mem_of_find?_eq_some hfind, beq_iff_eq.1 href⟩
  · rintro ⟨hx, rfl⟩
    have hnodup := h.nodup
    clear h
    induction queue with
    | nil => cases hx
    | cons y queue ih =>
      rw [map_cons, nodup_cons] at hnodup
      rcases mem_cons.1 hx with rfl | hmem
      · exact List.find?_cons_of_pos (beq_iff_eq.2 rfl)
      have hne : y.ref ≠ x.ref := by
        intro heq
        exact hnodup.1 (mem_map.2 ⟨x, hmem, heq.symm⟩)
      rw [List.find?_cons_of_neg (by simpa using hne)]
      exact ih hmem hnodup.2

end

/-! ## Removing an iterator -/

section

variable {queued : List Queued} {i : Nat} {p x : Queued}

theorem swapRemove_perm (hi : i < queued.length) :
    (swapRemove queued i).Perm (queued.eraseIdx i) := by
  obtain ⟨init, back, rfl⟩ : ∃ init back, queued = init ++ [back] := by
    refine ⟨queued.dropLast, queued.getLast (ne_nil_of_length_pos (by omega)), ?_⟩
    exact (dropLast_append_getLast _).symm
  rw [swapRemove, List.getLast?_concat]
  show ((init ++ [back]).set i back).dropLast.Perm _
  by_cases hlast : i < init.length
  · rw [set_append_left _ _ hlast, dropLast_concat, eraseIdx_append_of_lt_length hlast]
    clear hi
    induction init generalizing i with
    | nil => cases hlast
    | cons y init ih =>
      cases i with
      | zero => exact @List.perm_append_comm _ [back] init
      | succ i => exact (ih (Nat.lt_of_succ_lt_succ hlast)).cons y
  · have heq : i = init.length := by
      rw [length_append, length_singleton] at hi
      omega
    subst heq
    rw [set_append_right _ _ (Nat.le_refl _), Nat.sub_self, set_cons_zero,
      dropLast_concat, eraseIdx_append_of_length_le (Nat.le_refl _), Nat.sub_self,
      eraseIdx_cons_zero, append_nil]

theorem mem_eraseIdx_of_nodup (h : queued.Nodup) (hp : queued[i]? = some p) :
    x ∈ queued.eraseIdx i ↔ x ∈ queued ∧ x ≠ p := by
  obtain ⟨hi, rfl⟩ := List.getElem?_eq_some_iff.1 hp
  rw [← h.erase_getElem i hi, h.mem_erase_iff, and_comm]

theorem swapRemove_prefix {j} (hj : j < i) (hi : i < queued.length) :
    (swapRemove queued i)[j]? = queued[j]? := by
  rw [swapRemove]
  split
  · rfl
  · rw [List.getElem?_dropLast, length_set, if_pos (by omega), List.getElem?_set_ne (by omega)]

end

end Mqtts.Will
