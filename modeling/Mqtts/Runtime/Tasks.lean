import Mathlib.Data.List.Basic
import Mathlib.Tactic.Common
import Mqtts.Lib.Runs

/-!
# Reclaiming coroutine tasks

The atomic `lifecycle` of a task says who is to destroy its `TaskState`: the handle, the task itself
once it is detached, or whoever made it reaped. The thread that made the task does nothing else
between the return of the entry and the final yield, nor between the steps of a `release`; steps of
other threads come in between.
-/

namespace Mqtts.Runtime

open Runs

inductive Lifecycle where
  | running
  | finished
  | detached
  | reaped
  deriving DecidableEq

/-- Where the owner's thread is in `task_trampoline` after the entry, or in `release`. -/
inductive Doing where
  | returned
  | refused
  | leaving
  | releasing
  | claiming
  | destroying
  deriving DecidableEq

/-- A `TaskState` with what has become of it: `yielded` is the final yield, `held` says that a
handle has it, and `queued` are the threads in whose `reap_queue` it is. -/
structure Task where
  owner : Nat
  lifecycle : Lifecycle := .running
  returned : Bool := false
  yielded : Bool := false
  held : Bool := true
  queued : List Nat := []
  doing : Option Doing := none
  destroyedBy : List Nat := []
  deriving DecidableEq

inductive TaskEvent where
  | finish
  /-- The owner's next step in the trampoline or in `release`. -/
  | advance
  /-- `release` on a thread, also in the destructor and in an assignment. -/
  | release (thread : Nat)
  /-- `is_finished`, the loads of `join`, or a move of the handle. -/
  | look
  /-- `reap_finished_tasks` on a thread: of its event loop, of `join`, or before other calls. -/
  | reap (thread : Nat)

namespace Task

def reap (t : Nat) (s : Task) : Task :=
  { s with
    queued := s.queued.filter (· ≠ t)
    destroyedBy := s.queued.filter (· = t) ++ s.destroyedBy }

def next (s : Task) : Doing → Task
  | .returned =>
    if s.lifecycle = .running then { s with lifecycle := .finished, doing := some .leaving }
    else { s with doing := some .refused }
  | .refused =>
    { s with lifecycle := .reaped, queued := s.owner :: s.queued, doing := some .leaving }
  | .leaving => { s with yielded := true, doing := none }
  | .releasing =>
    if s.lifecycle = .running then { s with lifecycle := .detached, doing := none }
    else { s with doing := if s.lifecycle = .finished then some .claiming else none }
  | .claiming =>
    if s.lifecycle = .finished then { s with lifecycle := .reaped, doing := some .destroying }
    else { s with doing := none }
  | .destroying => { s with destroyedBy := s.owner :: s.destroyedBy, doing := none }

def free (s : Task) (t : Nat) : Bool := t ≠ s.owner || s.doing = none

def step (s : Task) : TaskEvent → Option Task
  | .finish =>
    if s.returned = false ∧ s.doing = none then
      some { s with returned := true, doing := some .returned }
    else none
  | .advance => s.doing.map s.next
  | .release t =>
    if s.held = false ∨ s.free t = false then none
    else if t ≠ s.owner then
      some (if s.lifecycle = .running then { s with held := false, lifecycle := .detached }
        else { s with held := false })
    else some { s.reap t with held := false, doing := some .releasing }
  | .look => if s.held then some s else none
  | .reap t => if s.free t then some (s.reap t) else none

/-! ## The states of a task -/

open Lifecycle

/-- The states of a task, by what its owner does with it. -/
def Ok (s : Task) : Prop :=
  match s.doing with
  | none => s.lifecycle = running ∧ s.returned = false ∧ s.yielded = false ∧ s.held ∧
        s.queued = [] ∧ s.destroyedBy = [] ∨
      s.lifecycle = detached ∧ s.returned = false ∧ s.yielded = false ∧ s.held = false ∧
        s.queued = [] ∧ s.destroyedBy = [] ∨
      s.lifecycle = finished ∧ s.returned ∧ s.yielded ∧ s.queued = [] ∧ s.destroyedBy = [] ∨
      s.lifecycle = reaped ∧ s.returned ∧ s.yielded ∧ s.held = false ∧
        (s.queued = [s.owner] ∧ s.destroyedBy = [] ∨ s.queued = [] ∧ s.destroyedBy = [s.owner])
  | some .returned => s.returned ∧ s.yielded = false ∧ s.queued = [] ∧ s.destroyedBy = [] ∧
      (s.lifecycle = running ∧ s.held ∨ s.lifecycle = detached ∧ s.held = false)
  | some .refused => s.returned ∧ s.yielded = false ∧ s.queued = [] ∧ s.destroyedBy = [] ∧
      s.lifecycle = detached ∧ s.held = false
  | some .leaving => s.returned ∧ s.yielded = false ∧ s.destroyedBy = [] ∧
      (s.lifecycle = finished ∧ s.queued = [] ∨
        s.lifecycle = reaped ∧ s.queued = [s.owner] ∧ s.held = false)
  | some .releasing => s.held = false ∧ s.queued = [] ∧ s.destroyedBy = [] ∧
      (s.lifecycle = running ∧ s.returned = false ∧ s.yielded = false ∨
        s.lifecycle = finished ∧ s.returned ∧ s.yielded)
  | some .claiming => s.held = false ∧ s.queued = [] ∧ s.destroyedBy = [] ∧
      s.lifecycle = finished ∧ s.returned ∧ s.yielded
  | some .destroying => s.held = false ∧ s.queued = [] ∧ s.destroyedBy = [] ∧
      s.lifecycle = reaped ∧ s.returned ∧ s.yielded

variable {s s' : Task} {e : TaskEvent} {t : Nat}

theorem Ok.reap (h : s.Ok) (hfree : s.free t) : (s.reap t).Ok := by
  by_cases ht : t = s.owner
  · simp only [free, ht, ne_eq, not_true_eq_false, decide_false, Bool.false_or,
      decide_eq_true_eq] at hfree
    simp only [Ok, hfree] at h
    simp only [Ok, Task.reap, hfree, ht]
    rcases h with h | h | h | ⟨hl, hr, hy, hh, ⟨hq, hn⟩ | ⟨hq, hn⟩⟩ <;> simp_all
  · have hqueued : s.queued = [] ∨ s.queued = [s.owner] := by
      unfold Ok at h
      split at h <;> grind
    have hsame : s.reap t = s := by
      obtain ⟨_, _, _, _, _, _, _, _⟩ := s
      rcases hqueued with hq | hq <;> simp_all [Task.reap, Ne.symm ht]
    rwa [hsame]

/-- The owner's next step, case by case of where its thread is. -/
theorem Ok.next {a} (h : s.Ok) (ha : s.doing = some a) : (s.next a).Ok := by
  simp only [Ok, ha] at h
  cases a with
  | returned =>
    obtain ⟨hreturned, hyielded, hqueued, hdestroyed, ⟨hl, hheld⟩ | ⟨hl, hheld⟩⟩ := h
    · simp [Task.next, Ok, hl, hreturned, hyielded, hqueued, hdestroyed]
    · simp [Task.next, Ok, hl, hreturned, hyielded, hqueued, hdestroyed, hheld]
  | refused =>
    obtain ⟨hreturned, hyielded, hqueued, hdestroyed, hl, hheld⟩ := h
    simp [Task.next, Ok, hreturned, hyielded, hqueued, hdestroyed, hheld]
  | leaving =>
    obtain ⟨hreturned, hyielded, hdestroyed, ⟨hl, hqueued⟩ | ⟨hl, hqueued, hheld⟩⟩ := h
    · simp [Task.next, Ok, hl, hreturned, hqueued, hdestroyed]
    · simp [Task.next, Ok, hl, hreturned, hqueued, hdestroyed, hheld]
  | releasing =>
    obtain ⟨hheld, hqueued, hdestroyed, ⟨hl, hreturned, hyielded⟩ | ⟨hl, hreturned, hyielded⟩⟩ := h
    · simp [Task.next, Ok, hl, hreturned, hyielded, hqueued, hdestroyed, hheld]
    · simp [Task.next, Ok, hl, hreturned, hyielded, hqueued, hdestroyed, hheld]
  | claiming | destroying =>
    obtain ⟨hheld, hqueued, hdestroyed, hl, hreturned, hyielded⟩ := h
    simp [Task.next, Ok, hl, hreturned, hyielded, hqueued, hdestroyed, hheld]

theorem Ok.step (h : s.Ok) (hstep : s.step e = some s') : s'.Ok := by
  cases e with
  | finish =>
    simp only [Task.step] at hstep
    split_ifs at hstep with hif
    cases hstep
    simp only [Ok, hif.2] at h
    rcases h with h | h | h | h <;> simp_all [Ok]
  | advance =>
    obtain ⟨a, ha, rfl⟩ := Option.map_eq_some_iff.1 hstep
    exact h.next ha
  | release t =>
    simp only [Task.step] at hstep
    split at hstep
    · cases hstep
    rename_i hif
    rw [not_or, Bool.not_eq_false, Bool.not_eq_false] at hif
    split at hstep
    · cases hstep
      unfold Ok at h ⊢
      split_ifs <;> split at h <;> simp_all
    · rename_i ht
      cases hstep
      simp only [not_not] at ht
      have hdoing : s.doing = none := by simpa [free, ht] using hif.2
      simp only [Ok, hdoing] at h
      rcases h with h | h | h | h <;> simp_all [Ok, Task.reap]
  | look =>
    simp only [Task.step] at hstep
    split_ifs at hstep
    cases hstep
    exact h
  | reap t =>
    simp only [Task.step] at hstep
    split_ifs at hstep with hfree
    cases hstep
    exact h.reap hfree

/-! ## Runs -/

/-- Nobody needs to release the task any more. -/
def Claimed (s : Task) : Prop :=
  s.held = false ∧
    (s.lifecycle = finished → s.doing = some .releasing ∨ s.doing = some .claiming)

theorem Claimed.step (h : s.Claimed) (hok : s.Ok) (hstep : s.step e = some s') : s'.Claimed := by
  obtain ⟨hheld, hfinished⟩ := h
  cases e with
  | finish =>
    simp only [Task.step] at hstep
    split_ifs at hstep with hif
    cases hstep
    exact ⟨hheld, fun hl => by simpa [hif.2] using hfinished hl⟩
  | advance =>
    obtain ⟨a, ha, rfl⟩ := Option.map_eq_some_iff.1 hstep
    cases a <;> simp only [Ok, ha] at hok <;> simp only [Task.next, Claimed] <;> grind
  | release t => simp [Task.step, hheld] at hstep
  | look => simp [Task.step, hheld] at hstep
  | reap t =>
    simp only [Task.step] at hstep
    split_ifs at hstep with hfree
    cases hstep
    exact ⟨hheld, hfinished⟩

theorem claimed_release (hok : s.Ok) (hstep : s.step (.release t) = some s')
    (hgood : t = s.owner ∨ s.returned = false) : s'.Claimed := by
  simp only [Task.step] at hstep
  split at hstep
  · cases hstep
  split at hstep
  · rename_i hif ht
    cases hstep
    have hrunning : s.lifecycle = running := by
      have hreturned := hgood.resolve_left ht
      unfold Ok at hok
      split at hok <;> simp_all
    rw [if_pos hrunning]
    exact ⟨rfl, fun hl => by cases hl⟩
  · cases hstep
    exact ⟨rfl, fun _ => .inl rfl⟩

theorem kept_step (hstep : s.step e = some s') :
    s'.owner = s.owner ∧ (s.returned → s'.returned) := by
  cases e with
  | advance =>
    obtain ⟨a, -, rfl⟩ := Option.map_eq_some_iff.1 hstep
    cases a <;> simp only [next] <;> grind
  | _ => simp only [Task.step] at hstep; grind [Task.reap]

theorem destroyed_of_reap (hok : s.Ok) (hclaimed : s.Claimed) (hreturned : s.returned)
    (hstep : s.step (.reap s.owner) = some s') : s'.destroyedBy = [s'.owner] := by
  simp only [Task.step] at hstep
  split_ifs at hstep with hfree
  cases hstep
  have hdoing : s.doing = none := by simpa [free] using hfree
  obtain ⟨-, hfinished⟩ := hclaimed
  simp only [Ok, hdoing] at hok
  rcases hok with h | h | h | ⟨-, -, -, -, ⟨hq, hn⟩ | ⟨hq, hn⟩⟩
  · simp_all
  · simp_all
  · simp_all
  · simp [Task.reap, hq, hn]
  · simp [Task.reap, hq, hn]

def Reachable : Task → Prop :=
  Reach step (fun _ _ => True) fun s => ∃ t, s = { owner := t }

theorem ok_of_reach (h : s.Reachable) : s.Ok := by
  refine h.invariant ?_ fun s e s' hs _ hstep => hs.step hstep
  rintro s ⟨t, rfl⟩
  simp [Ok]

structure Run (w : Nat → Task) (e : Nat → TaskEvent) : Prop where
  start : ∃ t, w 0 = { owner := t }
  step : ∀ n, (w n).step (e n) = some (w (n + 1))

variable {w : Nat → Task} {events : Nat → TaskEvent}

theorem Run.reachable (h : Run w events) (n : Nat) : (w n).Reachable := by
  induction n with
  | zero => exact .start h.start
  | succ n ih => exact .step ih trivial (h.step n)

theorem Run.owner (h : Run w events) (n : Nat) : (w n).owner = (w 0).owner := by
  induction n with
  | zero => rfl
  | succ n ih => exact (kept_step (h.step n)).1.trans ih

theorem Run.stays {P : Task → Prop} (h : Run w events)
    (hP : ∀ {s s' e}, s.Ok → P s → s.step e = some s' → P s') {n m} (hn : P (w n)) (hm : n ≤ m) :
    P (w m) := by
  induction hm with
  | refl => exact hn
  | @step m _ ih => exact hP (ok_of_reach (h.reachable m)) ih (h.step m)

/-- The handle is released by the owner, or before the entry has returned. -/
def Released (w : Nat → Task) (events : Nat → TaskEvent) : Prop :=
  ∃ n t, events n = .release t ∧ (t = (w n).owner ∨ (w n).returned = false)

def Loops (w : Nat → Task) (events : Nat → TaskEvent) : Prop :=
  ∀ n, ∃ m ≥ n, events m = .reap (w 0).owner

/-- A task is destroyed once at most, by its owner, after the return of its entry and its final
yield, and it is destroyed in the end if its entry returns. -/
theorem reclaimed : (∀ s, Reachable s → s.destroyedBy = [] ∨
      s.destroyedBy = [s.owner] ∧ s.returned ∧ s.yielded) ∧
    ∀ w events, Run w events → Released w events → Loops w events → (∃ n, (w n).returned) →
      ∃ n, (w n).destroyedBy = [(w n).owner] := by
  constructor
  · intro s hs
    have hok := ok_of_reach hs
    unfold Ok at hok
    split at hok <;> grind
  · rintro w events hrun ⟨n, t, hn, hgood⟩ hloop ⟨m, hm⟩
    obtain ⟨l, hl, hevent⟩ := hloop (n + 1 + m)
    have hstep := hrun.step l
    rw [hevent, ← hrun.owner l] at hstep
    have hclaimed : (w (n + 1)).Claimed :=
      claimed_release (ok_of_reach (hrun.reachable n)) (hn ▸ hrun.step n) hgood
    refine ⟨l + 1, destroyed_of_reap (ok_of_reach (hrun.reachable l)) ?_ ?_ hstep⟩
    · exact hrun.stays (fun hok h hstep => h.step hok hstep) hclaimed (by omega)
    · exact hrun.stays (P := fun s => s.returned) (fun _ h hstep => (kept_step hstep).2 h) hm
        (by omega)

/-- Another thread releases the handle, the entry returns, and the owner's event loop goes on. -/
def sampleEvents : Nat → TaskEvent
  | 0 => .release 1
  | 1 => .finish
  | 2 | 3 | 4 => .advance
  | _ => .reap 0

def sampleRun : Nat → Task
  | 0 => { owner := 0 }
  | n + 1 => ((sampleRun n).step (sampleEvents n)).getD (sampleRun n)

theorem sampleRun_rest (n : Nat) : sampleRun (n + 6) = sampleRun 6 := by
  induction n with
  | zero => rfl
  | succ n ih =>
    rw [Nat.add_right_comm, sampleRun, ih]
    rfl

theorem run_sample : Run sampleRun sampleEvents := by
  refine ⟨⟨0, rfl⟩, fun n => ?_⟩
  by_cases hn : n < 6
  · revert n
    decide
  · obtain ⟨m, rfl⟩ := Nat.exists_eq_add_of_le' (Nat.not_lt.1 hn)
    rw [sampleRun_rest m, Nat.add_right_comm, sampleRun_rest (m + 1)]
    rfl

theorem reclaimed_sample : ∃ n, (sampleRun n).destroyedBy = [(sampleRun n).owner] :=
  reclaimed.2 _ _ run_sample ⟨0, 1, rfl, .inr rfl⟩ (fun n => ⟨n + 5, Nat.le_add_right n 5, rfl⟩)
    ⟨2, rfl⟩

theorem never_returns : ∃ w events, Run w events ∧ Released w events ∧ Loops w events ∧
    ∀ n, (w n).destroyedBy = [] := by
  refine ⟨fun n => if n = 0 then { owner := 0 } else
    { owner := 0, held := false, lifecycle := .detached },
    fun n => if n = 0 then .release 1 else .reap 0, ⟨⟨0, rfl⟩, fun n => ?_⟩,
    ⟨0, 1, rfl, .inr rfl⟩, fun n => ⟨n + 1, Nat.le_succ n, rfl⟩, fun n => ?_⟩
  · cases n <;> rfl
  · cases n <;> rfl

end Task

end Mqtts.Runtime
