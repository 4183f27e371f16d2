import Mqtts.Lib.Runs
import Mathlib.Tactic.Common

/-!
# The coroutine mutex

`CoroutineMutex` has no owner. It counts the coroutines that hold it or wait for it, and a coroutine
that comes while the count is not zero waits in the queue of a libco condition, from which `unlock`
takes the first one. libco runs a coroutine that was taken later, so between the two the mutex is
not held, and whoever comes then finds the count of the one that was taken.
-/

namespace Mqtts.Runtime

open List Runs

variable {κ ε : Type} [DecidableEq κ] [DecidableEq ε]

/-- `MutexState`; `cond` is the queue of the condition. -/
structure MutexState (κ ε : Type) where
  holdCount : Int := 0
  waiterEnv : Option ε := none
  cond : List κ := []

def canWakeWaiter (env : ε) (waiterEnv : Option ε) : Bool :=
  waiterEnv.isNone || waiterEnv == some env

namespace MutexState

/-- `CoroutineMutex::lock` of a coroutine up to the point where it returns or waits, and whether it
waits. -/
def lock (env : ε) (c : κ) (m : MutexState κ ε) : Bool × MutexState κ ε :=
  let counted := { m with holdCount := m.holdCount + 1 }
  if m.holdCount > 0 then (true, { counted with waiterEnv := some env, cond := m.cond ++ [c] })
  else (false, counted)

/-- `CoroutineMutex::unlock`, and the coroutine that it makes runnable. -/
def unlock (env : ε) (m : MutexState κ ε) : Option κ × MutexState κ ε :=
  let counted := { m with holdCount := m.holdCount - 1 }
  if canWakeWaiter env m.waiterEnv then (m.cond.head?, { counted with cond := m.cond.tail })
  else (none, counted)

end MutexState

/-- The coroutines of a thread. `waited` are the calls of `lock` that had to wait, in their order,
and `entered` those of them that have returned. -/
structure Thread (κ ε : Type) where
  mutex : MutexState κ ε := {}
  holding : List κ := []
  runnable : List κ := []
  waited : List κ := []
  entered : List κ := []

inductive Act (κ : Type) where
  | lock (c : κ)
  | resume (c : κ)
  | unlock (c : κ)

namespace Thread

def waiting (t : Thread κ ε) : List κ := t.runnable ++ t.mutex.cond

def step (env : ε) (t : Thread κ ε) : Act κ → Option (Thread κ ε)
  | .lock c =>
    if c ∈ t.holding ++ t.waiting then none
    else match t.mutex.lock env c with
      | (true, mutex) => some { t with mutex, waited := t.waited ++ [c] }
      | (false, mutex) => some { t with mutex, holding := c :: t.holding }
  | .resume c =>
    if c ∈ t.runnable then some { t with
      runnable := t.runnable.erase c, holding := c :: t.holding, entered := t.entered ++ [c] }
    else none
  | .unlock c =>
    if c ∈ t.holding then
      let (woken, mutex) := t.mutex.unlock env
      some { t with mutex, holding := t.holding.erase c, runnable := t.runnable ++ woken.toList }
    else none

structure Inv (env : ε) (t : Thread κ ε) : Prop where
  one : t.holding.length + t.runnable.length ≤ 1
  busy : t.mutex.cond ≠ [] → t.holding.length + t.runnable.length = 1
  count : t.mutex.holdCount = (t.holding ++ t.waiting).length
  nodup : (t.holding ++ t.waiting).Nodup
  order : t.waited = t.entered ++ t.waiting
  wakes : canWakeWaiter env t.mutex.waiterEnv

variable {env : ε} {t t' : Thread κ ε}

omit [DecidableEq κ] in
theorem eq_of_mem {A B : List κ} {c} (hc : c ∈ A) (h : A.length + B.length ≤ 1) :
    A = [c] ∧ B = [] := by
  obtain ⟨a, rfl⟩ := length_eq_one_iff.1 (show A.length = 1 by
    have := length_pos_of_mem hc
    omega)
  obtain rfl := mem_singleton.1 hc
  exact ⟨rfl, length_eq_zero_iff.1 (by rw [length_singleton] at h; omega)⟩

theorem Inv.lock {c} (h : Inv env t) (hstep : t.step env (.lock c) = some t') : Inv env t' := by
  simp only [Thread.step, MutexState.lock] at hstep
  split at hstep
  · cases hstep
  rename_i hc
  obtain ⟨hone, hbusy, hcount, hnodup, horder, hwakes⟩ := h
  simp only [waiting, length_append] at *
  split at hstep <;> rename_i hheld <;> split at hheld <;> cases hheld <;> cases hstep
  · refine ⟨hone, fun _ => ?_, ?_, ?_, ?_, by simp [canWakeWaiter]⟩
    · show t.holding.length + t.runnable.length = 1
      by_contra hne
      rw [not_not.1 fun hq => hne (hbusy hq), length_nil] at hcount
      omega
    · simp only [waiting, length_append, length_singleton]
      omega
    · have hperm := perm_append_singleton c (t.holding ++ (t.runnable ++ t.mutex.cond))
      simp only [append_assoc] at hperm
      exact hperm.nodup_iff.2 (nodup_cons.2 ⟨hc, hnodup⟩)
    · simp [waiting, horder]
  · refine ⟨?_, fun hq => ?_, ?_, nodup_cons.2 ⟨hc, hnodup⟩, horder, hwakes⟩
    · simp only [length_cons]
      omega
    · have := length_pos_iff.2 hq
      simp only [length_cons] at *
      omega
    · simp only [waiting, cons_append, length_cons, length_append]
      omega

theorem Inv.resume {c} (h : Inv env t) (hstep : t.step env (.resume c) = some t') : Inv env t' := by
  simp only [Thread.step] at hstep
  split at hstep <;> cases hstep
  rename_i hc
  obtain ⟨hone, hbusy, hcount, hnodup, horder, hwakes⟩ := h
  obtain ⟨hrun, hheld⟩ := eq_of_mem hc (Nat.add_comm _ _ ▸ hone)
  simp only [waiting, hrun, hheld] at hcount hnodup horder
  refine ⟨?_, fun _ => ?_, ?_, ?_, ?_, hwakes⟩ <;> simp_all [waiting]

theorem Inv.unlock {c} (h : Inv env t) (hstep : t.step env (.unlock c) = some t') : Inv env t' := by
  simp only [Thread.step] at hstep
  split at hstep <;> cases hstep
  rename_i hc
  obtain ⟨hone, hbusy, hcount, hnodup, horder, hwakes⟩ := h
  obtain ⟨hheld, hrun⟩ := eq_of_mem hc hone
  simp only [waiting, hrun, hheld] at hcount hnodup horder
  cases hcond : t.mutex.cond with
  | nil | cons next rest => constructor <;> simp_all [waiting, MutexState.unlock]

def Reachable (env : ε) : Thread κ ε → Prop := Reach (step env) (fun _ _ => True) (· = {})

theorem inv_of_reach (h : Reachable env t) : Inv env t := by
  refine Reach.invariant (fun s hs => ?_) (fun s e s' hs _ hstep => ?_) h
  · subst hs
    exact ⟨by simp, fun h => absurd rfl h, rfl, nodup_nil, rfl, rfl⟩
  · cases e with
    | lock c => exact hs.lock hstep
    | resume c => exact hs.resume hstep
    | unlock c => exact hs.unlock hstep

/-- Of the coroutines that wait when the mutex is not held, the one that called `lock` first is
runnable. -/
structure Fair (t : Thread κ ε) : Prop where
  exclusive : t.holding.length ≤ 1
  order : t.entered <+: t.waited
  count : t.mutex.holdCount = (t.holding ++ t.waiting).length ∧ (t.holding ++ t.waiting).Nodup
  next : t.holding = [] → t.waiting ≠ [] →
    ∃ c rest, t.waited = t.entered ++ c :: rest ∧ c ∈ t.runnable

/-- The mutex is fair in every run. -/
theorem fair_lock (h : Reachable env t) : Fair t := by
  obtain ⟨hone, hbusy, hcount, hnodup, horder, -⟩ := inv_of_reach h
  refine ⟨by omega, ⟨_, horder.symm⟩, ⟨hcount, hnodup⟩, fun hheld hwaiting => ?_⟩
  rw [hheld, length_nil, Nat.zero_add] at hbusy
  have hrun : t.runnable ≠ [] := fun hnil => by
    rw [hnil, length_nil] at hbusy
    have hcond : t.mutex.cond = [] := not_not.1 fun hq => absurd (hbusy hq) (by decide)
    exact hwaiting (by rw [waiting, hnil, hcond]; rfl)
  obtain ⟨c, rest, hc⟩ := exists_cons_of_ne_nil hrun
  exact ⟨c, rest ++ t.mutex.cond, by rw [horder, waiting, hc]; rfl, by rw [hc]; exact mem_cons_self⟩

def handedOver : Thread Nat Unit :=
  (runOk (step ()) (fun _ _ => True) {} [.lock 0, .lock 1, .lock 2, .unlock 0]).getD {}

theorem reach_handedOver : Reachable () handedOver := by
  have hrun : (runOk (step ()) (fun _ _ => True) ({} : Thread Nat Unit)
    [.lock 0, .lock 1, .lock 2, .unlock 0]).isSome := rfl
  have hstart : Reachable () ({} : Thread Nat Unit) := .start rfl
  exact reach_runOk_getD {} hstart hrun

theorem fair_lock_handedOver : ∃ c rest,
    handedOver.waited = handedOver.entered ++ c :: rest ∧ c ∈ handedOver.runnable :=
  (fair_lock reach_handedOver).next rfl (by decide)

theorem waits_not_runnable : Reachable () handedOver ∧ handedOver.holding = [] ∧
    2 ∈ handedOver.waiting ∧ 2 ∉ handedOver.runnable :=
  ⟨reach_handedOver, by decide⟩

end Thread

end Mqtts.Runtime
