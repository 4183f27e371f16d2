/-!
# Runs of a transition function

A system is a step function `σ → ε → Option σ`, where `none` says that the event is not possible in
the state.
-/

namespace Runs

variable {σ ε : Type}

section

variable (step : σ → ε → Option σ) (ok : σ → ε → Prop) (start : σ → Prop)

/-- The states of the runs from a state of `start` in which every step meets the condition `ok` on
its event and the state before it. -/
inductive Reach : σ → Prop where
  | start {s : σ} : start s → Reach s
  | step {s s' : σ} {e : ε} : Reach s → ok s e → step s e = some s' → Reach s'

def runOk [∀ s e, Decidable (ok s e)] (s : σ) : List ε → Option σ
  | [] => some s
  | e :: es => if ok s e then (step s e).bind (fun s' => runOk s' es) else none

end

variable {step : σ → ε → Option σ} {ok : σ → ε → Prop} {start : σ → Prop}

/-- The one induction over runs. -/
theorem Reach.invariant {Inv : σ → Prop} (h0 : ∀ s, start s → Inv s)
    (hstep : ∀ s e s', Inv s → ok s e → step s e = some s' → Inv s')
    {s} (h : Reach step ok start s) : Inv s := by
  induction h with
  | start hs => exact h0 _ hs
  | step _ hok he ih => exact hstep _ _ _ ih hok he

/-- The state after a concrete list of events. -/
theorem reach_runOk [∀ s e, Decidable (ok s e)] {s s' events}
    (h : Reach step ok start s) (hrun : runOk step ok s events = some s') :
    Reach step ok start s' := by
  induction events generalizing s with
  | nil =>
    obtain rfl : s = s' := by simpa [runOk] using hrun
    exact h
  | cons e es ih =>
    by_cases hok : ok s e
    · rw [runOk, if_pos hok] at hrun
      obtain ⟨s₁, h₁, h₂⟩ := Option.bind_eq_some_iff.1 hrun
      exact ih (h.step hok h₁) h₂
    · simp [runOk, hok] at hrun

theorem reach_runOk_getD [∀ s e, Decidable (ok s e)] {s events} (d : σ)
    (h : Reach step ok start s) (hrun : (runOk step ok s events).isSome) :
    Reach step ok start ((runOk step ok s events).getD d) := by
  obtain ⟨s', hs'⟩ := Option.isSome_iff_exists.1 hrun
  rw [hs']
  exact reach_runOk h hs'

theorem Reach.mono {ok' : σ → ε → Prop} (hok : ∀ s e, ok s e → ok' s e) {s}
    (h : Reach step ok start s) : Reach step ok' start s := by
  induction h with
  | start hs => exact .start hs
  | step _ hs he ih => exact ih.step (hok _ _ hs) he

/-! ## Loops that can throw -/

section

variable {τ α β : Type}

theorem exists_of_bind_ok {x} {f : α → Except τ β} {b} (h : (x >>= f) = .ok b) :
    ∃ a, x = .ok a ∧ f a = .ok b := by
  cases x with
  | error e => cases h
  | ok a => exact ⟨a, rfl, h⟩

theorem foldl_invariant {f : σ → α → σ} {I : σ → Prop} (hstep : ∀ s a, I s → I (f s a)) :
    ∀ (as : List α) {s}, I s → I (as.foldl f s)
  | [], _, hI => hI
  | a :: as, s, hI => foldl_invariant hstep as (hstep s a hI)

/-- The induction over a loop whose body can throw. -/
theorem foldlM_invariant {f : σ → α → Except τ σ} {I : σ → Prop} : ∀ {as : List α} {s s'},
    (∀ {s a s'}, a ∈ as → I s → f s a = .ok s' → I s') → I s → as.foldlM f s = .ok s' → I s'
  | [], _, _, _, hI, h => by
    cases h
    exact hI
  | a :: as, s, s', hstep, hI, h => by
    rw [List.foldlM_cons] at h
    obtain ⟨s₁, h₁, hrest⟩ := exists_of_bind_ok h
    exact foldlM_invariant (fun ha => hstep (List.mem_cons_of_mem _ ha))
      (hstep List.mem_cons_self hI h₁) hrest

theorem foldlM_forall {f : σ → α → Except τ σ} {P : α → Prop}
    (hstep : ∀ s a s', f s a = .ok s' → P a) :
    ∀ {as : List α} {s s'}, as.foldlM f s = .ok s' → ∀ a ∈ as, P a
  | [], _, _, _, a, ha => absurd ha List.not_mem_nil
  | b :: as, s, s', h, a, ha => by
    rw [List.foldlM_cons] at h
    obtain ⟨s₁, h₁, hrest⟩ := exists_of_bind_ok h
    rcases List.mem_cons.1 ha with rfl | ha
    · exact hstep s a s₁ h₁
    · exact foldlM_forall hstep hrest a ha

end

end Runs
