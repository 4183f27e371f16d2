import Mqtts.Session.Takeover

/-!
# Who owns a client id

The part of a takeover that does not speak of gates. Each lemma about `Placed` is one change: a call
reserves its id, sees the id cleared, gives up, enters its handler, publishes it; a connection takes
its handler out of the manager, and the manager out of the index.
-/

namespace Mqtts.Takeover

open Function

/-- What a connection is for its client id: `targeting m` is a call that has reserved the id
and is to see the manager `m` cleared, `alone` one that has seen it. -/
inductive Role where
  | outside
  | targeting (m : Nat)
  | leaving
  | alone
  | entered
  | owner
  | erased
  | past

namespace Role

def Reserved : Role → Prop
  | .targeting _ | .leaving | .alone | .entered => True
  | _ => False

def Registered : Role → Prop
  | .entered | .owner => True
  | _ => False

def Out : Role → Prop
  | .erased | .past => True
  | _ => False

end Role

/-- Which call holds the reservation of a client id, which handlers are registered under it, what
the client index says, and the roles of the connections. -/
structure View where
  role : Nat → Role
  thread : Nat → Nat
  clientId : Nat → Str
  previous : Nat → Option Nat
  owner : Nat → Str → Option Nat
  index : Str → Option Nat
  reservations : Str → Option Nat
  pinned : Nat → Option Nat

namespace View

/-- What the shared data hold for a role. -/
def Clause (v : View) (n : Nat) : Role → Prop
  | .targeting M => v.reservations (v.clientId n) = some n ∧
      ∀ m p, v.owner m (v.clientId n) = some p → m = M ∧ v.previous n = some p
  | .leaving => v.reservations (v.clientId n) = some n
  | .alone => v.reservations (v.clientId n) = some n ∧ ∀ m, v.owner m (v.clientId n) = none
  | .entered => v.reservations (v.clientId n) = some n ∧
      v.owner (v.thread n) (v.clientId n) = some n ∧
      ∀ m p, v.owner m (v.clientId n) = some p → p = n
  | .owner => v.owner (v.thread n) (v.clientId n) = some n ∧
      v.index (v.clientId n) = some (v.thread n)
  | .erased => v.pinned (v.thread n) = some n ∧ v.owner (v.thread n) (v.clientId n) = none
  | .outside | .past => True

/-- The clauses of all connections, and the connections behind the shared data. -/
structure Placed (v : View) : Prop where
  clause : ∀ n, v.Clause n (v.role n)
  entry : ∀ {m c n}, v.owner m c = some n →
    v.thread n = m ∧ v.clientId n = c ∧ (v.role n).Registered
  holder : ∀ {c n}, v.reservations c = some n → v.clientId n = c ∧ (v.role n).Reserved
  pin : ∀ {m n}, v.pinned m = some n → v.role n = .erased ∧ v.thread n = m

structure History (v : View) : Prop where
  before : ∀ {n p}, v.previous n = some p →
    v.clientId p = v.clientId n ∧ (v.role p = .owner ∨ (v.role p).Out)
  after : ∀ {n p}, v.previous n = some p → (v.role n).Registered ∨ (v.role n).Out → (v.role p).Out

def setRole (v : View) (n : Nat) (r : Role) : View := { v with role := update v.role n r }

def setOwner (v : View) (m : Nat) (c : Str) (o : Option Nat) : View :=
  { v with owner := fun m' c' => if m' = m ∧ c' = c then o else v.owner m' c' }

section

variable {v v' : View} {n k : Nat}

@[simp] theorem role_setRole (v : View) (n : Nat) (r : Role) (k : Nat) :
    (v.setRole n r).role k = if k = n then r else v.role k :=
  update_apply ..

variable {r : Role}

theorem Clause.congr (h : v.Clause k r) (hthread : v'.thread k = v.thread k)
    (hclient : v'.clientId k = v.clientId k) (hprevious : v'.previous k = v.previous k)
    (howner : ∀ m, v'.owner m (v.clientId k) = v.owner m (v.clientId k))
    (hindex : v'.index (v.clientId k) = v.index (v.clientId k))
    (hres : v'.reservations (v.clientId k) = v.reservations (v.clientId k))
    (hpin : v'.pinned (v.thread k) = v.pinned (v.thread k)) : v'.Clause k r := by
  cases r <;> simp only [Clause, hthread, hclient, hprevious, howner, hindex, hres, hpin] <;> exact
    h

theorem Clause.of_unreserved (h : v.Clause k r) (hr : ¬ r.Reserved)
    (hthread : v'.thread k = v.thread k) (hclient : v'.clientId k = v.clientId k)
    (howner : r = .owner ∨ r = .erased → v'.owner (v.thread k) (v.clientId k) = v.owner
    (v.thread k) (v.clientId k))
    (hindex : r = .owner → v'.index (v.clientId k) = v.index (v.clientId k))
    (hpin : r = .erased → v'.pinned (v.thread k) = v.pinned (v.thread k)) : v'.Clause k r := by
  cases r with
  | outside | past => trivial
  | owner =>
    rw [Clause, hthread, hclient, howner (.inl rfl), hindex rfl]
    exact h
  | erased =>
    rw [Clause, hthread, hclient, howner (.inr rfl), hpin rfl]
    exact h
  | _ => exact (hr trivial).elim

theorem Clause.of_fewer (h : v.Clause k r) (hthread : v'.thread k = v.thread k)
    (hclient : v'.clientId k = v.clientId k) (hprevious : v'.previous k = v.previous k)
    (hless : ∀ {m p}, v'.owner m (v.clientId k) = some p → v.owner m (v.clientId k) = some p)
    (howns : r.Registered → v'.owner (v.thread k) (v.clientId k) = some k)
    (hindex : v'.index = v.index) (hres : v'.reservations = v.reservations)
    (hpin : r = .erased → v'.pinned (v.thread k) = v.pinned (v.thread k)) : v'.Clause k r := by
  have hnone : ∀ {m}, v.owner m (v.clientId k) = none → v'.owner m (v.clientId k) = none := by
    intro m hm
    cases ho : v'.owner m (v.clientId k) with
    | none => rfl
    | some p =>
      rw [hless ho] at hm
      cases hm
  cases r with
  | outside | past => trivial
  | targeting M =>
    rw [Clause, hclient, hprevious, hres]
    exact ⟨h.1, fun m p ho => h.2 m p (hless ho)⟩
  | leaving =>
    rw [Clause, hclient, hres]
    exact h
  | alone =>
    rw [Clause, hclient, hres]
    exact ⟨h.1, fun m => hnone (h.2 m)⟩
  | entered =>
    rw [Clause, hclient, hthread, hres]
    exact ⟨h.1, howns trivial, fun m p ho => h.2.2 m p (hless ho)⟩
  | owner =>
    rw [Clause, hclient, hthread, hindex]
    exact ⟨howns trivial, h.2⟩
  | erased =>
    rw [Clause, hclient, hthread, hpin rfl]
    exact ⟨h.1, hnone h.2⟩

theorem Clause.reservation (h : v.Clause n r) (hr : r.Reserved) :
    v.reservations (v.clientId n) = some n := by
  cases r with
  | targeting M => exact h.1
  | leaving => exact h
  | alone | entered => exact h.1
  | _ => exact hr.elim

theorem Clause.owns (h : v.Clause n r) (hr : r.Registered) :
    v.owner (v.thread n) (v.clientId n) = some n := by
  cases r with
  | entered => exact h.2.1
  | owner => exact h.1
  | _ => exact hr.elim

namespace Placed

variable {r : Role} {m p : Nat} {c : Str}

section

variable (h : v.Placed)
include h

theorem clause_of (hr : v.role n = r) : v.Clause n r := hr ▸ h.clause n

theorem eq_of_reserved (hn : (v.role n).Reserved) (hk : (v.role k).Reserved)
    (hc : v.clientId k = v.clientId n) : k = n := by
  have h1 := (h.clause n).reservation hn
  have h2 := (h.clause k).reservation hk
  rw [hc, h1] at h2
  exact (Option.some.inj h2).symm

theorem unreserved (hn : (v.role n).Reserved) (hk : k ≠ n)
    (hc : v.clientId k = v.clientId n) : ¬ (v.role k).Reserved :=
  fun hr => hk (h.eq_of_reserved hn hr hc)

theorem pin_setRole (hn : v.role n ≠ .erased) (hpin : v.pinned m = some p) :
    (v.setRole n r).role p = .erased ∧ v.thread p = m := by
  obtain ⟨her, hm⟩ := h.pin hpin
  have hne : p ≠ n := by
    rintro rfl
    exact hn her
  exact ⟨by simpa [hne] using her, hm⟩

theorem entry_setRole (hr : (v.role n).Registered → r.Registered) (ho : v.owner m c = some p) :
    v.thread p = m ∧ v.clientId p = c ∧ ((v.setRole n r).role p).Registered := by
  obtain ⟨hm, hc, hreg⟩ := h.entry ho
  refine ⟨hm, hc, ?_⟩
  rw [role_setRole]
  split
  · next heq =>
      subst heq
      exact hr hreg
  · exact hreg

theorem holder_setRole (hres : v.reservations c = some p)
    (hn : r.Reserved ∨ v.clientId n ≠ c ∨ ¬ (v.role n).Reserved) :
    v.clientId p = c ∧ ((v.setRole n r).role p).Reserved := by
  obtain ⟨hcl, hreg⟩ := h.holder hres
  refine ⟨hcl, ?_⟩
  rw [role_setRole]
  split
  · next heq =>
      subst heq
      rcases hn with hn | hn | hn
      · exact hn
      · exact (hn hcl).elim
      · exact (hn hreg).elim
  · exact hreg

theorem unique {m' p'} (ho : v.owner m c = some p) (ho' : v.owner m' c = some p') : p = p' := by
  obtain ⟨hm, hc, hr⟩ := h.entry ho
  obtain ⟨hm', hc', hr'⟩ := h.entry ho'
  cases hrole : v.role p with
  | entered => exact ((h.clause_of hrole).2.2 m' p' (by rw [hc]; exact ho')).symm
  | owner =>
    cases hrole' : v.role p' with
    | entered => exact (h.clause_of hrole').2.2 m p (by rw [hc']; exact ho)
    | owner =>
      have hi := (h.clause_of hrole).2
      have hi' := (h.clause_of hrole').2
      rw [hc, hm] at hi
      rw [hc', hm', hi] at hi'
      cases hi'
      rw [ho] at ho'
      exact Option.some.inj ho'
    | _ => rw [hrole'] at hr'; exact hr'.elim
  | _ => rw [hrole] at hr; exact hr.elim

theorem move (hn : (v.role n).Reserved) (hr : r.Reserved)
    (hn' : ¬ (v.role n).Registered) (hc : v.Clause n r) : (v.setRole n r).Placed := by
  refine ⟨fun k => ?_, fun ho => h.entry_setRole (fun hreg => (hn' hreg).elim) ho,
    fun hres => h.holder_setRole hres (.inl hr), fun hpin => h.pin_setRole ?_ hpin⟩
  · rcases eq_or_ne k n with rfl | hk
    · rw [role_setRole, if_pos rfl]
      exact hc.congr rfl rfl rfl (fun _ => rfl) rfl rfl rfl
    · rw [role_setRole, if_neg hk]
      exact (h.clause k).congr rfl rfl rfl (fun _ => rfl) rfl rfl rfl
  · intro her
    rw [her] at hn
    exact hn

theorem connect (hr : v.role n = .outside) (thread : Nat) (c : Str) : Placed { v with
      thread := update v.thread n thread
      clientId := update v.clientId n c
      previous := update v.previous n none } := by
  have hne : ∀ {k} {P : Role → Prop}, P (v.role k) → ¬ P .outside → k ≠ n := by
    rintro k P hk hP rfl
    exact hP (hr ▸ hk)
  refine ⟨fun k => ?_, fun {m c p} ho => ?_, fun {c p} hres => ?_, fun {m p} hpin => ?_⟩
  · rcases eq_or_ne k n with rfl | hk
    · simp only [hr]
      trivial
    · exact (h.clause k).congr (update_of_ne hk ..) (update_of_ne hk ..) (update_of_ne hk ..)
        (fun _ => rfl) rfl rfl rfl
  · obtain ⟨hm, hc', hreg⟩ := h.entry ho
    have hk := hne (P := Role.Registered) hreg id
    simp only [update_of_ne hk]
    exact ⟨hm, hc', hreg⟩
  · obtain ⟨hc', hreg⟩ := h.holder hres
    have hk := hne (P := Role.Reserved) hreg id
    simp only [update_of_ne hk]
    exact ⟨hc', hreg⟩
  · obtain ⟨her, hm⟩ := h.pin hpin
    have hk := hne (P := (· = .erased)) her (by simp)
    simp only [update_of_ne hk]
    exact ⟨her, hm⟩

theorem owner_of_free (hfree : v.reservations c = none) (ho : v.owner m c = some p) :
    v.role p = .owner ∧ v.index c = some m := by
  obtain ⟨hm, hc, hreg⟩ := h.entry ho
  cases hp : v.role p with
  | entered =>
    have hres := (h.clause_of hp).1
    rw [hc, hfree] at hres
    cases hres
  | owner =>
    have hidx := (h.clause_of hp).2
    rw [hc, hm] at hidx
    exact ⟨rfl, hidx⟩
  | _ =>
    rw [hp] at hreg
    exact hreg.elim

theorem reserve {previous} (hn : v.role n = .outside) (hfree : v.reservations (v.clientId n) = none)
    (hr : (∃ M, r = .targeting M ∧ v.index (v.clientId n) = some M ∧ previous = v.owner M
    (v.clientId n)) ∨ (r = .alone ∧ v.index (v.clientId n) = none)) :
    Placed { v.setRole n r with
      previous := update v.previous n previous
      reservations := update v.reservations (v.clientId n) (some n) } := by
  have hreserved : r.Reserved := by rcases hr with ⟨M, rfl, -⟩ | ⟨rfl, -⟩ <;> trivial
  refine ⟨fun k => ?_, fun ho => h.entry_setRole (fun hreg => ?_) ho, fun {c p} hres => ?_,
    fun hpin => h.pin_setRole (by rw [hn]; simp) hpin⟩
  · rcases eq_or_ne k n with rfl | hk
    · simp only [role_setRole, if_true]
      rcases hr with ⟨M, rfl, hidx, hprev⟩ | ⟨rfl, hidx⟩
      · refine ⟨update_self .., fun m p ho => ?_⟩
        -- Who is registered under the free id is where the index says.
        have hm := (h.owner_of_free hfree ho).2
        rw [hidx] at hm
        cases hm
        exact ⟨rfl, by simp only [update_self, hprev]; exact ho⟩
      · refine ⟨update_self .., fun m => ?_⟩
        cases ho : v.owner m (v.clientId k) with
        | none => exact ho
        | some p =>
          have hm := (h.owner_of_free hfree ho).2
          rw [hidx] at hm
          cases hm
    · simp only [role_setRole, hk, if_false]
      by_cases hc : v.clientId k = v.clientId n
      · refine (h.clause k).of_unreserved (fun hres => ?_) rfl rfl (fun _ => rfl) (fun _ => rfl)
          (fun _ => rfl)
        have := (h.clause k).reservation hres
        rw [hc, hfree] at this
        cases this
      · exact (h.clause k).congr rfl rfl (update_of_ne hk ..) (fun _ => rfl) rfl
          (update_of_ne hc ..) rfl
  · rw [hn] at hreg
    exact hreg.elim
  · simp only [update_apply] at hres
    split at hres
    · next hc =>
        cases hres
        exact ⟨hc.symm, by simpa using hreserved⟩
    · exact h.holder_setRole hres (.inl hreserved)

theorem release (hn : v.role n = .leaving) : Placed { v.setRole n .outside with
      reservations := update v.reservations (v.clientId n) none } := by
  have hres : (v.role n).Reserved := by rw [hn]; trivial
  refine ⟨fun k => ?_, fun ho => h.entry_setRole (fun hreg => ?_) ho, fun {c p} hres' => ?_,
    fun hpin => h.pin_setRole (by rw [hn]; simp) hpin⟩
  · rcases eq_or_ne k n with rfl | hk
    · simp only [role_setRole, if_true]
      trivial
    · simp only [role_setRole, hk, if_false]
      by_cases hc : v.clientId k = v.clientId n
      · exact (h.clause k).of_unreserved (h.unreserved hres hk hc) rfl rfl (fun _ => rfl)
          (fun _ => rfl) fun _ => rfl
      · exact (h.clause k).congr rfl rfl rfl (fun _ => rfl) rfl (update_of_ne hc ..) rfl
  · rw [hn] at hreg
    exact hreg.elim
  · simp only [update_apply] at hres'
    split at hres'
    · cases hres'
    · next hc => exact h.holder_setRole hres' (.inr (.inl (Ne.symm hc)))

theorem register (hn : v.role n = .alone)
    (hrun : v.pinned (v.thread n) = none ∨ v.pinned (v.thread n) = some n) :
    ((v.setOwner (v.thread n) (v.clientId n) (some n)).setRole n .entered).Placed := by
  obtain ⟨hres, hfree⟩ := h.clause_of hn
  refine ⟨fun k => ?_, fun {m c p} ho => ?_, fun hr => h.holder_setRole hr (.inl trivial),
    fun hpin => h.pin_setRole (by rw [hn]; simp) hpin⟩
  · rcases eq_or_ne k n with rfl | hk
    · simp only [role_setRole, if_true]
      refine ⟨hres, by simp [setRole, setOwner], fun m p ho => ?_⟩
      simp only [setRole, setOwner, and_true] at ho
      split at ho
      · exact (Option.some.inj ho).symm
      · rw [hfree m] at ho
        cases ho
    · simp only [role_setRole, hk, if_false]
      by_cases hc : v.clientId k = v.clientId n
      · refine (h.clause k).of_unreserved
          (h.unreserved (by rw [hn]; trivial) hk hc) rfl rfl (fun hrole => ?_) (fun _ => rfl)
          (fun _ => rfl)
        have hcl := h.clause k
        rcases hrole with hrole | hrole
        · have howns : v.owner (v.thread k) (v.clientId k) = some k :=
            (h.clause_of (show v.role k = .owner from hrole)).1
          rw [hc, hfree] at howns
          cases howns
        · -- The thread of the newcomer is not in the middle of a removal.
          have hpin : v.pinned (v.thread k) = some k :=
            (h.clause_of (show v.role k = .erased from hrole)).1
          have hthread : v.thread k ≠ v.thread n := by
            intro ht
            rw [ht] at hpin
            rcases hrun with hrun | hrun <;> rw [hrun] at hpin
            · cases hpin
            · exact hk (Option.some.inj hpin).symm
          simp [setRole, setOwner, hthread]
      · exact (h.clause k).congr rfl rfl rfl (fun m => by simp [setRole, setOwner, hc]) rfl rfl rfl
  · simp only [setRole, setOwner] at ho
    split at ho
    · next hmc =>
        cases ho
        exact ⟨hmc.1.symm, hmc.2.symm, by simp [setRole, Role.Registered]⟩
    · exact h.entry_setRole (r := .entered) (fun _ => trivial) ho

theorem publish (hn : v.role n = .entered) : Placed { v.setRole n .owner with
      index := update v.index (v.clientId n) (some (v.thread n))
      reservations := update v.reservations (v.clientId n) none } := by
  obtain ⟨hres, howns, hsole⟩ := h.clause_of hn
  refine ⟨fun k => ?_, fun ho => h.entry_setRole (r := .owner) (fun _ => trivial) ho,
    fun {c p} hr => ?_,
    fun hpin => h.pin_setRole (by rw [hn]; simp) hpin⟩
  · rcases eq_or_ne k n with rfl | hk
    · simp only [role_setRole, if_true]
      exact ⟨howns, update_self ..⟩
    · simp only [role_setRole, hk, if_false]
      by_cases hc : v.clientId k = v.clientId n
      · refine (h.clause k).of_unreserved (h.unreserved (by rw [hn]; trivial) hk hc) rfl rfl
          (fun _ => rfl) (fun hrole => ?_) fun _ => rfl
        have hown : v.owner (v.thread k) (v.clientId k) = some k :=
          (h.clause_of (show v.role k = .owner from hrole)).1
        rw [hc] at hown
        exact (hk (hsole _ _ hown)).elim
      · exact (h.clause k).congr rfl rfl rfl (fun _ => rfl) (update_of_ne hc ..)
          (update_of_ne hc ..) rfl
  · simp only [update_apply] at hr
    split at hr
    · cases hr
    · next hc => exact h.holder_setRole hr (.inr (.inl (Ne.symm hc)))

theorem erase (hn : v.role n = .owner)
    (hrun : v.pinned (v.thread n) = none ∨ v.pinned (v.thread n) = some n) (ours : Bool) :
    Placed { (v.setOwner (v.thread n) (v.clientId n) none).setRole n
        (if ours then .erased else .past) with
      pinned := if ours then update v.pinned (v.thread n) (some n) else v.pinned } := by
  have hout : ¬ (v.role n).Reserved := by rw [hn]; exact id
  have hunpinned : v.pinned (v.thread n) = none := by
    rcases hrun with hrun | hrun
    · exact hrun
    · have := (h.pin hrun).1
      rw [hn] at this
      cases this
  have hless : ∀ {m c p}, (v.setOwner (v.thread n) (v.clientId n) none).owner m c = some p →
      v.owner m c = some p ∧ p ≠ n := by
    intro m c p ho
    simp only [setOwner] at ho
    split_ifs at ho with hmc
    refine ⟨ho, ?_⟩
    rintro rfl
    obtain ⟨hm, hc, -⟩ := h.entry ho
    exact hmc ⟨hm.symm, hc.symm⟩
  refine ⟨fun k => ?_, fun {m c p} ho => ?_, fun hr => h.holder_setRole hr (.inr (.inr hout)),
    fun {m p} hpin => ?_⟩
  · rcases eq_or_ne k n with rfl | hk
    · cases ours
      · simp [setRole, Clause]
      · simp [setRole, setOwner, Clause]
    · simp only [role_setRole, hk, if_false]
      refine (h.clause k).of_fewer rfl rfl rfl (fun ho => (hless ho).1) (fun hreg => ?_) rfl rfl
        (fun hrole => ?_)
      · have howns := (h.clause k).owns hreg
        simp only [setRole, setOwner]
        rw [if_neg]
        · exact howns
        · rintro ⟨ht, hc⟩
          rw [ht, hc, (h.clause_of hn).1] at howns
          exact hk (Option.some.inj howns).symm
      · have hpin : v.pinned (v.thread k) = some k :=
          (h.clause_of (show v.role k = .erased from hrole)).1
        have hthread : v.thread k ≠ v.thread n := fun ht => by
          rw [ht, hunpinned] at hpin
          cases hpin
        cases ours
        · rfl
        · exact update_of_ne hthread ..
  · obtain ⟨ho, hne⟩ := hless ho
    obtain ⟨hm, hc, hreg⟩ := h.entry ho
    exact ⟨hm, hc, by simpa [hne, setOwner] using hreg⟩
  · cases ours with
    | false => exact h.pin_setRole (by rw [hn]; simp) hpin
    | true =>
      simp only [if_true, update_apply] at hpin
      split at hpin
      · next hm =>
          cases hpin
          exact ⟨by simp, hm.symm⟩
      · exact h.pin_setRole (by rw [hn]; simp) hpin

theorem unindex (hn : v.role n = .erased) : Placed { v.setRole n .past with
      index := if v.index (v.clientId n) = some (v.thread n) then
        update v.index (v.clientId n) none else v.index
      pinned := update v.pinned (v.thread n) none } := by
  obtain ⟨hpinned, hgone⟩ := h.clause_of hn
  have hout : ¬ (v.role n).Reserved := by rw [hn]; exact id
  refine ⟨fun k => ?_, fun ho => h.entry_setRole (fun hreg => ?_) ho,
    fun hr => h.holder_setRole hr (.inr (.inr hout)), fun {m p} hpin => ?_⟩
  · rcases eq_or_ne k n with rfl | hk
    · simp only [role_setRole, if_true]
      trivial
    · simp only [role_setRole, hk, if_false]
      have hcl := h.clause k
      cases hrole : v.role k with
      | owner =>
        rw [hrole] at hcl
        refine ⟨hcl.1, ?_⟩
        -- An owner of the id is at another thread, so the index does not name this one.
        by_cases hc : v.clientId k = v.clientId n
        · have hidx : v.index (v.clientId n) ≠ some (v.thread n) := by
            intro hidx
            have howns := hcl.1
            have hk' := hcl.2
            rw [hc, hidx] at hk'
            rw [hc, ← Option.some.inj hk', hgone] at howns
            cases howns
          rw [if_neg hidx]
          exact hcl.2
        · split
          · exact (update_of_ne hc ..).trans hcl.2
          · exact hcl.2
      | erased =>
        rw [hrole] at hcl
        have hthread : v.thread k ≠ v.thread n := fun ht => by
          have hpin := hcl.1
          rw [ht, hpinned] at hpin
          exact hk (Option.some.inj hpin).symm
        exact ⟨(update_of_ne hthread ..).trans hcl.1, hcl.2⟩
      | _ => rw [hrole] at hcl; exact hcl
  · rw [hn] at hreg
    exact hreg.elim
  · simp only [update_apply] at hpin
    split_ifs at hpin with hm
    obtain ⟨her, ht⟩ := h.pin hpin
    have hne : p ≠ n := by
      rintro rfl
      exact hm ht.symm
    exact ⟨by simpa [hne] using her, ht⟩

end

end Placed

namespace History

variable {r : Role}

section

variable (h : v.History)
include h

theorem change (hrole : v'.role = (v.setRole n r).role)
    (hclient : v'.clientId = v.clientId) (hprevious : v'.previous = v.previous)
    (hback : v.role n = .owner ∨ (v.role n).Out → r = .owner ∨ r.Out)
    (hout : (v.role n).Out → r.Out)
    (hin : r.Registered ∨ r.Out → (v.role n).Registered ∨ (v.role n).Out ∨ ∀ p, v.previous n = some
    p → (v.role p).Out) :
    v'.History := by
  have hkeep : ∀ {k}, (v.role k).Out → (v'.role k).Out := by
    intro k hk
    rw [hrole, role_setRole]
    split
    · next heq => exact hout (heq ▸ hk)
    · exact hk
  refine ⟨fun {k p} hp => ?_, fun {k p} hp hk => ?_⟩ <;> rw [hprevious] at hp
  · obtain ⟨hc, hrp⟩ := h.before hp
    rw [hclient]
    refine ⟨hc, ?_⟩
    rw [hrole, role_setRole]
    split
    · next heq => exact hback (heq ▸ hrp)
    · exact hrp
  · rw [hrole, role_setRole] at hk
    split at hk
    · next heq =>
        subst heq
        rcases hin hk with hreg | ho | hall
        · exact hkeep (h.after hp (.inl hreg))
        · exact hkeep (h.after hp (.inr ho))
        · exact hkeep (hall p hp)
    · exact hkeep (h.after hp hk)

theorem change_early (hrole : v'.role = (v.setRole n r).role)
    (hclient : v'.clientId = v.clientId) (hprevious : v'.previous = v.previous)
    (hn : ¬ (v.role n).Registered ∧ ¬ (v.role n).Out) (hr : ¬ r.Registered ∧ ¬ r.Out) :
    v'.History := by
  refine h.change hrole hclient hprevious (fun ho => ?_) (fun ho => (hn.2 ho).elim)
    (fun ho => (ho.elim hr.1 hr.2).elim)
  rcases ho with ho | ho
  · rw [ho] at hn
    exact (hn.1 trivial).elim
  · exact (hn.2 ho).elim

theorem out_of_alone (hp : v.Placed) (hn : v.role n = .alone) :
    ∀ p, v.previous n = some p → (v.role p).Out := by
  intro p hprev
  obtain ⟨hc, hrole⟩ := h.before hprev
  rcases hrole with hrole | hout
  · have howns := (hp.clause_of hrole).1
    rw [hc, (hp.clause_of hn).2] at howns
    cases howns
  · exact hout

theorem connect (hr : v.role n = .outside) (thread : Nat) (c : Str) :
    History { v with
      thread := update v.thread n thread
      clientId := update v.clientId n c
      previous := update v.previous n none } := by
  have hprev : ∀ {k p}, update v.previous n none k = some p → k ≠ n ∧ v.previous k = some p := by
    intro k p hp
    rcases eq_or_ne k n with rfl | hk
    · rw [update_self] at hp
      cases hp
    · exact ⟨hk, by rwa [update_of_ne hk] at hp⟩
  refine ⟨fun {k p} hp => ?_, fun hp => h.after (hprev hp).2⟩
  obtain ⟨hk, hp⟩ := hprev hp
  obtain ⟨hc, hrole⟩ := h.before hp
  have hpn : p ≠ n := by
    rintro rfl
    rw [hr] at hrole
    rcases hrole with hrole | hrole
    · cases hrole
    · exact hrole
  simp only [update_of_ne hk, update_of_ne hpn]
  exact ⟨hc, hrole⟩

theorem reserve (hp : v.Placed) {previous}
    {reservations : Str → Option Nat} (hn : v.role n = .outside)
    (hfree : v.reservations (v.clientId n) = none) (hr : ¬ r.Registered) (hr' : ¬ r.Out)
    (hprev : ∀ p, previous = some p → ∃ m, v.owner m (v.clientId n) = some p) :
    History { v.setRole n r with
      previous := update v.previous n previous, reservations := reservations } := by
  have hsame : ∀ {p}, v.role p = .owner ∨ (v.role p).Out → (v.setRole n r).role p = v.role p := by
    intro p hrole
    rw [role_setRole, if_neg]
    rintro rfl
    rw [hn] at hrole
    rcases hrole with hrole | hrole
    · cases hrole
    · exact hrole
  refine ⟨fun {k p} hk => ?_, fun {k p} hk hreg => ?_⟩
  · rcases eq_or_ne k n with rfl | hne
    · simp only [update_self] at hk
      obtain ⟨m, ho⟩ := hprev p hk
      have hrole := (hp.owner_of_free hfree ho).1
      exact ⟨(hp.entry ho).2.1, .inl ((hsame (.inl hrole)).trans hrole)⟩
    · simp only [update_of_ne hne] at hk
      obtain ⟨hc, hrole⟩ := h.before hk
      refine ⟨hc, ?_⟩
      simp only [hsame hrole]
      exact hrole
  · rcases eq_or_ne k n with rfl | hne
    · simp only [role_setRole, if_true] at hreg
      exact (hreg.elim hr hr').elim
    · simp only [update_of_ne hne] at hk
      simp only [role_setRole, hne, if_false] at hreg
      have hout := h.after hk hreg
      simp only [hsame (.inr hout)]
      exact hout

end

end History

end

end View

end Mqtts.Takeover
