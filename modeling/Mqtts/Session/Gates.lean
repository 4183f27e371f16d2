import Mqtts.Session.Ownership

/-!
# Gates and requests of a takeover

The part of the invariant that speaks of gates. The lemmas about `Gated` are the changes that steps
make to one connection or one queue.
-/

namespace Mqtts.Takeover

open List Function

/-! ## The view of a state -/

def Stage.role : Stage → Role
  | .idle | .reserving | .timedOut => .outside
  | .posting m | .waiting m | .expired m | .cancelling m | .lastLook m => .targeting m
  | .givingUp => .leaving
  | .registering | .replacing => .alone
  | .publishing | .withdrawing => .entered
  | .online | .looking | .comparing _ | .removing _ | .draining _ => .owner
  | .erased => .erased
  | .finishing | .gone => .past

def Stage.Posted : Stage → Prop
  | .idle | .reserving | .posting _ => False
  | _ => True

def Stage.Odd : Stage → Prop
  | .replacing | .withdrawing | .draining _ => True
  | _ => False

namespace Sys

def role (x : Sys) (n : Nat) : Role := (x.conn n).stage.role

/-- What ownership is about. -/
def view (x : Sys) : View where
  role := x.role
  thread n := (x.conn n).thread
  clientId n := (x.conn n).clientId
  previous n := (x.conn n).previous
  owner m c := (x.sessions m c).map (·.handler)
  index := x.index
  reservations := x.reservations
  pinned := x.pinned

variable (x : Sys) (n : Nat)

theorem apply_setConn {α : Type} (f : Connection → α) (k : Connection) :
    (fun i => f ((x.setConn n k).conn i)) = update (fun i => f (x.conn i)) n (f k) :=
  comp_update f x.conn n k

theorem view_setConn (k : Connection) : (x.setConn n k).view = { x.view with
        role := update x.view.role n k.stage.role
        thread := update x.view.thread n k.thread
        clientId := update x.view.clientId n k.clientId
        previous := update x.view.previous n k.previous } := by
  simp only [view, apply_setConn x n Connection.thread, apply_setConn x n Connection.clientId,
    apply_setConn x n Connection.previous]
  congr 1
  exact apply_setConn x n (·.stage.role) k

variable {k : Connection}

theorem view_setConn_previous (hthread : k.thread = (x.conn n).thread)
    (hclient : k.clientId = (x.conn n).clientId) :
    (x.setConn n k).view = { x.view.setRole n k.stage.role with
        previous := update x.view.previous n k.previous } := by
  rw [view_setConn, hthread, hclient]
  simp only [view, View.setRole, update_eq_self_iff.2 rfl]

theorem view_setConn_role (hthread : k.thread = (x.conn n).thread)
    (hclient : k.clientId = (x.conn n).clientId) (hprevious : k.previous = (x.conn n).previous) :
    (x.setConn n k).view = x.view.setRole n k.stage.role := by
  rw [x.view_setConn_previous n hthread hclient, hprevious]
  simp only [view, View.setRole, update_eq_self_iff.2 rfl]

theorem view_setStage (s : Stage) : (x.setStage n s).view = x.view.setRole n s.role :=
  x.view_setConn_role n rfl rfl rfl

theorem view_setConn_same (hthread : k.thread = (x.conn n).thread)
    (hclient : k.clientId = (x.conn n).clientId) (hprevious : k.previous = (x.conn n).previous)
    (hrole : k.stage.role = x.role n) : (x.setConn n k).view = x.view := by
  rw [x.view_setConn_role n hthread hclient hprevious, hrole, View.setRole]
  show { x.view with role := update x.role n (x.role n) } = x.view
  rw [update_eq_self]
  rfl

theorem owner_of_entry {x : Sys} {m c e} (he : x.sessions m c = some e) :
    x.view.owner m c = some e.handler :=
  congrArg (Option.map _) he

theorem view_setEntry (m : Nat) (c : Str) (e : Option Entry) :
    (x.setEntry m c e).view = x.view.setOwner m c (e.map (·.handler)) := by
  have howner : (fun m' c' => ((x.setEntry m c e).sessions m' c').map (·.handler)) =
      fun m' c' => if m' = m ∧ c' = c then e.map (·.handler)
        else (x.sessions m' c').map (·.handler) := by
    funext m' c'
    simp only [setEntry]
    split <;> rfl
  rw [view, howner]
  rfl

end Sys

/-! ## Gates and requests -/

namespace Connection

variable (k : Connection)

/-- What the gate of a call says: a call that aims at a manager has not cancelled it, and
an open gate tells it that its id is cleared. -/
structure Sound (sessions : Nat → Str → Option Entry) : Prop where
  uncancelled : ∀ {M}, k.stage.role = .targeting M → k.gate.phase ≠ .cancelled
  opened : ∀ {M}, k.stage.role = .targeting M → k.gate.done →
    k.gate.phase = .armed ∧ ∀ m, sessions m k.clientId = none
  unarmed : k.stage.role = .leaving ∨ k.stage.role = .outside → k.gate.phase ≠ .armed
  fresh : ¬ k.stage.Posted → k.gate.phase = .idle ∧ k.gate.done = false
  reached : ∀ {o}, k.reached = some o → k.gate.phase = .armed

theorem Sound.unreached {k : Connection} {sessions : Nat → Str → Option Entry}
    (h : k.Sound sessions) (hphase : k.gate.phase ≠ .armed) : k.reached = none :=
  Option.eq_none_iff_forall_ne_some.2 fun _ hre => hphase (h.reached hre)

structure Queued (m : Nat) (r : Request) : Prop where
  posted : k.stage.Posted
  clientId : r.clientId = k.clientId
  unarmed : k.gate.phase ≠ .armed
  aims : k.gate.phase = .idle → k.stage.role = .targeting m

structure Served (m : Nat) (r : Request) : Prop where
  clientId : r.clientId = k.clientId
  armed : k.gate.phase = .armed
  closed : k.gate.done = false
  aims : k.stage.role = .targeting m
  unreached : k.reached = none

structure Asks (o : Nat) : Prop where
  armed : k.gate.phase = .armed
  closed : k.gate.done = false
  aims : ∃ M, k.stage.role = .targeting M
  reached : k.reached = some o
  previous : k.previous = some o

end Connection

/-- A call has one request: in a queue, armed by the manager, or handed to the handler that was
there before the call. -/
structure Gated (x : Sys) : Prop where
  sound : ∀ n, (x.conn n).Sound x.sessions
  queued : ∀ {m r}, r ∈ x.requests m → (x.conn r.newcomer).Queued m r
  once : ∀ m, ((x.requests m).map (·.newcomer)).Nodup
  apart : ∀ {m m' r r'}, r ∈ x.requests m → r' ∈ x.requests m' → r.newcomer = r'.newcomer → m = m'
  served : ∀ {m r}, x.serving m = some r → (x.conn r.newcomer).Served m r
  asked : ∀ {o g}, (x.conn o).takeoverGate = some g → (x.conn g).Asks o

/-- Nobody waits for references. -/
structure Calm (x : Sys) : Prop where
  valid : ∀ {m c e}, x.sessions m c = some e → e.valid
  unlocked : ∀ m, x.locked m = none
  even : ∀ n, ¬ (x.conn n).stage.Odd
  finished : ∀ {n}, (x.conn n).cleanupFinished → (x.conn n).stage = .gone

section

variable {x x' : Sys} {n : Nat}

/-- A change of one connection. -/
theorem Gated.set (h : Gated x) {k} (hconn : x'.conn = update x.conn n k)
    (hreq : x'.requests = x.requests) (hserv : x'.serving = x.serving)
    (hsound : k.Sound x'.sessions)
    (hothers : ∀ {i}, i ≠ n → (x.conn i).Sound x.sessions → (x.conn i).Sound x'.sessions)
    (hqueued : ∀ {m r}, r ∈ x.requests m → r.newcomer = n → (x.conn n).Queued m r → k.Queued m r)
    (hserved : ∀ {m r}, x.serving m = some r → r.newcomer = n → (x.conn n).Served m r →
      k.Served m r)
    (hasks : ∀ {o}, (x.conn o).takeoverGate = some n → (x.conn n).Asks o → k.Asks o)
    (htakeover : ∀ {g}, k.takeoverGate = some g → (x.conn n).takeoverGate = some g) : Gated x' := by
  have hself : x'.conn n = k := by rw [hconn, update_self]
  have hother : ∀ {i}, i ≠ n → x'.conn i = x.conn i := fun hi => by rw [hconn, update_of_ne hi]
  have hkeep : ∀ {P : Connection → Prop} {i}, P (x.conn i) → (i = n → P (x.conn n) → P k) →
      P (x'.conn i) := by
    intro P i hi hP
    rcases eq_or_ne i n with rfl | hne
    · rw [hself]
      exact hP rfl hi
    · rwa [hother hne]
  refine ⟨fun i => ?_, fun {m r} hr => ?_, fun m => ?_, fun hr hr' => ?_, fun {m r} hr => ?_,
    fun {o g} ho => ?_⟩
  · rcases eq_or_ne i n with rfl | hne
    · rw [hself]
      exact hsound
    · rw [hother hne]
      exact hothers hne (h.sound i)
  · rw [hreq] at hr
    exact hkeep (P := fun k => k.Queued m r) (h.queued hr) (hqueued hr)
  · rw [hreq]
    exact h.once m
  · rw [hreq] at hr hr'
    exact h.apart hr hr'
  · rw [hserv] at hr
    exact hkeep (P := fun k => k.Served m r) (h.served hr) (hserved hr)
  · have hold : (x.conn o).takeoverGate = some g := by
      rcases eq_or_ne o n with rfl | hne
      · rw [hself] at ho
        exact htakeover ho
      · rwa [hother hne] at ho
    refine hkeep (P := fun k => k.Asks o) (h.asked hold) fun heq => ?_
    subst heq
    exact hasks hold

theorem Gated.restage (h : Gated x) {s : Stage}
    (hconn : x'.conn = update x.conn n { x.conn n with stage := s })
    (hreq : x'.requests = x.requests) (hserv : x'.serving = x.serving)
    (hposted : (x.conn n).stage.Posted → s.Posted)
    (htarget : ∀ M, s.role = .targeting M → x.role n = .targeting M)
    (hleave : (∀ M, x.role n = .targeting M → s.role = .targeting M) ∨ (x.conn n).gate.done)
    (hunarmed : s.role = .leaving ∨ s.role = .outside → (x.conn n).gate.phase ≠ .armed)
    (hless : ∀ {i M m}, x.role i = .targeting M →
      x.sessions m (x.conn i).clientId = none → x'.sessions m (x.conn i).clientId = none) :
    Gated x' := by
  have hn := h.sound n
  have hstay : ∀ {M}, x.role n = .targeting M → (x.conn n).gate.done = false →
      s.role = .targeting M := by
    intro M hM hd
    rcases hleave with hleave | hleave
    · exact hleave M hM
    · rw [hd] at hleave
      cases hleave
  refine h.set hconn hreq hserv ⟨fun hM => hn.uncancelled (htarget _ hM), fun hM hd => ?_,
    hunarmed, fun hp => hn.fresh fun hp' => hp (hposted hp'), hn.reached⟩
    (fun _ hi => ⟨hi.uncancelled, fun hM hd => ?_, hi.unarmed, hi.fresh, hi.reached⟩)
    (fun _ _ hq => ⟨hposted hq.posted, hq.clientId, hq.unarmed, fun hidle => ?_⟩)
    (fun _ _ hs => ⟨hs.clientId, hs.armed, hs.closed, hstay hs.aims hs.closed, hs.unreached⟩)
    (fun _ ha => ⟨ha.armed, ha.closed, ?_, ha.reached, ha.previous⟩) id
  · obtain ⟨harmed, hnone⟩ := hn.opened (htarget _ hM) hd
    exact ⟨harmed, fun m => hless (htarget _ hM) (hnone m)⟩
  · obtain ⟨harmed, hnone⟩ := hi.opened hM hd
    exact ⟨harmed, fun m => hless hM (hnone m)⟩
  · refine hstay (hq.aims hidle) ?_
    by_contra hd
    exact hq.unarmed (hn.opened (hq.aims hidle) (by simpa using hd)).1
  · obtain ⟨M, hM⟩ := ha.aims
    exact ⟨M, hstay hM ha.closed⟩

variable {m : Nat} {r : Request}

section

variable (h : Gated x)
include h

theorem Gated.enqueue (hr : (x.conn r.newcomer).Queued m r)
    (hnew : ∀ {m r'}, r' ∈ x.requests m → r'.newcomer ≠ r.newcomer) :
    Gated { x with requests := update x.requests m (x.requests m ++ [r]) } := by
  have hmem : ∀ {i r'}, r' ∈ update x.requests m (x.requests m ++ [r]) i →
      r' ∈ x.requests i ∨ (i = m ∧ r' = r) := by
    intro i r' hr'
    rcases eq_or_ne i m with rfl | hi
    · rw [update_self, mem_append, mem_singleton] at hr'
      exact hr'.imp_right fun heq => ⟨rfl, heq⟩
    · rw [update_of_ne hi] at hr'
      exact .inl hr'
  refine ⟨h.sound, fun {i r'} hr' => ?_, fun i => ?_, fun {i j r₁ r₂} h₁ h₂ heq => ?_, h.served,
    h.asked⟩
  · rcases hmem hr' with hr' | ⟨rfl, rfl⟩
    · exact h.queued hr'
    · exact hr
  · rcases eq_or_ne i m with rfl | hi
    · simp only [update_self, map_append, map_cons, map_nil]
      refine nodup_append.2 ⟨h.once i, by simp, fun a ha b hb hab => ?_⟩
      obtain ⟨r', hr', rfl⟩ := mem_map.1 ha
      exact hnew hr' (hab.trans (mem_singleton.1 hb))
    · simp only [update_of_ne hi]
      exact h.once i
  · rcases hmem h₁ with hold₁ | ⟨rfl, rfl⟩ <;> rcases hmem h₂ with hold₂ | ⟨rfl, rfl⟩
    · exact h.apart hold₁ hold₂ heq
    · exact (hnew hold₁ heq).elim
    · exact (hnew hold₂ heq.symm).elim
    · rfl

theorem Gated.pop {rest} (hr : x.requests m = r :: rest) :
    Gated { x with requests := update x.requests m rest } ∧
      ∀ {i r'}, r' ∈ update x.requests m rest i → r'.newcomer ≠ r.newcomer := by
  have hsub : ∀ {i r'}, r' ∈ update x.requests m rest i → r' ∈ x.requests i := by
    intro i r' hr'
    rcases eq_or_ne i m with rfl | hi
    · rw [update_self] at hr'
      rw [hr]
      exact mem_cons_of_mem _ hr'
    · rwa [update_of_ne hi] at hr'
  have honce := h.once m
  rw [hr, map_cons, nodup_cons] at honce
  refine ⟨⟨h.sound, fun hr' => h.queued (hsub hr'), fun i => ?_,
    fun h₁ h₂ => h.apart (hsub h₁) (hsub h₂), h.served, h.asked⟩, fun {i r'} hr' heq => ?_⟩
  · rcases eq_or_ne i m with rfl | hi
    · simp only [update_self]
      exact honce.2
    · simp only [update_of_ne hi]
      exact h.once i
  · have hi : i = m := h.apart (hsub hr') (by rw [hr]; exact mem_cons_self) heq
    rw [hi, update_self] at hr'
    exact honce.1 (mem_map.2 ⟨r', hr', heq⟩)

theorem Gated.signal (hposted : (x.conn n).stage.Posted) (hopened : ∀ {M}, x.role n = .targeting M →
      (x.conn n).gate.phase = .armed ∧ ∀ m, x.sessions m (x.conn n).clientId = none)
    (hserved : ∀ {m r}, x.serving m = some r → r.newcomer ≠ n)
    (hasked : ∀ {o}, (x.conn o).takeoverGate ≠ some n) : Gated (x.signal n) := by
  have hn := h.sound n
  exact h.set rfl rfl rfl
    ⟨hn.uncancelled, fun hM _ => hopened hM, hn.unarmed, fun hp => (hp hposted).elim, hn.reached⟩
    (fun _ hi => hi) (fun _ _ hq => ⟨hq.posted, hq.clientId, hq.unarmed, hq.aims⟩)
    (fun hr heq => (hserved hr heq).elim) (fun ho => (hasked ho).elim) id

theorem Gated.cancel (hphase : (x.conn n).gate.phase = .idle) : Gated (x.setConn n
      { x.conn n with stage := .givingUp, gate := { done := true, phase := .cancelled } }) := by
  have hidle : (x.conn n).gate.phase ≠ .armed := by rw [hphase]; simp
  exact h.set rfl rfl rfl
    ⟨fun hM => (by cases hM), fun hM => (by cases hM), fun _ => by simp, fun hp =>
      (hp trivial).elim,
      fun ho => (hidle ((h.sound n).reached ho)).elim⟩
    (fun _ hi => hi)
    (fun _ _ hq => ⟨trivial, hq.clientId, by simp, fun hi => (by cases hi)⟩)
    (fun _ _ hs => (hidle hs.armed).elim) (fun _ ha => (hidle ha.armed).elim) id

theorem Gated.aim {k} (hconn : x'.conn = update x.conn n k)
    (hreq : x'.requests = x.requests) (hserv : x'.serving = x.serving)
    (hsess : x'.sessions = x.sessions) (hn : ¬ (x.conn n).stage.Posted)
    (hrole : x.role n = .outside) (hgate : k.gate = {}) (hreached : k.reached = none)
    (htakeover : k.takeoverGate = (x.conn n).takeoverGate ∨ k.takeoverGate = none) : Gated x' := by
  have hnot : ∀ {M}, x.role n ≠ .targeting M := fun hM => by
    rw [hrole] at hM
    cases hM
  refine h.set hconn hreq hserv
    ⟨fun _ => by simp [hgate], fun _ hd => ?_, fun _ => by simp [hgate],
      fun _ => by simp [hgate], fun ho => ?_⟩
    (fun _ hi => by rwa [hsess]) (fun _ _ hq => (hn hq.posted).elim)
    (fun _ _ hs => (hnot hs.aims).elim) (fun _ ha => ?_) fun hg => ?_
  · simp [hgate] at hd
  · rw [hreached] at ho
    cases ho
  · obtain ⟨M, hM⟩ := ha.aims
    exact (hnot hM).elim
  · rcases htakeover with ht | ht <;> rw [ht] at hg
    · exact hg
    · cases hg

theorem Gated.arm {rest : List Request} (hr : x.requests m = r :: rest)
    (hidle : (x.conn r.newcomer).gate.phase = .idle) :
    Gated { x.setConn r.newcomer
        { x.conn r.newcomer with
          gate := { (x.conn r.newcomer).gate with phase := .armed } } with
      requests := update x.requests m rest
      serving := update x.serving m (some r) } := by
  obtain ⟨hpop, hlast⟩ := h.pop hr
  have hq := h.queued (m := m) (r := r) (by rw [hr]; exact mem_cons_self)
  have hn := h.sound r.newcomer
  have haims := hq.aims hidle
  have hclosed : (x.conn r.newcomer).gate.done = false := by
    by_contra hd
    exact hq.unarmed (hn.opened haims (by simpa using hd)).1
  have hset : Gated ({ x with requests := update x.requests m rest }.setConn r.newcomer
      { x.conn r.newcomer with
        gate := { (x.conn r.newcomer).gate with phase := .armed } }) := by
    refine hpop.set rfl rfl rfl
      ⟨fun _ => by simp, fun hM hd => ?_, fun hl => ?_, fun hp => (hp hq.posted).elim, fun _ => rfl⟩
      (fun _ hi => hi) (fun hr' heq => (hlast hr' heq).elim) (fun _ _ hs => ?_) (fun _ ha => ?_) id
    · rw [show (x.conn r.newcomer).gate.done from hd] at hclosed
      cases hclosed
    · rw [show (x.conn r.newcomer).stage.role = _ from haims] at hl
      simp at hl
    · exact (hq.unarmed hs.armed).elim
    · exact (hq.unarmed ha.armed).elim
  refine ⟨hset.sound, hset.queued, hset.once, hset.apart, fun {i r'} hr' => ?_, hset.asked⟩
  simp only [update_apply] at hr'
  split at hr'
  · next hi =>
      cases hr'
      subst hi
      have hself : (Function.update x.conn r.newcomer { x.conn r.newcomer with
        gate := { (x.conn r.newcomer).gate with phase := .armed } }) r.newcomer = _ := update_self
          ..
      simp only [Sys.setConn, hself]
      exact ⟨hq.clientId, rfl, hclosed, haims, hn.unreached hq.unarmed⟩
  · exact hset.served hr'

theorem Gated.unserve (m : Nat) : Gated { x with serving := update x.serving m none } := by
  refine ⟨h.sound, h.queued, h.once, h.apart, fun {i r} hr => ?_, h.asked⟩
  simp only [update_apply] at hr
  split at hr
  · cases hr
  · exact h.served hr

theorem Gated.hand {o} (hs : (x.conn n).Served m r)
    (hunserved : ∀ {m r}, x.serving m = some r → r.newcomer ≠ n) (hne : o ≠ n)
    (hprev : (x.conn n).previous = some o) :
    Gated ((x.setConn n { x.conn n with reached := some o }).setConn o
      { x.conn o with takeoverGate := some n }) := by
  have hn := h.sound n
  set x₁ := x.setConn n { x.conn n with reached := some o } with hx₁
  have hself : x₁.conn n = { x.conn n with reached := some o } := update_self ..
  have ho : x₁.conn o = x.conn o := update_of_ne hne ..
  have h₁ : Gated x₁ := by
    refine h.set rfl rfl rfl
      ⟨hn.uncancelled, hn.opened, hn.unarmed, hn.fresh, fun _ => hs.armed⟩ (fun _ hi => hi)
      (fun _ _ hq => ⟨hq.posted, hq.clientId, hq.unarmed, hq.aims⟩)
      (fun hr heq => (hunserved hr heq).elim) (fun _ ha => ?_) id
    have hre := ha.reached
    rw [hs.unreached] at hre
    cases hre
  have hasks : (x₁.conn n).Asks o := by
    rw [hself]
    exact ⟨hs.armed, hs.closed, ⟨m, hs.aims⟩, rfl, hprev⟩
  -- The gate of `o` itself is another one and stays as it is.
  have hkeep : ∀ {P : Connection → Prop} {i}, P (x₁.conn i) →
      (P (x.conn o) → P { x.conn o with takeoverGate := some n }) →
        P (update x₁.conn o { x.conn o with takeoverGate := some n } i) := by
    intro P i hi hP
    rcases eq_or_ne i o with rfl | hio
    · rw [update_self]
      rw [ho] at hi
      exact hP hi
    · rwa [update_of_ne hio]
  refine ⟨fun i => ?_, fun {i r} hr => ?_, h₁.once, h₁.apart, fun {i r} hr => ?_,
    fun {i g} hg => ?_⟩
  · exact hkeep (P := fun k => k.Sound x.sessions) (h₁.sound i)
      (fun hi => ⟨hi.uncancelled, hi.opened, hi.unarmed, hi.fresh, hi.reached⟩)
  · exact hkeep (P := fun k => k.Queued i r) (h₁.queued hr)
      (fun hq => ⟨hq.posted, hq.clientId, hq.unarmed, hq.aims⟩)
  · exact hkeep (P := fun k => k.Served i r) (h₁.served hr)
      (fun hs => ⟨hs.clientId, hs.armed, hs.closed, hs.aims, hs.unreached⟩)
  · refine hkeep (P := fun k => k.Asks i) ?_
      (fun ha => ⟨ha.armed, ha.closed, ha.aims, ha.reached, ha.previous⟩)
    rcases eq_or_ne i o with rfl | hio
    · obtain rfl : n = g := by simpa [Sys.setConn] using hg
      exact hasks
    · exact h₁.asked (by simpa [Sys.setConn, hio] using hg)

end

end

end Mqtts.Takeover
