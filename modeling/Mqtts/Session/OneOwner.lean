import Mqtts.Session.Gates

/-!
# One owner for every client id

The invariant of a takeover, for runs in which a handler is taken out while nobody refers to it and
no newcomer's time is up while the old connection is leaving for it: the ownership of the ids, the
gates, and that nobody waits for references. Outside these runs it fails: the removal of a handler that a
send worker refers to lets a newcomer in and then gives up, and a newcomer whose time is up returns
although the old connection leaves for it.
-/

namespace Mqtts.Takeover

open Option Function Sys

/-! ## The invariant -/

/-- A handler is taken out when nobody refers to it, and a call whose request was taken up
before its time was up finds its gate open at its last look. -/
def Event.Smooth (x : Sys) : Event → Prop
  | .advance n =>
    match (x.conn n).stage with
    | .removing _ => x.drained n
    | .lastLook _ => (x.conn n).gate.done
    | _ => True
  | _ => True

instance (x : Sys) (e : Event) : Decidable (e.Smooth x) := by
  unfold Event.Smooth
  split
  · split <;> infer_instance
  · infer_instance

/-- The invariant of a takeover. -/
structure Inv (x : Sys) : Prop where
  placed : x.view.Placed
  history : x.view.History
  gated : Gated x
  calm : Calm x

section

variable {x x' : Sys} {n : Nat}

/-! ## The steps -/

theorem Calm.set (h : Calm x) {k} (hconn : x'.conn = update x.conn n k)
    (hlocked : x'.locked = x.locked) (hodd : ¬ k.stage.Odd)
    (hfinished : k.cleanupFinished → k.stage = .gone)
    (hvalid : ∀ {m c e}, x'.sessions m c = some e → e.valid ∨ x.sessions m c = some e) :
    Calm x' := by
  refine ⟨fun he => ?_, fun m => by rw [hlocked]; exact h.unlocked m, fun i => ?_, fun {i} => ?_⟩
  · rcases hvalid he with hv | he
    · exact hv
    · exact h.valid he
  · rw [hconn, update_apply]
    split
    · exact hodd
    · exact h.even i
  · rw [hconn, update_apply]
    split
    · exact hfinished
    · exact h.finished

theorem Calm.go (h : Calm x) {k} (hn : (x.conn n).stage ≠ .gone)
    (hconn : x'.conn = update x.conn n k) (hlocked : x'.locked = x.locked) (hodd : ¬ k.stage.Odd)
    (hfinished : k.cleanupFinished = (x.conn n).cleanupFinished)
    (hvalid : ∀ {m c e}, x'.sessions m c = some e → e.valid ∨ x.sessions m c = some e) : Calm x' :=
  h.set hconn hlocked hodd (fun hf => (hn (h.finished (hfinished ▸ hf))).elim) hvalid

def Role.Passed : Role → Prop
  | .outside | .targeting _ | .leaving => False
  | _ => True

def Role.Aims : Role → Prop
  | .targeting _ => True
  | _ => False

namespace Inv

theorem restage (h : Inv x) {s old} (hs : (x.conn n).stage = old)
    (hrole : s.role = old.role) (hposted : old.Posted → s.Posted) (hodd : ¬ s.Odd)
    (hn : old ≠ .gone) : Inv (x.setStage n s) := by
  subst hs
  have hview : (x.setStage n s).view = x.view := x.view_setConn_same n rfl rfl rfl hrole
  refine ⟨by rw [hview]; exact h.placed, by rw [hview]; exact h.history, ?_,
    h.calm.go hn rfl rfl hodd rfl .inr⟩
  refine h.gated.restage rfl rfl rfl hposted (fun M hM => hrole.symm.trans hM)
    (.inl fun M hM => hrole.trans hM) (fun hl => (h.gated.sound n).unarmed ?_) fun _ hm => hm
  rwa [hrole] at hl

theorem proceed (h : Inv x) (s : Stage) {old} {v : View} (hs : (x.conn n).stage = old)
    (hn : old ≠ .gone) (hleave : ¬ old.role.Aims ∨ (x.conn n).gate.done)
    (hpassed : s.role.Passed ∨ old.role = .leaving ∧ s.role = .outside)
    (hposted : s.Posted) (hodd : ¬ s.Odd)
    (hconn : x'.conn = update x.conn n { x.conn n with stage := s })
    (hreq : x'.requests = x.requests) (hserv : x'.serving = x.serving)
    (hlocked : x'.locked = x.locked) (hview : x'.view = v) (hplaced : v.Placed)
    (hhistory : v.History) (hless : ∀ {i M m}, x.role i = .targeting M →
      x.sessions m (x.conn i).clientId = none → x'.sessions m (x.conn i).clientId = none)
    (hvalid : ∀ {m c e}, x'.sessions m c = some e → e.valid ∨ x.sessions m c = some e) :
    Inv x' := by
  subst hs
  refine ⟨hview ▸ hplaced, hview ▸ hhistory, ?_, h.calm.go hn hconn hlocked hodd rfl hvalid⟩
  have hfrom : ¬ (x.conn n).stage.role.Aims → ∀ M, x.role n ≠ .targeting M := by
    intro haims M hM
    rw [show (x.conn n).stage.role = _ from hM] at haims
    exact haims trivial
  refine h.gated.restage hconn hreq hserv (fun _ => hposted) (fun M hM => ?_)
    (hleave.imp_left fun haims M hM => (hfrom haims M hM).elim) (fun hl => ?_) hless
  · rw [hM] at hpassed
    simp [Role.Passed] at hpassed
  · rcases hpassed with hpassed | ⟨hleaving, -⟩
    · rcases hl with hl | hl <;> rw [hl] at hpassed <;> exact hpassed.elim
    · exact (h.gated.sound n).unarmed (.inl hleaving)

theorem connect (h : Inv x) (hs : (x.conn n).stage = .idle) (thread : Nat) (c : Str) :
    Inv (x.setConn n { thread := thread, clientId := c, stage := .reserving }) := by
  have hrole : x.view.role n = .outside := congrArg Stage.role hs
  have hview := x.view_setConn n { thread := thread, clientId := c, stage := .reserving }
  have hsame : update x.view.role n Role.outside = x.view.role := by
    rw [update_eq_self_iff]
    exact hrole.symm
  simp only [Stage.role, hsame] at hview
  refine ⟨by rw [hview]; exact h.placed.connect hrole thread c,
    by rw [hview]; exact h.history.connect hrole thread c, ?_, ?_⟩
  · exact h.gated.aim rfl rfl rfl rfl (by rw [hs]; exact id) hrole rfl rfl (.inr rfl)
  · exact h.calm.set rfl rfl id (fun hf => by cases hf) .inr

theorem reserve (h : Inv x) (hs : (x.conn n).stage = .reserving)
    (hfree : x.reservations (x.conn n).clientId = none) : Inv (x.reserve n) := by
  have hrole : x.view.role n = .outside := congrArg Stage.role hs
  have hn : ¬ (x.conn n).stage.Posted := by rw [hs]; exact id
  obtain ⟨hphase, hclosed⟩ := (h.gated.sound n).fresh hn
  have hunreached : (x.conn n).reached = none := (h.gated.sound n).unreached (by simp [hphase])
  have hgate : (x.conn n).gate = {} := by
    cases hg : (x.conn n).gate
    simp_all
  unfold Sys.reserve
  cases hidx : x.index (x.conn n).clientId with
  | none =>
    simp only [hidx]
    have hview : ({ x with
        reservations := update x.reservations (x.conn n).clientId (some n) }.setStage n
          .registering).view =
        { x.view.setRole n .alone with
          previous := update x.view.previous n (x.view.previous n)
          reservations := update x.view.reservations (x.view.clientId n) (some n) } := by
      rw [view_setStage, update_eq_self]
      rfl
    refine h.proceed .registering hs (by simp) (.inl id) (.inl trivial) trivial id rfl
      rfl rfl rfl hview (h.placed.reserve hrole hfree (.inr ⟨rfl, hidx⟩)) ?_ (fun _ => id) .inr
    rw [update_eq_self]
    exact h.history.change_early rfl rfl rfl (by rw [hrole]; exact ⟨id, id⟩) ⟨id, id⟩
  | some m =>
    simp only [hidx]
    have hview := view_setConn_previous
      { x with reservations := update x.reservations (x.conn n).clientId (some n) } n
      (k := { x.conn n with
        stage := .posting m
        previous := (x.sessions m (x.conn n).clientId).map (·.handler) }) rfl rfl
    refine ⟨?_, ?_, ?_, ?_⟩
    · rw [hview]
      exact h.placed.reserve hrole hfree (.inl ⟨m, rfl, hidx, rfl⟩)
    · rw [hview]
      exact h.history.reserve h.placed hrole hfree id id fun p hp => ⟨m, hp⟩
    · exact h.gated.aim rfl rfl rfl rfl hn hrole hgate hunreached (.inl rfl)
    · exact h.calm.go (by simp [hs]) rfl rfl id rfl .inr

variable {m : Nat}

section

variable (h : Inv x)
include h

theorem post (hs : (x.conn n).stage = .posting m) : Inv (x.post n m) := by
  have hn : ¬ (x.conn n).stage.Posted := by rw [hs]; exact id
  have hw : Inv (x.setStage n (.waiting m)) := h.restage hs rfl (fun _ => trivial) id (by simp)
  have hself : (x.setStage n (.waiting m)).conn n = { x.conn n with stage := .waiting m } :=
    update_self ..
  refine ⟨hw.placed, hw.history, ?_, ⟨hw.calm.valid, hw.calm.unlocked, hw.calm.even,
    hw.calm.finished⟩⟩
  refine hw.gated.enqueue (r := ⟨(x.conn n).clientId, n⟩) ?_ fun {i r'} hr' heq => ?_
  · rw [hself]
    have hphase := ((h.gated.sound n).fresh hn).1
    exact ⟨trivial, rfl, by simp [hphase], fun _ => rfl⟩
  · have hq := h.gated.queued (m := i) (r := r') hr'
    rw [heq] at hq
    exact hn hq.posted

theorem pass {M} (hrole : x.view.role n = .targeting M) (hdone : (x.conn n).gate.done) :
    Inv (x.setStage n .registering) := by
  have hn : (x.conn n).stage ≠ .gone := by
    intro hs
    cases hrole.symm.trans (congrArg Stage.role hs)
  have hopened := (h.gated.sound n).opened hrole hdone
  have hres : (x.view.role n).Reserved := by rw [hrole]; trivial
  refine h.proceed .registering rfl hn (.inr hdone) (.inl trivial) trivial id rfl rfl rfl rfl
    (x.view_setStage n _) ?_ ?_ (fun _ => id) .inr
  · refine h.placed.move hres trivial (by rw [hrole]; exact id)
      ⟨(h.placed.clause n).reservation hres, fun m => ?_⟩
    exact congrArg (Option.map _) (hopened.2 m)
  · exact h.history.change_early rfl rfl rfl (by rw [hrole]; exact ⟨id, id⟩) ⟨id, id⟩

theorem cancel (hs : (x.conn n).stage = .cancelling m) : Inv (x.cancel n m) := by
  have hrole : x.view.role n = .targeting m := congrArg Stage.role hs
  have hres : (x.view.role n).Reserved := by rw [hrole]; trivial
  rw [Sys.cancel]
  split_ifs with hphase
  · have hview := x.view_setConn_role n
      (k := { x.conn n with stage := .givingUp, gate := { done := true, phase := .cancelled } })
      rfl rfl rfl
    refine ⟨?_, ?_, h.gated.cancel hphase, h.calm.go (by simp [hs]) rfl rfl id rfl .inr⟩
    · rw [hview]
      exact h.placed.move hres trivial (by rw [hrole]; exact id)
        ((h.placed.clause n).reservation hres)
    · rw [hview]
      exact h.history.change_early rfl rfl rfl (by rw [hrole]; exact ⟨id, id⟩) ⟨id, id⟩
  · exact h.restage hs rfl (fun _ => trivial) id (by simp)

theorem release (hs : (x.conn n).stage = .givingUp) : Inv ((x.release n).setStage n .timedOut) := by
  have hrole : x.view.role n = .leaving := congrArg Stage.role hs
  have hres : x.reservations (x.conn n).clientId = some n :=
    (h.placed.clause n).reservation (by rw [hrole]; trivial)
  have hview : ((x.release n).setStage n .timedOut).view = { x.view.setRole n .outside with
        reservations := update x.view.reservations (x.view.clientId n) none } := by
    rw [Sys.view_setStage, Sys.release, if_pos hres]
    rfl
  exact h.proceed .timedOut hs (by simp) (.inl id) (.inr ⟨rfl, rfl⟩) trivial id rfl rfl rfl rfl
    hview
    (h.placed.release hrole)
    (h.history.change_early rfl rfl rfl (by rw [hrole]; exact ⟨id, id⟩) ⟨id, id⟩)
    (fun _ => id) .inr

theorem register (hs : (x.conn n).stage = .registering)
    (hrun : x.Runs (x.conn n).thread n) : Inv (x.register n) := by
  have hrole : x.view.role n = .alone := congrArg Stage.role hs
  have hclause : x.view.Clause n .alone := h.placed.clause_of hrole
  have hnone : ∀ m, x.sessions m (x.conn n).clientId = none := fun m =>
    map_eq_none_iff.1 (hclause.2 m)
  rw [Sys.register, hnone]
  have hview : ((x.setEntry (x.conn n).thread (x.conn n).clientId
      (some { handler := n })).setStage n .publishing).view =
        (x.view.setOwner (x.view.thread n) (x.view.clientId n) (some n)).setRole n .entered := by
    rw [view_setStage, view_setEntry]
    rfl
  refine h.proceed .publishing hs (by simp) (.inl id) (.inl trivial) trivial id rfl rfl rfl rfl
    hview
    (h.placed.register hrole hrun) ?_ (fun {i M m} hi hm => ?_) fun {m c e} he => ?_
  · refine h.history.change rfl rfl rfl (fun ho => ?_) (fun ho => ?_)
      (fun _ => .inr (.inr (h.history.out_of_alone h.placed hrole)))
    · rw [hrole] at ho
      exact ho.elim (by rintro ⟨⟩) (by rintro ⟨⟩)
    · rw [hrole] at ho
      exact ho.elim
  · -- No other call has reserved the id.
    have hne : (x.conn i).clientId ≠ (x.conn n).clientId := by
      intro hc
      have hres : (x.view.role i).Reserved := by rw [show x.view.role i = _ from hi]; trivial
      have heq := h.placed.eq_of_reserved (by rw [hrole]; trivial) hres hc
      rw [heq] at hi
      cases hrole.symm.trans hi
    show (if _ then _ else _) = none
    rw [if_neg fun hmc => hne hmc.2]
    exact hm
  · simp only [setStage, setConn, setEntry] at he
    split at he
    · cases he
      exact .inl rfl
    · exact .inr he

theorem publish (hs : (x.conn n).stage = .publishing) : Inv (x.publish n) := by
  have hrole : x.view.role n = .entered := congrArg Stage.role hs
  have hclause : x.view.Clause n .entered := h.placed.clause_of hrole
  rw [Sys.publish, if_pos (show x.reservations (x.conn n).clientId = some n from hclause.1)]
  have hview : ({ x.setStage n .online with
      index := update x.index (x.conn n).clientId (some (x.conn n).thread)
      reservations := update x.reservations (x.conn n).clientId none } : Sys).view =
        { x.view.setRole n .owner with
          index := update x.view.index (x.view.clientId n) (some (x.view.thread n))
          reservations := update x.view.reservations (x.view.clientId n) none } := by
    have hrole := x.view_setStage n .online
    rw [Stage.role] at hrole
    rw [← hrole]
    rfl
  refine h.proceed .online hs (by simp) (.inl id) (.inl trivial) trivial id rfl rfl rfl rfl hview
    (h.placed.publish hrole) ?_ (fun _ => id) .inr
  refine h.history.change rfl rfl rfl (fun _ => .inl rfl) (fun ho => ?_) fun _ => .inl ?_
  · rw [hrole] at ho
    exact ho.elim
  · rw [hrole]
    trivial

theorem remove {ours} (hs : (x.conn n).stage = .removing ours) (hrun : x.Runs (x.conn n).thread n)
    (hrefs : ∀ e, x.sessions (x.conn n).thread (x.conn n).clientId = some e → e.refs = 0) :
    Inv (x.remove n ours) := by
  have hrole : x.view.role n = .owner := congrArg Stage.role hs
  have hclause : x.view.Clause n .owner := h.placed.clause_of hrole
  obtain ⟨e, he, -⟩ := map_eq_some_iff.1 hclause.1
  have hremove : x.remove n ours = x.eraseEntry n ours := by
    rw [Sys.remove, show x.sessions (x.conn n).thread (x.conn n).clientId = some e from he]
    exact if_pos (hrefs e he)
  rw [hremove]
  set x₁ := x.setEntry (x.conn n).thread (x.conn n).clientId none with hx₁
  have hview : (x.eraseEntry n ours).view =
      { (x.view.setOwner (x.view.thread n) (x.view.clientId n) none).setRole n
          (if ours then .erased else .past) with
        pinned := if ours then update x.view.pinned (x.view.thread n) (some n)
          else x.view.pinned } := by
    cases ours with
    | false => exact (x₁.view_setStage n _).trans (by rw [hx₁, view_setEntry]; rfl)
    | true =>
      show { (x₁.setStage n .erased).view with
        pinned := update x.pinned (x.conn n).thread (some n) } = _
      rw [view_setStage, view_setEntry]
      rfl
  have hfewer : ∀ {m c e}, x₁.sessions m c = some e → x.sessions m c = some e := by
    intro m c e he
    simp only [hx₁, setEntry] at he
    split at he
    · cases he
    · exact he
  have hless : ∀ {m c}, x.sessions m c = none → x₁.sessions m c = none := by
    intro m c hm
    simp only [hx₁, setEntry, hm, ite_self]
  have hhistory : ∀ {v : View} {r}, v.role = (x.view.setRole n r).role → v.clientId =
    x.view.clientId →
      v.previous = x.view.previous → r.Out → v.History := fun hr hc hp hout =>
    h.history.change hr hc hp (fun _ => .inr hout) (fun _ => hout)
      (fun _ => .inl (by rw [hrole]; trivial))
  have hplaced := h.placed.erase hrole hrun ours
  cases ours with
  | false =>
    exact h.proceed .finishing hs (by simp) (.inl id) (.inl trivial) trivial id rfl rfl rfl
      rfl hview hplaced (hhistory rfl rfl rfl trivial) (fun _ => hless) fun he => .inr (hfewer he)
  | true =>
    exact h.proceed .erased hs (by simp) (.inl id) (.inl trivial) trivial id rfl rfl rfl
      rfl hview hplaced (hhistory rfl rfl rfl trivial) (fun _ => hless) fun he => .inr (hfewer he)

theorem unindex (hs : (x.conn n).stage = .erased) : Inv (x.unindex n) := by
  have hrole : x.view.role n = .erased := congrArg Stage.role hs
  have hview : (x.unindex n).view = { x.view.setRole n .past with
        index := if x.view.index (x.view.clientId n) = some (x.view.thread n) then
          update x.view.index (x.view.clientId n) none else x.view.index
        pinned := update x.view.pinned (x.view.thread n) none } := by
    have hrole := x.view_setStage n .finishing
    rw [Stage.role] at hrole
    rw [← hrole]
    rfl
  refine h.proceed .finishing hs (by simp) (.inl id) (.inl trivial) trivial id rfl rfl rfl
    rfl hview (h.placed.unindex hrole) ?_ (fun _ => id) .inr
  refine h.history.change rfl rfl rfl (fun _ => .inr trivial) (fun _ => trivial)
    (fun _ => .inr (.inl ?_))
  rw [hrole]
  trivial

theorem signal (hposted : (x.conn n).stage.Posted) (hopened : ∀ {M}, x.role n = .targeting M →
      (x.conn n).gate.phase = .armed ∧ ∀ m, x.sessions m (x.conn n).clientId = none)
    (hserved : ∀ {m r}, x.serving m = some r → r.newcomer ≠ n)
    (hasked : ∀ {o}, (x.conn o).takeoverGate ≠ some n) : Inv (x.signal n) := by
  have hview : (x.signal n).view = x.view := x.view_setConn_same n rfl rfl rfl rfl
  refine ⟨by rw [hview]; exact h.placed, by rw [hview]; exact h.history,
    h.gated.signal hposted hopened hserved hasked, ?_⟩
  exact h.calm.set rfl rfl (h.calm.even n) h.calm.finished .inr

theorem cleared {M} (hrole : x.role n = .targeting M)
    (hnone : ∀ p, x.view.owner M (x.conn n).clientId = some p → (x.conn n).previous ≠ some p) :
    ∀ m, x.sessions m (x.conn n).clientId = none := by
  intro m
  have hclause : x.view.Clause n (.targeting M) := h.placed.clause_of hrole
  cases he : x.sessions m (x.conn n).clientId with
  | none => rfl
  | some e =>
    have ho := owner_of_entry he
    obtain ⟨rfl, hprev⟩ := hclause.2 m e.handler ho
    exact (hnone _ ho hprev).elim

theorem finish (hs : (x.conn n).stage = .finishing) : Inv (x.finish n) := by
  have hrole : x.view.role n = .past := congrArg Stage.role hs
  set x₁ := x.setConn n
    { x.conn n with stage := .gone, cleanupFinished := true, takeoverGate := none } with hx₁
  have hview : x₁.view = x.view := x.view_setConn_same n rfl rfl rfl hrole.symm
  have hM : ∀ {M}, x.role n ≠ .targeting M := fun hM => by cases hrole.symm.trans hM
  have hn := h.gated.sound n
  have h₁ : Inv x₁ := by
    refine ⟨by rw [hview]; exact h.placed, by rw [hview]; exact h.history, ?_, ?_⟩
    · refine h.gated.set rfl rfl rfl
        ⟨fun hM' => (by cases hM'), fun hM' => (by cases hM'), fun hl => hl.elim (by rintro ⟨⟩)
          (by rintro ⟨⟩),
          fun hp => (hp trivial).elim, hn.reached⟩ (fun _ hi => hi)
        (fun _ _ hq => ⟨trivial, hq.clientId, hq.unarmed, fun hi => (hM (hq.aims hi)).elim⟩)
        (fun _ _ hs => (hM hs.aims).elim) (fun _ ha => ?_) fun hg => by cases hg
      obtain ⟨M, hM'⟩ := ha.aims
      exact (hM hM').elim
    · exact h.calm.set rfl rfl id (fun _ => rfl) .inr
  rw [Sys.finish]
  cases hg : (x.conn n).takeoverGate with
  | none => exact h₁
  | some g =>
    have ha := h.gated.asked hg
    obtain ⟨M, haims⟩ := ha.aims
    have hne : g ≠ n := by
      rintro rfl
      exact hM haims
    have hconn : x₁.conn g = x.conn g := update_of_ne hne ..
    have hrole₁ : x₁.role g = .targeting M := by
      rw [role, hconn]
      exact haims
    refine h₁.signal ?_ (fun _ => ⟨?_, ?_⟩) (fun {m r} hr heq => ?_) fun {o} ho => ?_
    · rw [hconn]
      by_contra hp
      have := ((h.gated.sound g).fresh hp).1
      rw [ha.armed] at this
      cases this
    · rw [hconn]
      exact ha.armed
    · refine h₁.cleared hrole₁ fun p ho hp => ?_
      -- The handler of the manager would be this one, whose connection is past that.
      rw [hconn] at hp
      cases ha.previous.symm.trans hp
      have hreg := (h₁.placed.entry ho).2.2
      rw [hview, hrole] at hreg
      exact hreg
    · have hnone := (h.gated.served hr).unreached
      rw [heq, ha.reached] at hnone
      cases hnone
    · rcases eq_or_ne o n with rfl | hon
      · have : (x₁.conn o).takeoverGate = none := by simp [hx₁, setConn]
        rw [this] at ho
        cases ho
      · have hold : (x.conn o).takeoverGate = some g := by
          rwa [show x₁.conn o = x.conn o from update_of_ne hon ..] at ho
        have := (h.gated.asked hold).reached
        rw [ha.reached] at this
        exact hon (Option.some.inj this).symm

theorem arm (hstep : x.arm m = some x') : Inv x' := by
  rw [Sys.arm] at hstep
  split at hstep
  · next r rest hserving hr =>
      dsimp only at hstep
      split_ifs at hstep with hidle <;> cases hstep
      · have hview := x.view_setConn_same r.newcomer
          (k := { x.conn r.newcomer with
            gate := { (x.conn r.newcomer).gate with phase := .armed } }) rfl rfl rfl rfl
        refine ⟨?_, ?_, h.gated.arm hr hidle, ?_⟩
        · exact hview ▸ h.placed
        · exact hview ▸ h.history
        · exact h.calm.set rfl rfl (h.calm.even r.newcomer) h.calm.finished .inr
      · have hq := h.gated.queued (m := m) (r := r) (by rw [hr]; exact List.mem_cons_self)
        -- The phase is neither idle nor armed, so the call has cancelled the gate.
        have hcancelled : (x.conn r.newcomer).gate.phase = .cancelled := by
          cases hp : (x.conn r.newcomer).gate.phase with
          | idle => exact (hidle hp).elim
          | armed => exact (hq.unarmed hp).elim
          | cancelled => rfl
        have hpop : Inv { x with requests := update x.requests m rest } :=
          ⟨h.placed, h.history, (h.gated.pop hr).1,
            ⟨h.calm.valid, h.calm.unlocked, h.calm.even, h.calm.finished⟩⟩
        refine hpop.signal hq.posted (fun hM => ?_) (fun {i r'} hr' heq => ?_) fun {o} ho => ?_
        · exact ((h.gated.sound _).uncancelled hM hcancelled).elim
        · have hs := (h.gated.served hr').armed
          rw [heq, hcancelled] at hs
          cases hs
        · have ha := (h.gated.asked ho).armed
          rw [hcancelled] at ha
          cases ha
  · cases hstep

theorem serve (hstep : x.serve m = some x') : Inv x' := by
  rw [Sys.serve] at hstep
  cases hr : x.serving m with
  | none =>
    rw [hr] at hstep
    cases hstep
  | some r =>
    rw [hr] at hstep
    dsimp only at hstep
    have hs := h.gated.served hr
    have haims : x.role r.newcomer = .targeting m := hs.aims
    set x₁ : Sys := { x with serving := update x.serving m none } with hx₁
    have h₁ : Inv x₁ :=
      ⟨h.placed, h.history, h.gated.unserve m,
        ⟨h.calm.valid, h.calm.unlocked, h.calm.even, h.calm.finished⟩⟩
    have hunserved : ∀ {i r'}, x₁.serving i = some r' → r'.newcomer ≠ r.newcomer := by
      intro i r' hr' heq
      simp only [hx₁, update_apply] at hr'
      split_ifs at hr' with hi
      have hM := (h.gated.served hr').aims
      rw [heq] at hM
      exact hi (Role.targeting.inj (hM.symm.trans haims))
    have hposted : (x.conn r.newcomer).stage.Posted := by
      by_contra hp
      have := ((h.gated.sound r.newcomer).fresh hp).1
      rw [hs.armed] at this
      cases this
    cases hfound : x₁.safeHandler m r.clientId with
    | none =>
      rw [hfound] at hstep
      cases hstep
      refine h₁.signal hposted (fun _ => ⟨hs.armed, ?_⟩) hunserved fun {o} ho => ?_
      · refine h₁.cleared haims fun p ho _ => ?_
        -- Entries are valid, so the manager has none under the id.
        obtain ⟨e, he, -⟩ := map_eq_some_iff.1 ho
        have hvalid := h.calm.valid he
        rw [safeHandler, hs.clientId,
          show x₁.sessions m (x.conn r.newcomer).clientId = some e from he] at hfound
        simp [hvalid] at hfound
      · have := (h.gated.asked ho).reached
        rw [hs.unreached] at this
        cases this
    | some o =>
      rw [hfound] at hstep
      dsimp only at hstep
      rw [safeHandler, hs.clientId] at hfound
      obtain ⟨e, he, rfl⟩ := map_eq_some_iff.1 hfound
      have hentry := (filter_eq_some_iff.1 he).1
      have howner := owner_of_entry hentry
      have hreg := (h.placed.entry howner).2.2
      have hprev := ((h.placed.clause_of haims).2 m e.handler howner).2
      have hne : e.handler ≠ r.newcomer := by
        intro heq
        rw [heq, show x.view.role r.newcomer = _ from haims] at hreg
        exact hreg
      rw [if_neg hne] at hstep
      cases hstep
      have hunfinished : (x.conn e.handler).cleanupFinished = false := by
        by_contra hf
        have := h.calm.finished (n := e.handler) (by simpa using hf)
        rw [show x.view.role e.handler = (x.conn e.handler).stage.role from rfl, this] at hreg
        exact hreg
      set x₂ := x₁.setConn r.newcomer { x₁.conn r.newcomer with reached := some e.handler }
        with hx₂
      have hconn : x₂.conn e.handler = x.conn e.handler := update_of_ne hne ..
      have hcancelled : (x₁.conn r.newcomer).gate.phase ≠ .cancelled := by
        rw [show x₁.conn r.newcomer = x.conn r.newcomer from rfl, hs.armed]
        simp
      have hrequest : x₁.requestTakeover e.handler r.newcomer =
          x₂.setConn e.handler { x.conn e.handler with takeoverGate := some r.newcomer } := by
        rw [requestTakeover, if_neg hcancelled]
        dsimp only
        rw [← hx₂, hconn, hunfinished]
        rfl
      rw [hrequest]
      have hview : (x₂.setConn e.handler
          { x.conn e.handler with takeoverGate := some r.newcomer }).view = x.view := by
        rw [x₂.view_setConn_same _ (by rw [hconn]) (by rw [hconn]) (by rw [hconn])
          (by rw [role, hconn])]
        exact x₁.view_setConn_same _ rfl rfl rfl rfl
      refine ⟨by rw [hview]; exact h.placed, by rw [hview]; exact h.history,
        h₁.gated.hand hs hunserved hne hprev, ?_⟩
      have hcalm : Calm x₂ :=
        h₁.calm.set rfl rfl (h.calm.even r.newcomer) h.calm.finished .inr
      exact hcalm.set rfl rfl (h.calm.even e.handler) h.calm.finished .inr

theorem refer {c e} (he : x.sessions m c = some e) (refs : Nat) :
    Inv (x.setEntry m c (some { e with refs := refs })) := by
  have hview : (x.setEntry m c (some { e with refs := refs })).view = x.view := by
    rw [view_setEntry, View.setOwner]
    have howner : (fun m' c' => if m' = m ∧ c' = c then some e.handler else x.view.owner m' c') =
        x.view.owner := by
      funext m' c'
      split
      · next hmc =>
          rw [hmc.1, hmc.2]
          show some e.handler = (x.sessions m c).map _
          rw [he]
          rfl
      · rfl
    exact congrArg (fun owner => { x.view with owner := owner }) howner
  have hnone : ∀ {m' c'}, x.sessions m' c' = none →
      (x.setEntry m c (some { e with refs := refs })).sessions m' c' = none := by
    intro m' c' hm
    show (if _ then _ else _) = none
    rw [if_neg]
    · exact hm
    · rintro ⟨rfl, rfl⟩
      rw [he] at hm
      cases hm
  refine ⟨by rw [hview]; exact h.placed, by rw [hview]; exact h.history, ?_, ?_⟩
  · refine ⟨fun i => ?_, h.gated.queued, h.gated.once, h.gated.apart, h.gated.served, h.gated.asked⟩
    have hi := h.gated.sound i
    refine ⟨hi.uncancelled, fun hM hd => ?_, hi.unarmed, hi.fresh, hi.reached⟩
    obtain ⟨harmed, hclear⟩ := hi.opened hM hd
    exact ⟨harmed, fun m' => hnone (hclear m')⟩
  · refine ⟨fun {m' c' e'} he' => ?_, h.calm.unlocked, h.calm.even, h.calm.finished⟩
    simp only [setEntry] at he'
    split at he'
    · cases he'
      show e.valid
      exact h.calm.valid he
    · exact h.calm.valid he'

theorem advance (hok : (Event.advance n).Smooth x) (hrun : x.Runs (x.conn n).thread n)
    (hstep : x.advance n = some x') : Inv x' := by
  have hpass : ∀ {M}, (x.conn n).stage.role = .targeting M → (x.conn n).gate.done →
      Inv (x.setStage n .registering) := h.pass
  have heven := h.calm.even n
  simp only [Event.Smooth] at hok
  simp only [Sys.advance, h.calm.unlocked, if_true] at hstep
  generalize hs : (x.conn n).stage = s at hok hstep heven hpass
  cases s with
  | reserving =>
    dsimp only at hstep
    split_ifs at hstep with hfree
    cases hstep
    exact h.reserve hs hfree
  | posting m =>
    cases hstep
    exact h.post hs
  | waiting m =>
    dsimp only at hstep
    split_ifs at hstep with hd
    cases hstep
    exact hpass rfl hd
  | expired m =>
    cases hstep
    split_ifs with hd
    · exact hpass rfl hd
    · exact h.restage hs rfl (fun _ => trivial) id (by simp)
  | cancelling m =>
    cases hstep
    exact h.cancel hs
  | lastLook m =>
    cases hstep
    rw [if_pos hok]
    exact hpass rfl hok
  | givingUp =>
    cases hstep
    exact h.release hs
  | registering =>
    cases hstep
    exact h.register hs hrun
  | publishing =>
    cases hstep
    exact h.publish hs
  | looking =>
    cases hstep
    exact h.restage hs rfl (fun _ => trivial) id (by simp)
  | comparing owner =>
    cases hstep
    -- The entry is the connection's own, and it is valid.
    have hclause : x.view.Clause n .owner := h.placed.clause_of (congrArg Stage.role hs)
    obtain ⟨e, he, hn⟩ := map_eq_some_iff.1 hclause.1
    have hfound : x.safeHandler (x.conn n).thread (x.conn n).clientId = some n := by
      rw [safeHandler, show x.sessions (x.conn n).thread (x.conn n).clientId = some e from he]
      simp [h.calm.valid he, hn]
    simp only [compareOwners, hfound, decide_true, if_true]
    exact h.restage hs rfl (fun _ => trivial) id (by simp)
  | removing ours =>
    cases hstep
    refine h.remove hs hrun fun e he => ?_
    rw [drained, he] at hok
    simpa using hok
  | erased =>
    cases hstep
    exact h.unindex hs
  | finishing =>
    cases hstep
    exact h.finish hs
  | replacing | withdrawing | draining => exact (heven trivial).elim
  | _ => cases hstep

theorem expire (hstep : x.expire n = some x') : Inv x' := by
  have heven := h.calm.even n
  rw [Sys.expire] at hstep
  generalize hs : (x.conn n).stage = s at hstep heven
  cases s with
  | reserving =>
    split_ifs at hstep
    cases hstep
    exact h.restage hs rfl (fun _ => trivial) id (by simp)
  | waiting m =>
    cases hstep
    exact h.restage hs rfl (fun _ => trivial) id (by simp)
  | replacing | withdrawing | draining => exact (heven trivial).elim
  | _ => cases hstep

/-- Every such step keeps it. -/
theorem step {e} (hok : e.Smooth x) (hstep : x.step e = some x') : Inv x' := by
  cases e <;> simp only [Sys.step] at hstep
  case connect n thread c =>
    split_ifs at hstep with hs
    cases hstep
    exact h.connect hs thread c
  case advance n =>
    split_ifs at hstep with hrun
    exact h.advance hok hrun hstep
  case expire n =>
    split_ifs at hstep
    exact h.expire hstep
  case close n =>
    split_ifs at hstep with hs
    cases hstep
    exact h.restage hs.1 rfl (fun _ => trivial) id (by simp)
  case arm m =>
    split_ifs at hstep
    exact h.arm hstep
  case serve m =>
    split_ifs at hstep
    exact h.serve hstep
  case hold m c =>
    split at hstep
    · next e he =>
        split_ifs at hstep
        cases hstep
        exact h.refer he _
    · cases hstep
  case drop m c =>
    split at hstep
    · next e he =>
        split_ifs at hstep
        cases hstep
        exact h.refer he _
    · cases hstep

end

theorem start : Inv Sys.start := by
  have hrole : ∀ n, Sys.start.view.role n = .outside := fun _ => rfl
  refine ⟨⟨fun n => ?_, fun ho => ?_, fun hr => ?_, fun hp => ?_⟩, ⟨fun hp => ?_, fun hp => ?_⟩,
    ⟨fun n => ⟨fun hM => ?_, fun hM => ?_, fun _ => ?_, fun _ => ⟨rfl, rfl⟩, fun ho => ?_⟩,
      fun hr => ?_, fun m => ?_, fun hr => ?_, fun hr => ?_, fun ho => ?_⟩,
    ⟨fun he => ?_, fun _ => rfl, fun _ => id, fun hf => ?_⟩⟩
  all_goals first | trivial | contradiction | simp [Sys.start]

theorem role_of_registered (h : Inv x) {p} (hp : x.Registered p) : (x.role p).Registered := by
  obtain ⟨m, c, e, he, rfl⟩ := hp
  exact (h.placed.entry (owner_of_entry he)).2.2

theorem oneOwner (h : Inv x) : OneOwner x := by
  refine ⟨fun {c m m' e e'} he he' => ?_, fun {n p} hs hp hreg => ?_, fun {n p} hs hp => ⟨?_, ?_⟩⟩
  · have ho := owner_of_entry he
    have ho' := owner_of_entry he'
    obtain rfl : m = m' := by
      rw [← (h.placed.entry ho).1, ← (h.placed.entry ho').1, h.placed.unique ho ho']
    rw [he] at he'
    exact ⟨rfl, Option.some.inj he'⟩
  · have hn : (x.role n).Registered ∨ (x.role n).Out := by
      rw [role]
      cases hst : (x.conn n).stage <;> rw [hst] at hs <;>
        first | exact hs.elim | exact .inl trivial | exact .inr trivial
    have hout : (x.role p).Out := h.history.after hp hn
    have hin := h.role_of_registered hreg
    cases hr : x.role p <;> rw [hr] at hout hin <;> first | exact hout | exact hin
  · rcases (h.history.before hp).2 with hrole | hout
    · have howns := (h.placed.clause_of hrole).1
      obtain ⟨e, he, heq⟩ := map_eq_some_iff.1 howns
      exact .inl ⟨_, _, e, he, heq⟩
    · refine .inr ?_
      have hout' : ((x.conn p).stage.role).Out := hout
      cases hst : (x.conn p).stage <;> rw [hst] at hout' <;> first | exact hout'.elim | trivial
  · have hn := h.gated.sound n
    exact hn.unreached (hn.unarmed (.inr (by rw [hs]; rfl)))

end Inv

end

/-! ## Runs -/

/-- In a run in which every handler is taken out while nobody refers to it, and no call's
time is up while the old connection is leaving for it, a client id has one owner. -/
theorem one_owner {x} (h : Runs.Reach step (fun x e => e.Smooth x) (· = start) x) : OneOwner x := by
  have hinv : Inv x := by
    induction h with
    | start hs => exact hs ▸ Inv.start
    | step _ hok hstep ih => exact ih.step hok hstep
  exact hinv.oneOwner

def takeoverEvents : List Event :=
  [.connect 1 0 [7], .advance 1, .advance 1, .advance 1,
    .connect 2 1 [7], .advance 2, .advance 2, .arm 0, .serve 0,
    .close 1, .advance 1, .advance 1, .advance 1, .advance 1, .advance 1,
    .advance 2, .advance 2, .advance 2]

def takenOver : Sys :=
  (Runs.runOk step (fun x e => e.Smooth x) start takeoverEvents).getD start

theorem one_owner_takenOver : (takenOver.conn 2).stage = .online ∧
    (takenOver.conn 2).previous = some 1 ∧ takenOver.sessions 0 [7] = none ∧
    (takenOver.sessions 1 [7]).map (·.handler) = some 2 ∧ OneOwner takenOver := by
  have hrun : (Runs.runOk step (fun x e => e.Smooth x) start
      takeoverEvents).isSome := by
    decide +kernel
  obtain ⟨x, hx⟩ := isSome_iff_exists.1 hrun
  have hstate : takenOver = x := by rw [takenOver, hx]; rfl
  refine ⟨by decide +kernel, by decide +kernel, by decide +kernel, by decide +kernel, ?_⟩
  exact one_owner (hstate ▸ Runs.reach_runOk (.start rfl) hx)

/-- A send worker refers to the old handler while its connection takes it out: the newcomer gets in,
the removal gives up, and the old handler stays. -/
def referredEvents : List Event :=
  [.connect 1 0 [7], .advance 1, .advance 1, .advance 1, .hold 0 [7],
    .connect 2 1 [7], .advance 2, .advance 2,
    .close 1, .advance 1, .advance 1, .advance 1, .arm 0, .serve 0,
    .advance 2, .advance 2, .advance 2, .expire 1, .advance 1]

def lateEvents : List Event :=
  [.connect 1 0 [7], .advance 1, .advance 1, .advance 1,
    .connect 2 1 [7], .advance 2, .advance 2, .arm 0, .serve 0,
    .close 1, .advance 1, .advance 1, .advance 1,
    .expire 2, .advance 2, .advance 2, .advance 2, .advance 2]

def Sys.after (events : List Event) : Sys :=
  (Runs.runOk step (fun _ _ => True) start events).getD start

theorem reach_after {events} (h : (Runs.runOk step (fun _ _ => True) start events).isSome) :
    Runs.Reach step (fun _ _ => True) (· = start) (after events) :=
  Runs.reach_runOk_getD start (.start rfl) h

/-- Two handlers are registered under one id, both valid, and both calls have succeeded. And
a call has timed out for which the handler before it has left. -/
theorem takeover_fails : (∃ x, Runs.Reach step (fun _ _ => True) (· = start) x ∧
      x.sessions 0 [7] = some { handler := 1, refs := 1 } ∧
      x.sessions 1 [7] = some { handler := 2 } ∧ (x.conn 2).stage = .online ∧ ¬ OneOwner x) ∧
    (∃ x, Runs.Reach step (fun _ _ => True) (· = start) x ∧
      (x.conn 2).stage = .timedOut ∧ (x.conn 2).previous = some 1 ∧
      (x.conn 2).reached = some 1 ∧ x.sessions 0 [7] = none ∧ ¬ OneOwner x) := by
  have h₁ : (after referredEvents).sessions 0 [7] = some { handler := 1, refs := 1 } ∧
      (after referredEvents).sessions 1 [7] = some { handler := 2 } ∧
      ((after referredEvents).conn 2).stage = .online := by decide +kernel
  have h₂ : ((after lateEvents).conn 2).stage = .timedOut ∧
      ((after lateEvents).conn 2).previous = some 1 ∧
      ((after lateEvents).conn 2).reached = some 1 ∧
      (after lateEvents).sessions 0 [7] = none := by decide +kernel
  refine ⟨⟨_, reach_after (by decide +kernel), h₁.1, h₁.2.1, h₁.2.2, fun h => ?_⟩,
    ⟨_, reach_after (by decide +kernel), h₂.1, h₂.2.1, h₂.2.2.1, h₂.2.2.2, fun h => ?_⟩⟩
  · exact absurd (h.unique h₁.1 h₁.2.1).1 (by simp)
  · have hnone := (h.timedOut h₂.1 h₂.2.1).2
    rw [h₂.2.2.1] at hnone
    cases hnone

end Mqtts.Takeover
