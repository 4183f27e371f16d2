import Mqtts.Lib.Runs
import Mqtts.Topic.Levels

/-!
# Session takeover

A connection that gives its client id registers with `register_session`: it reserves the id, and
when the client index names a thread manager it asks that manager to make the old connection leave.
It waits at a `SessionTakeoverGate` until the old connection is gone or its time is up, then enters
its handler into the manager of its own thread and the manager into the client index.

The handler that gets the gate leaves its loop, and `cleanup_session_registration` takes it out of
the manager and of the index and opens the gate. A newcomer whose time is up cancels the gate,
unless the old thread has armed it.

Every access to shared data is a step of its own. Two things about threads matter. The coroutines of
a thread change only where they wait, so between taking its handler out of the manager and taking
the manager out of the index a thread does nothing else (`pinned`). And the removal of a handler
waits for the references that the send workers hold, with the manager's `sessions_mutex_` held
(`locked`), for which coroutines wait and the event loop does not.

A connection registers once, so the gate of a call goes by the number of its connection. `previous`
and `reached` are history: the handler that was registered when the call reserved its id, and the
handler that was asked to leave for it.
-/

namespace Mqtts.Takeover

open Function

/-! ## The state -/

inductive Phase where
  | idle
  | armed
  | cancelled
  deriving DecidableEq

/-- `SessionTakeoverGate`. -/
structure Gate where
  done : Bool := false
  phase : Phase := .idle

/-- Where a connection is: in `register_session` up to `publishing`, in
`cleanup_session_registration` from `looking` on. -/
inductive Stage where
  | idle
  | reserving
  | posting (existing : Nat)
  | waiting (existing : Nat)
  | expired (existing : Nat)
  | cancelling (existing : Nat)
  | lastLook (existing : Nat)
  | givingUp
  | timedOut
  | registering
  | replacing
  | publishing
  | withdrawing
  | online
  | looking
  | comparing (owner : Option Nat)
  | removing (ours : Bool)
  | draining (ours : Bool)
  | erased
  | finishing
  | gone
  deriving DecidableEq

structure Connection where
  thread : Nat := 0
  clientId : Str := []
  stage : Stage := .idle
  gate : Gate := {}
  /-- `takeover_gate_`, by the connection whose call made the gate. -/
  takeoverGate : Option Nat := none
  cleanupFinished : Bool := false
  previous : Option Nat := none
  reached : Option Nat := none

/-- `SessionInfo`; `valid` is `is_valid` without `pending_removal`. -/
structure Entry where
  handler : Nat
  valid : Bool := true
  refs : Nat := 0
  deriving DecidableEq

/-- `SessionTakeoverRequest`. -/
structure Request where
  clientId : Str
  newcomer : Nat

structure Sys where
  conn : Nat → Connection := fun _ => {}
  /-- `sessions_` of each thread manager. -/
  sessions : Nat → Str → Option Entry := fun _ _ => none
  /-- `client_to_manager_`. -/
  index : Str → Option Nat := fun _ => none
  /-- `client_reservations_`. -/
  reservations : Str → Option Nat := fun _ => none
  /-- `takeover_requests_` of each thread manager. -/
  requests : Nat → List Request := fun _ => []
  serving : Nat → Option Request := fun _ => none
  /-- The connection that runs on a thread without a break. -/
  pinned : Nat → Option Nat := fun _ => none
  /-- The connection that waits with the `sessions_mutex_` of a manager. -/
  locked : Nat → Option Nat := fun _ => none

namespace Sys

variable (x : Sys) (n m : Nat)

def setConn (k : Connection) : Sys := { x with conn := update x.conn n k }

def setStage (stage : Stage) : Sys := x.setConn n { x.conn n with stage := stage }

def setEntry (c : Str) (e : Option Entry) : Sys :=
  { x with sessions := fun m' c' => if m' = m ∧ c' = c then e else x.sessions m' c' }

def signal : Sys :=
  x.setConn n { x.conn n with gate := { (x.conn n).gate with done := true } }

/-- `release_reservation`. -/
def release : Sys :=
  let c := (x.conn n).clientId
  { x with
    reservations :=
      if x.reservations c = some n then update x.reservations c none else x.reservations }

/-! ## `register_session` -/

def reserve : Sys :=
  let k := x.conn n
  let x := { x with reservations := update x.reservations k.clientId (some n) }
  match x.index k.clientId with
  | none => x.setStage n .registering
  | some m =>
    x.setConn n
      { k with
        stage := .posting m
        previous := (x.sessions m k.clientId).map (·.handler) }

/-- `enqueue_takeover`. -/
def post : Sys :=
  let request : Request := { clientId := (x.conn n).clientId, newcomer := n }
  { x.setStage n (.waiting m) with
    requests := update x.requests m (x.requests m ++ [request]) }

/-- `cancel`, and what follows when it fails. -/
def cancel : Sys :=
  let k := x.conn n
  if k.gate.phase = .idle then
    x.setConn n { k with stage := .givingUp, gate := { done := true, phase := .cancelled } }
  else x.setStage n (.lastLook m)

/-- `register_handler`: an entry that is there is replaced once nobody refers to it. -/
def register : Sys :=
  let k := x.conn n
  match x.sessions k.thread k.clientId with
  | none => (x.setEntry k.thread k.clientId (some { handler := n })).setStage n .publishing
  | some e =>
    if e.refs = 0 then
      (x.setEntry k.thread k.clientId (some { handler := n })).setStage n .publishing
    else
      { (x.setEntry k.thread k.clientId (some { e with valid := false })).setStage n .replacing with
        locked := update x.locked k.thread (some n) }

def publish : Sys :=
  let k := x.conn n
  if x.reservations k.clientId = some n then
    { x.setStage n .online with
      index := update x.index k.clientId (some k.thread)
      reservations := update x.reservations k.clientId none }
  else x.setStage n .withdrawing

/-! ## `cleanup_session_registration` -/

/-- The handler that `get_safe_handler` finds. -/
def safeHandler (c : Str) : Option Nat :=
  ((x.sessions m c).filter (·.valid)).map (·.handler)

def compareOwners (owner : Option Nat) : Sys :=
  let k := x.conn n
  let localOurs := decide (x.safeHandler k.thread k.clientId = some n)
  let ours := decide (owner = some k.thread) && localOurs
  if localOurs then x.setStage n (.removing ours) else x.setStage n .finishing

def eraseEntry (ours : Bool) : Sys :=
  let k := x.conn n
  let x := x.setEntry k.thread k.clientId none
  if ours then { x.setStage n .erased with pinned := update x.pinned k.thread (some n) }
  else x.setStage n .finishing

/-- `unregister_handler` up to its wait. -/
def remove (ours : Bool) : Sys :=
  let k := x.conn n
  match x.sessions k.thread k.clientId with
  | none => x.setStage n .finishing
  | some e =>
    if e.refs = 0 then x.eraseEntry n ours
    else
      { (x.setEntry k.thread k.clientId (some { e with valid := false })).setStage n
          (.draining ours) with
        locked := update x.locked k.thread (some n) }

/-- `remove_client_index`. -/
def unindex : Sys :=
  let k := x.conn n
  { x.setStage n .finishing with
    index := if x.index k.clientId = some k.thread then update x.index k.clientId none else x.index
    pinned := update x.pinned k.thread none }

/-- The end of the cleanup: `signal_takeover_done`. -/
def finish : Sys :=
  let k := x.conn n
  let x := x.setConn n { k with stage := .gone, cleanupFinished := true, takeoverGate := none }
  match k.takeoverGate with
  | none => x
  | some g => x.signal g

def drained : Bool :=
  (x.sessions (x.conn n).thread (x.conn n).clientId).all (·.refs == 0)

def unlock : Sys := { x with locked := update x.locked (x.conn n).thread none }

def keepEntry : Sys :=
  let k := x.conn n
  (x.setEntry k.thread k.clientId
    ((x.sessions k.thread k.clientId).map fun e => { e with valid := true })).unlock n

/-! ## Steps -/

def advance : Option Sys :=
  let k := x.conn n
  let entering := x.locked k.thread = none
  match k.stage with
  | .reserving => if x.reservations k.clientId = none then some (x.reserve n) else none
  | .posting m => some (x.post n m)
  | .waiting _ => if k.gate.done then some (x.setStage n .registering) else none
  | .expired m =>
    some (if k.gate.done then x.setStage n .registering else x.setStage n (.cancelling m))
  | .cancelling m => some (x.cancel n m)
  | .lastLook _ => some (if k.gate.done then x.setStage n .registering else x.setStage n .givingUp)
  | .givingUp => some ((x.release n).setStage n .timedOut)
  | .registering => if entering then some (x.register n) else none
  | .replacing =>
    if x.drained n then
      some (((x.unlock n).setEntry k.thread k.clientId (some { handler := n })).setStage n
        .publishing)
    else none
  | .publishing => some (x.publish n)
  | .withdrawing =>
    if x.drained n then
      some ((x.setEntry k.thread k.clientId none).setStage n .givingUp)
    else none
  | .looking => some (x.setStage n (.comparing (x.index k.clientId)))
  | .comparing owner => if entering then some (x.compareOwners n owner) else none
  | .removing ours => if entering then some (x.remove n ours) else none
  | .draining ours => if x.drained n then some ((x.unlock n).eraseEntry n ours) else none
  | .erased => some (x.unindex n)
  | .finishing => some (x.finish n)
  | .idle | .online | .timedOut | .gone => none

def expire : Option Sys :=
  match (x.conn n).stage with
  | .reserving =>
    if x.reservations (x.conn n).clientId = none then none else some (x.setStage n .timedOut)
  | .waiting m => some (x.setStage n (.expired m))
  | .replacing => some ((x.keepEntry n).setStage n .givingUp)
  | .withdrawing => some (x.setStage n .givingUp)
  | .draining _ => some ((x.keepEntry n).setStage n .finishing)
  | _ => none

/-- The manager's event loop takes the request -/
def arm : Option Sys :=
  match x.serving m, x.requests m with
  | none, r :: rest =>
    let x := { x with requests := update x.requests m rest }
    if (x.conn r.newcomer).gate.phase = .idle then
      some
        { x.setConn r.newcomer
            { x.conn r.newcomer with
              gate := { (x.conn r.newcomer).gate with phase := .armed } } with
          serving := update x.serving m (some r) }
    else some (x.signal r.newcomer)
  | _, _ => none

/-- `request_session_takeover`: the handler gets the gate, and opens it at once when its
cleanup is over. -/
def requestTakeover (o n : Nat) : Sys :=
  if (x.conn n).gate.phase = .cancelled then x.signal n
  else
    let x := x.setConn n { x.conn n with reached := some o }
    if (x.conn o).cleanupFinished then
      (x.setConn o { x.conn o with takeoverGate := none }).signal n
    else x.setConn o { x.conn o with takeoverGate := some n }

/-- and hands the gate to the handler that it finds. -/
def serve : Option Sys :=
  match x.serving m with
  | none => none
  | some r =>
    let x := { x with serving := update x.serving m none }
    match x.safeHandler m r.clientId with
    | none => some (x.signal r.newcomer)
    | some o =>
      if o = r.newcomer then some (x.signal r.newcomer)
      else some (x.requestTakeover o r.newcomer)

def Runs (n : Nat) : Prop := x.pinned m = none ∨ x.pinned m = some n

instance (m n : Nat) : Decidable (x.Runs m n) := inferInstanceAs (Decidable (_ ∨ _))

end Sys

inductive Event where
  | connect (n thread : Nat) (clientId : Str)
  | advance (n : Nat)
  | expire (n : Nat)
  | close (n : Nat)
  | arm (m : Nat)
  | serve (m : Nat)
  /-- A send worker takes a reference to a handler, or gives one back. -/
  | hold (m : Nat) (clientId : Str)
  | drop (m : Nat) (clientId : Str)

namespace Sys

def step (x : Sys) : Event → Option Sys
  | .connect n thread clientId =>
    if (x.conn n).stage = .idle then
      some (x.setConn n { thread := thread, clientId := clientId, stage := .reserving })
    else none
  | .advance n => if x.Runs (x.conn n).thread n then x.advance n else none
  | .expire n => if x.Runs (x.conn n).thread n then x.expire n else none
  | .close n =>
    if (x.conn n).stage = .online ∧ x.Runs (x.conn n).thread n then some (x.setStage n .looking)
    else none
  | .arm m => if x.pinned m = none then x.arm m else none
  | .serve m => if x.pinned m = none then x.serve m else none
  | .hold m c =>
    match x.sessions m c with
    | some e =>
      if e.valid ∧ x.locked m = none ∧ x.pinned m = none then
        some (x.setEntry m c (some { e with refs := e.refs + 1 }))
      else none
    | none => none
  | .drop m c =>
    match x.sessions m c with
    | some e =>
      if e.refs ≠ 0 ∧ x.pinned m = none then
        some (x.setEntry m c (some { e with refs := e.refs - 1 }))
      else none
    | none => none

def start : Sys := {}

/-! ## What takeover is for -/

def Registered (n : Nat) (x : Sys) : Prop := ∃ m c e, x.sessions m c = some e ∧ e.handler = n

end Sys

def Stage.Succeeded : Stage → Prop
  | .online | .looking | .comparing _ | .removing _ | .draining _ | .erased | .finishing | .gone =>
    True
  | _ => False

def Stage.Left : Stage → Prop
  | .erased | .finishing | .gone => True
  | _ => False

/-- One owner for a client id: one handler is registered under it over all managers, a
call succeeds when the handler before it is out, and a call that times out has not made
the handler before it leave. -/
structure OneOwner (x : Sys) : Prop where
  unique : ∀ {c m m' e e'}, x.sessions m c = some e → x.sessions m' c = some e' → m = m' ∧ e = e'
  succeeded : ∀ {n p}, (x.conn n).stage.Succeeded → (x.conn n).previous = some p → ¬ x.Registered p
  timedOut : ∀ {n p}, (x.conn n).stage = .timedOut → (x.conn n).previous = some p →
    (x.Registered p ∨ (x.conn p).stage.Left) ∧ (x.conn n).reached = none

end Mqtts.Takeover
