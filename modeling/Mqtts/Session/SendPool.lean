import Mqtts.Lib.Map
import Mqtts.Lib.Runs
import Mqtts.Topic.Levels

/-!
# The send worker pool

Every worker of `SendWorkerPool` is a coroutine with a queue that many clients share. A task that
cannot be sent yet goes to the back of the queue, so the queue does not keep the order of a client's
tasks; the tickets in `client_order` do. A worker takes a task, compares its ticket with the head of
its client's tickets, tries to send it, and then requeues it or completes it. Each of these is a
critical section or a call of its own, and submissions come between any two of them.

A worker records the tasks it has accepted and completed, which nothing reads. Tickets are natural
numbers and do not come round; the `uint64_t` of the source does after 2^64 tasks of a worker.
-/

namespace Mqtts.SendPool

open Option List Std Runs

/-! ## Data -/

/-- The codes that `process_send_task` returns. -/
inductive SendResult where
  | success
  | authPending
  | inflightWindow
  | packetDropped
  | invalidState
  | sessionInvalidHandler
  | timeout
  | param
  | internal
  | other (code : Int)
  deriving DecidableEq

/-- A `SharedMessageContent`, as far as the pool reads it, with the address of the object. -/
structure Content where
  address : Nat
  absoluteExpiry : Option Int := none
  messageExpiryInterval : Option Nat := none

/-- Times are nanoseconds of the steady clock; the content of a task that is not valid is
`none`. -/
structure WorkerSendTask where
  sharedContent : Option Content
  targetClientId : Str
  enqueueTime : Int
  retryAfter : Int := 0
  authorization : Option Nat := none
  ticket : Nat := 0
  windowDelayCounted : Bool := false

structure WorkerData where
  taskQueue : List WorkerSendTask := []
  processedCount : Nat := 0
  failedCount : Nat := 0
  pendingCount : Nat := 0
  nextTicket : Nat := 0
  clientOrder : ExtTreeMap Str (List Nat) := ∅
  windowBlocked : ExtTreeSet Str := ∅

structure TaskKey where
  client : Str
  content : Option Content
  ticket : Nat

def WorkerSendTask.key (t : WorkerSendTask) : TaskKey where
  client := t.targetClientId
  content := t.sharedContent
  ticket := t.ticket

/-! ## Sending -/

/-- What `process_send_task` finds: a session manager, a handler, the time, and what `send_publish`
answers to a task, unless it throws. -/
structure Surroundings where
  sessionManager : Bool
  handlerValid : Bool
  now : Int
  sendPublish : WorkerSendTask → Option Nat → Option SendResult × Option Nat

def Content.expiryInterval (content : Content) (now : Int) : Option Nat :=
  match content.absoluteExpiry with
  | none => content.messageExpiryInterval
  | some expiry =>
    let remainMs := (expiry - now).tdiv 1000000
    let seconds := ((remainMs + 999).tdiv 1000).toNat % 2 ^ 32
    some (if seconds = 0 then 1 else seconds)

def processSendTask (s : Surroundings) (task : WorkerSendTask) : SendResult × WorkerSendTask :=
  if s.sessionManager = false then (.invalidState, task)
  else if s.handlerValid = false then (.sessionInvalidHandler, task)
  else if (s.now - task.enqueueTime).tdiv 1000000 > 5000 then (.timeout, task)
  else
    match task.sharedContent with
    | none => (.param, task)
    | some content =>
      if content.absoluteExpiry.any (fun expiry => expiry ≤ s.now) then (.success, task)
      else
        let (result, authorization) := s.sendPublish task (content.expiryInterval s.now)
        (result.getD .internal, { task with authorization })

/-! ## A worker -/

/-- Where `worker_main` stands in a round of its loop. -/
inductive Phase where
  | top
  | taken (task : WorkerSendTask)
  | looked (task : WorkerSendTask) (behindHead headWindowBlocked tooEarly : Bool)
  | answered (task : WorkerSendTask) (result : SendResult)
      (behindHead headWindowBlocked tooEarly : Bool) (endTime : Int)

def Phase.task : Phase → Option WorkerSendTask
  | .top => none
  | .taken task => some task
  | .looked task _ _ _ => some task
  | .answered task _ _ _ _ _ => some task

structure Worker where
  data : WorkerData := {}
  phase : Phase := .top
  deferredScanned : Nat := 0
  windowDelays : Nat := 0
  accepted : List TaskKey := []
  completed : List TaskKey := []

inductive WorkerStep where
  | take
  | look (startTime : Int)
  | attempt (s : Surroundings) (endTime : Int)
  | settle

namespace Worker

variable (w : Worker) (task : WorkerSendTask)

def stamped : WorkerSendTask :=
  { task with ticket := w.data.nextTicket + 1 }

def accept : Worker :=
  let client := task.targetClientId
  let ticket := w.data.nextTicket + 1
  { w with
    data := { w.data with
      taskQueue := w.data.taskQueue ++ [w.stamped task]
      nextTicket := ticket
      clientOrder :=
        w.data.clientOrder.insert client (w.data.clientOrder[client]?.getD [] ++ [ticket])
      pendingCount := w.data.pendingCount + 1 }
    accepted := w.accepted ++ [(w.stamped task).key] }

/-- The part of `submit_task` under the lock. -/
def submit (maxQueueSize : Nat) (task : WorkerSendTask) : Worker :=
  if w.data.pendingCount ≥ maxQueueSize then w else w.accept task

def take : Worker :=
  match w.data.taskQueue with
  | [] => w
  | task :: rest => { w with data := { w.data with taskQueue := rest }, phase := .taken task }

def behindHead : Bool :=
  match w.data.clientOrder[task.targetClientId]? with
  | none => false
  | some order => order.head? != some task.ticket

def look (startTime : Int) : Worker :=
  { w with
    phase := .looked task (w.behindHead task) (w.data.windowBlocked.contains task.targetClientId)
      (startTime < task.retryAfter) }

def attempt (behindHead headWindowBlocked tooEarly : Bool) (s : Surroundings) (endTime : Int) :
    Worker :=
  let (result, task) :=
    if behindHead || tooEarly then (.authPending, task) else processSendTask s task
  { w with phase := .answered task result behindHead headWindowBlocked tooEarly endTime }

def deferredTask (result : SendResult) (behindHead headWindowBlocked tooEarly : Bool)
    (endTime : Int) : WorkerSendTask :=
  let tried := !behindHead && !tooEarly
  { task with
    retryAfter := if tried then endTime + 5000000 else task.retryAfter
    windowDelayCounted :=
      task.windowDelayCounted || (tried && result == .inflightWindow)
    enqueueTime :=
      if result == .inflightWindow || (behindHead && headWindowBlocked) then endTime
      else task.enqueueTime }

def requeue (result : SendResult) (behindHead headWindowBlocked tooEarly : Bool) (endTime : Int) :
    Worker :=
  let scanned := w.deferredScanned + 1
  let counts := !behindHead && !tooEarly && result == .inflightWindow && !task.windowDelayCounted
  { w with
    data := { w.data with
      windowBlocked :=
        if result = .inflightWindow then w.data.windowBlocked.insert task.targetClientId
        else w.data.windowBlocked
      taskQueue := w.data.taskQueue ++
        [deferredTask task result behindHead headWindowBlocked tooEarly endTime] }
    phase := .top
    deferredScanned := if scanned ≥ w.data.pendingCount then 0 else scanned
    windowDelays := w.windowDelays + (if counts then 1 else 0) }

/-- `client_order` after the head of a client's tickets is popped. -/
def popOrder (order : ExtTreeMap Str (List Nat)) (client : Str) : ExtTreeMap Str (List Nat) :=
  match order[client]? with
  | none => order
  | some tickets =>
    if tickets.tail = [] then order.erase client else order.insert client tickets.tail

def complete (result : SendResult) : Worker :=
  let sent := result == .success || result == .packetDropped
  { w with
    data := { w.data with
      clientOrder := popOrder w.data.clientOrder task.targetClientId
      windowBlocked := w.data.windowBlocked.erase task.targetClientId
      pendingCount := w.data.pendingCount - 1
      processedCount := w.data.processedCount + (if sent then 1 else 0)
      failedCount := w.data.failedCount + (if sent then 0 else 1) }
    phase := .top
    deferredScanned := 0
    completed := w.completed ++ [task.key] }

/-- A step of `worker_main`. -/
def step : WorkerStep → Option Worker
  | .take => match w.phase with
      | .top => some w.take
      | _ => none
  | .look startTime => match w.phase with
      | .taken task => some (w.look task startTime)
      | _ => none
  | .attempt s endTime => match w.phase with
      | .looked task behindHead headWindowBlocked tooEarly =>
        some (w.attempt task behindHead headWindowBlocked tooEarly s endTime)
      | _ => none
  | .settle => match w.phase with
      | .answered task result behindHead headWindowBlocked tooEarly endTime =>
        if result = .authPending ∨ result = .inflightWindow then
          some (w.requeue task result behindHead headWindowBlocked tooEarly endTime)
        else some (w.complete task result)
      | _ => none

end Worker

/-! ## The pool -/

structure Pool where
  workers : List Worker

inductive Event where
  | submit (task : WorkerSendTask)
  | worker (id : Nat) (step : WorkerStep)

def selectWorker (hash : Str → Nat) (workerCount : Nat) (client : Str) : Nat :=
  hash client % workerCount

namespace Pool

def start (workerCount : Nat) : Pool := ⟨List.replicate workerCount {}⟩

def step (hash : Str → Nat) (maxQueueSize : Nat) (p : Pool) : Event → Option Pool
  | .submit task =>
    let id := selectWorker hash p.workers.length task.targetClientId
    (p.workers[id]?).map fun w => ⟨p.workers.set id (w.submit maxQueueSize task)⟩
  | .worker id step =>
    (p.workers[id]?).bind fun w => (w.step step).map fun w' => ⟨p.workers.set id w'⟩

end Pool

/-! ## One worker -/

namespace Worker

variable {w w' : Worker} {task : WorkerSendTask}

def tasks (w : Worker) : List TaskKey := (w.data.taskQueue ++ w.phase.task.toList).map (·.key)

def order (w : Worker) (client : Str) : List Nat := w.data.clientOrder[client]?.getD []

def acceptedOf (w : Worker) (client : Str) : List TaskKey :=
  w.accepted.filter (·.client = client)

def completedOf (w : Worker) (client : Str) : List TaskKey :=
  w.completed.filter (·.client = client)

def due (w : Worker) : Option WorkerSendTask :=
  match w.phase with
  | .looked task false _ _ => some task
  | .answered task _ false _ _ _ => some task
  | _ => none

/-- The record agrees with the queue, the tickets and the count. `outstanding` is about the tasks
of a client that are not completed, in the order of their submission. -/
structure Sound (w : Worker) : Prop where
  increasing : (w.accepted.map (·.ticket)).Pairwise (· < ·)
  issued : ∀ k ∈ w.accepted, k.ticket ≤ w.data.nextTicket
  present : w.accepted.Perm (w.completed ++ w.tasks)
  pending : w.data.pendingCount = w.tasks.length
  outstanding : ∀ client, ∃ rest, w.acceptedOf client = w.completedOf client ++ rest ∧
    w.order client = rest.map (·.ticket)
  occupied : ∀ client : Str, w.data.clientOrder[client]? ≠ some []
  due : ∀ task, w.due = some task → (w.order task.targetClientId).head? = some task.ticket
  deferred : ∀ task result blocked early endTime,
    w.phase = .answered task result true blocked early endTime → result = .authPending

theorem sound_start : ({} : Worker).Sound where
  increasing := .nil
  issued := fun _ hk => absurd hk not_mem_nil
  present := .nil
  pending := rfl
  outstanding := fun _ => ⟨[], rfl, by simp [order]⟩
  occupied := fun _ => by simp
  due := fun _ hdue => by cases hdue
  deferred := fun _ _ _ _ _ hphase => by cases hphase

/-! ### Steps that keep the tasks -/

/-- A step keeps the tasks that the worker has, -/
theorem Sound.kept (h : w.Sound) (haccepted : w'.accepted = w.accepted)
    (hcompleted : w'.completed = w.completed) (hnext : w'.data.nextTicket = w.data.nextTicket)
    (horder : w'.data.clientOrder = w.data.clientOrder)
    (hpending : w'.data.pendingCount = w.data.pendingCount) (htasks : w'.tasks.Perm w.tasks)
    (hdue : ∀ task, w'.due = some task → (w.order task.targetClientId).head? = some task.ticket)
    (hdeferred : ∀ task result blocked early endTime,
      w'.phase = .answered task result true blocked early endTime → result = .authPending) :
    w'.Sound := by
  refine ⟨?_, ?_, ?_, ?_, ?_, ?_, ?_, hdeferred⟩
  · rw [haccepted]
    exact h.increasing
  · rw [haccepted, hnext]
    exact h.issued
  · rw [haccepted, hcompleted]
    exact h.present.trans (htasks.symm.append_left _)
  · rw [hpending, htasks.length_eq]
    exact h.pending
  · intro client
    rw [acceptedOf, completedOf, order, haccepted, hcompleted, horder]
    exact h.outstanding client
  · rw [horder]
    exact h.occupied
  · intro task htask
    rw [order, horder]
    exact hdue task htask

theorem Sound.take (h : w.Sound) (hphase : w.phase = .top) : w.take.Sound := by
  rw [Worker.take]
  cases hqueue : w.data.taskQueue with
  | nil => exact h
  | cons task rest =>
    refine h.kept rfl rfl rfl rfl rfl ?_ fun _ hdue => by cases hdue
      (fun _ _ _ _ _ hanswered => by cases hanswered)
    rw [tasks, tasks, hqueue, hphase]
    refine List.Perm.map _ ?_
    show (rest ++ [task]).Perm (task :: rest ++ [])
    rw [append_nil]
    exact perm_append_singleton task rest

variable {client : Str} {rest : List TaskKey} {blocked early : Bool}

theorem Sound.perm_rest (h : w.Sound) (hrest : w.acceptedOf client = w.completedOf client ++ rest) :
    (w.tasks.filter (·.client = client)).Perm rest := by
  have hperm := h.present.filter (·.client = client)
  rw [filter_append] at hperm
  change (w.acceptedOf client).Perm (w.completedOf client ++ _) at hperm
  rw [hrest] at hperm
  exact ((perm_append_left_iff _).1 hperm).symm

theorem Sound.mem_rest (h : w.Sound) (hmem : task.key ∈ w.tasks)
    (hrest : w.acceptedOf task.targetClientId = w.completedOf task.targetClientId ++ rest) :
    task.key ∈ rest := by
  refine (h.perm_rest hrest).mem_iff.1 (mem_filter.2 ⟨hmem, ?_⟩)
  exact decide_eq_true rfl

theorem Sound.head_of_not_behindHead (h : w.Sound) (hmem : task.key ∈ w.tasks)
    (hbehind : w.behindHead task = false) :
    (w.order task.targetClientId).head? = some task.ticket := by
  obtain ⟨rest, hrest, horder⟩ := h.outstanding task.targetClientId
  have hin := h.mem_rest hmem hrest
  rw [behindHead] at hbehind
  rw [order] at horder ⊢
  cases hget : w.data.clientOrder[task.targetClientId]? with
  | none =>
    rw [hget] at horder
    have hnil : rest = [] := map_eq_nil_iff.1 horder.symm
    rw [hnil] at hin
    cases hin
  | some tickets =>
    rw [hget] at hbehind
    exact bne_eq_false_iff_eq.1 hbehind

theorem Sound.look (h : w.Sound) (hphase : w.phase = .taken task) (startTime : Int) :
    (w.look task startTime).Sound := by
  have hmem : task.key ∈ w.tasks := by
    rw [tasks, hphase]
    simp [Phase.task]
  refine h.kept rfl rfl rfl rfl rfl ?_ ?_ fun _ _ _ _ _ hanswered => by cases hanswered
  · rw [tasks, tasks, hphase]
    exact .refl _
  · intro task' hdue
    cases hbehind : w.behindHead task with
    | true =>
      simp only [Worker.due, Worker.look, hbehind] at hdue
      cases hdue
    | false =>
      simp only [Worker.due, Worker.look, hbehind] at hdue
      cases hdue
      exact h.head_of_not_behindHead hmem hbehind

theorem key_processSendTask (s : Surroundings) (task : WorkerSendTask) :
    (processSendTask s task).2.key = task.key := by
  rw [processSendTask]
  split
  · rfl
  split
  · rfl
  split
  · rfl
  · split
    · rfl
    · split <;> rfl

theorem Sound.attempt (h : w.Sound) {behind}
    (hphase : w.phase = .looked task behind blocked early) (s : Surroundings) (endTime : Int) :
    (w.attempt task behind blocked early s endTime).Sound := by
  have hheld : w.tasks = (w.data.taskQueue ++ [task]).map (·.key) := by
    rw [tasks, hphase]
    rfl
  by_cases hskip : (behind || early)
  · have hattempt : w.attempt task behind blocked early s endTime =
        { w with phase := .answered task .authPending behind blocked early endTime } := by
      rw [Worker.attempt, if_pos hskip]
    rw [hattempt]
    refine h.kept rfl rfl rfl rfl rfl ?_ ?_ ?_
    · rw [hheld]
      exact .refl _
    · intro task' hdue
      refine h.due task' ?_
      rw [Worker.due, hphase]
      cases behind with
      | true => cases hdue
      | false => exact hdue
    · intro task' result blocked' early' endTime' hanswered
      cases hanswered
      rfl
  · have hattempt : w.attempt task behind blocked early s endTime =
        { w with phase := .answered (processSendTask s task).2 (processSendTask s task).1 behind
                   blocked early endTime } := by
      rw [Worker.attempt, if_neg hskip]
    have hkey := key_processSendTask s task
    obtain ⟨rfl, -⟩ := Bool.or_eq_false_iff.1 (Bool.eq_false_iff.2 hskip)
    rw [hattempt]
    refine h.kept rfl rfl rfl rfl rfl ?_ ?_ ?_
    · rw [hheld, tasks]
      simp only [Phase.task, map_append, toList_some, map_cons, hkey]
      exact .refl _
    · intro task' hdue
      have hsame := h.due task (by rw [Worker.due, hphase])
      cases hdue
      rw [WorkerSendTask.key, WorkerSendTask.key, TaskKey.mk.injEq] at hkey
      rw [hkey.1, hkey.2.2]
      exact hsame
    · intro task' result blocked' early' endTime' hanswered
      cases hanswered

theorem Sound.requeue (h : w.Sound) {result behind endTime}
    (hphase : w.phase = .answered task result behind blocked early endTime) :
    (w.requeue task result behind blocked early endTime).Sound := by
  refine h.kept rfl rfl rfl rfl rfl ?_ fun _ hdue => by cases hdue
    (fun _ _ _ _ _ hanswered => by cases hanswered)
  rw [tasks, tasks, hphase]
  simp only [Worker.requeue, Phase.task, toList_some, toList_none, map_append, map_cons, append_nil]
  exact .refl _

/-! ### Completion -/

theorem Sound.nodup_rest (h : w.Sound) (hrest : w.acceptedOf client = w.completedOf client ++ rest)
    : (rest.map (·.ticket)).Nodup := by
  have hsub : rest.Sublist w.accepted := by
    have hsuffix : rest.Sublist (w.acceptedOf client) := by
      rw [hrest]
      exact sublist_append_right ..
    exact hsuffix.trans filter_sublist
  have hincreasing := h.increasing.sublist (hsub.map (·.ticket))
  exact hincreasing.imp Nat.ne_of_lt

theorem Sound.rest_eq_cons (h : w.Sound) (hmem : task.key ∈ w.tasks)
    (hrest : w.acceptedOf task.targetClientId = w.completedOf task.targetClientId ++ rest)
    (hhead : (rest.map (·.ticket)).head? = some task.ticket) :
    ∃ later, rest = task.key :: later := by
  have hin := h.mem_rest hmem hrest
  have hnodup := h.nodup_rest hrest
  cases rest with
  | nil => cases hin
  | cons k later =>
    rw [map_cons] at hhead hnodup
    have hticket : k.ticket = task.ticket := Option.some.inj hhead
    rcases mem_cons.1 hin with heq | hlater
    · exact ⟨later, by rw [heq]⟩
    have hsame : k.ticket ∈ later.map (·.ticket) := by
      rw [hticket]
      exact mem_map.2 ⟨task.key, hlater, rfl⟩
    exact absurd hsame (nodup_cons.1 hnodup).1

theorem get_popOrder_self (m : ExtTreeMap Str (List Nat)) (client : Str) :
    (popOrder m client)[client]?.getD [] = (m[client]?.getD []).tail := by
  rw [popOrder]
  cases hget : m[client]? with
  | none =>
    simp only [hget]
    rfl
  | some tickets =>
    simp only
    split
    · rename_i hnil
      rw [Maps.get_erase, if_pos rfl]
      exact hnil.symm
    · rw [Maps.get_insert, if_pos rfl]
      rfl

theorem get_popOrder_of_ne (m : ExtTreeMap Str (List Nat)) {c} (hne : c ≠ client) :
    (popOrder m client)[c]? = m[c]? := by
  rw [popOrder]
  cases hget : m[client]? with
  | none => rfl
  | some tickets =>
    simp only
    split
    · rw [Maps.get_erase, if_neg hne.symm]
    · rw [Maps.get_insert, if_neg hne.symm]

theorem popOrder_occupied {m} (client : Str)
    (h : ∀ c : Str, m[c]? ≠ some []) (c : Str) : (popOrder m client)[c]? ≠ some [] := by
  by_cases hc : c = client
  · subst hc
    rw [popOrder]
    cases hget : m[c]? with
    | none =>
      rw [hget]
      exact some_ne_none _ |>.symm
    | some tickets =>
      simp only
      split
      · rw [Maps.get_erase, if_pos rfl]
        exact (some_ne_none _).symm
      · rename_i hne
        rw [Maps.get_insert, if_pos rfl]
        exact fun heq => hne (Option.some.inj heq)
  · rw [get_popOrder_of_ne m hc]
    exact h c

/-- or completes the oldest one of a client. -/
theorem Sound.complete (h : w.Sound) {result endTime}
    (hphase : w.phase = .answered task result false blocked early endTime) :
    (w.complete task result).Sound := by
  have hheld : w.tasks = w.data.taskQueue.map (·.key) ++ [task.key] := by
    rw [tasks, hphase, map_append]
    rfl
  have hleft : (w.complete task result).tasks = w.data.taskQueue.map (·.key) := by
    rw [tasks, map_append]
    exact append_nil _
  have hmem : task.key ∈ w.tasks := by
    rw [hheld]
    exact mem_append_right _ (mem_singleton_self _)
  have hhead := h.due task (by rw [Worker.due, hphase])
  refine ⟨h.increasing, h.issued, ?_, ?_, ?_, popOrder_occupied _ h.occupied,
    fun _ hdue => (by cases hdue), fun _ _ _ _ _ hanswered => (by cases hanswered)⟩
  · rw [hleft]
    refine h.present.trans ?_
    rw [hheld]
    show (w.completed ++ _).Perm (w.completed ++ [task.key] ++ _)
    rw [append_assoc]
    exact (perm_append_comm).append_left _
  · have hpending := h.pending
    rw [hheld, length_append] at hpending
    rw [hleft]
    show w.data.pendingCount - 1 = _
    rw [hpending]
    rfl
  · intro client
    obtain ⟨rest, hrest, horder⟩ := h.outstanding client
    by_cases hclient : client = task.targetClientId
    · subst hclient
      rw [horder] at hhead
      obtain ⟨later, rfl⟩ := h.rest_eq_cons hmem hrest hhead
      refine ⟨later, ?_, ?_⟩
      · show w.acceptedOf task.targetClientId = (w.completed ++ [task.key]).filter _ ++ later
        have hself : [task.key].filter (·.client = task.targetClientId) = [task.key] :=
          filter_cons_of_pos (decide_eq_true rfl)
        rw [hrest, filter_append, hself, append_assoc]
        rfl
      · show (popOrder w.data.clientOrder task.targetClientId)[task.targetClientId]?.getD [] = _
        rw [get_popOrder_self]
        rw [order] at horder
        rw [horder]
        rfl
    · refine ⟨rest, ?_, ?_⟩
      · show w.acceptedOf client = (w.completed ++ [task.key]).filter _ ++ rest
        have hother : [task.key].filter (·.client = client) = [] :=
          filter_cons_of_neg fun hc => hclient (of_decide_eq_true hc).symm
        rw [hrest, filter_append, hother, append_nil]
        rfl
      · show (popOrder w.data.clientOrder task.targetClientId)[client]?.getD [] = _
        rw [get_popOrder_of_ne _ hclient]
        exact horder

theorem Sound.step (h : w.Sound) {st} (hstep : w.step st = some w') : w'.Sound := by
  cases st <;> rw [Worker.step] at hstep
  case take =>
    split at hstep <;> cases hstep
    rename_i hphase
    exact h.take hphase
  case look startTime =>
    split at hstep <;> cases hstep
    rename_i task hphase
    exact h.look hphase startTime
  case attempt s endTime =>
    split at hstep <;> cases hstep
    rename_i task behind blocked early hphase
    exact h.attempt hphase s endTime
  case settle =>
    split at hstep
    · rename_i task result behind blocked early endTime hphase
      split at hstep <;> cases hstep
      · exact h.requeue hphase
      · rename_i hresult
        cases behind with
        | true => exact absurd (.inl (h.deferred _ _ _ _ _ hphase)) hresult
        | false => exact h.complete hphase
    · cases hstep

/-! ### Submission -/

theorem perm_tasks_accept (w : Worker) (task : WorkerSendTask) :
    (w.accept task).tasks.Perm (w.tasks ++ [(w.stamped task).key]) := by
  show ((w.data.taskQueue ++ [w.stamped task] ++ w.phase.task.toList).map (·.key)).Perm _
  rw [tasks, map_append, map_append, map_append, append_assoc, append_assoc]
  exact perm_append_comm.append_left _

theorem order_accept (w : Worker) (task : WorkerSendTask) (client : Str) :
    (w.accept task).order client =
      if client = task.targetClientId then w.order client ++ [w.data.nextTicket + 1]
      else w.order client := by
  show ((w.data.clientOrder.insert task.targetClientId _)[client]?).getD [] = _
  rw [Maps.get_insert]
  by_cases hclient : client = task.targetClientId
  · rw [if_pos hclient.symm, if_pos hclient, hclient]
    rfl
  · rw [if_neg (Ne.symm hclient), if_neg hclient]
    rfl

theorem Sound.accept (h : w.Sound) (task : WorkerSendTask) : (w.accept task).Sound := by
  have htasks := w.perm_tasks_accept task
  refine ⟨?_, ?_, ?_, ?_, ?_, ?_, ?_, h.deferred⟩
  · show ((w.accepted ++ [(w.stamped task).key]).map (·.ticket)).Pairwise (· < ·)
    rw [map_append]
    refine pairwise_append.2 ⟨h.increasing, pairwise_singleton _ _, ?_⟩
    intro t ht t' ht'
    obtain ⟨k, hk, rfl⟩ := mem_map.1 ht
    obtain rfl := mem_singleton.1 ht'
    exact Nat.lt_succ_of_le (h.issued k hk)
  · intro k hk
    rcases mem_append.1 hk with hk | hk
    · exact (h.issued k hk).trans (Nat.le_succ _)
    · obtain rfl := mem_singleton.1 hk
      exact Nat.le_of_eq rfl
  · have happend := h.present.append_right [(w.stamped task).key]
    rw [append_assoc] at happend
    exact happend.trans (htasks.symm.append_left _)
  · rw [htasks.length_eq, length_append, ← h.pending]
    rfl
  · intro client
    obtain ⟨rest, hrest, horder⟩ := h.outstanding client
    rw [order_accept]
    by_cases hclient : client = task.targetClientId
    · refine ⟨rest ++ [(w.stamped task).key], ?_, ?_⟩
      · show (w.accepted ++ [(w.stamped task).key]).filter _ = _
        have hself : [(w.stamped task).key].filter (·.client = client) = [(w.stamped task).key] :=
          filter_cons_of_pos (decide_eq_true hclient.symm)
        rw [filter_append, hself, ← append_assoc]
        exact congrArg (· ++ [(w.stamped task).key]) hrest
      · rw [if_pos hclient, horder, map_append]
        rfl
    · refine ⟨rest, ?_, ?_⟩
      · show (w.accepted ++ [(w.stamped task).key]).filter _ = _
        have hother : [(w.stamped task).key].filter (·.client = client) = [] :=
          filter_cons_of_neg fun hc => hclient (of_decide_eq_true hc).symm
        rw [filter_append, hother, append_nil]
        exact hrest
      · rw [if_neg hclient]
        exact horder
  · intro client
    show (w.data.clientOrder.insert task.targetClientId _)[client]? ≠ some []
    rw [Maps.get_insert]
    split
    · exact fun heq => append_ne_nil_of_right_ne_nil _ (cons_ne_nil _ _) (Option.some.inj heq)
    · exact h.occupied client
  · intro due hdue
    have hhead := h.due due hdue
    rw [order_accept]
    split
    · rw [List.head?_append, hhead]
      rfl
    · exact hhead

theorem Sound.submit (h : w.Sound) (maxQueueSize : Nat) (task : WorkerSendTask) :
    (w.submit maxQueueSize task).Sound := by
  rw [Worker.submit]
  split
  · exact h
  · exact h.accept task

theorem mem_accepted_submit {maxQueueSize k} (hk : k ∈ (w.submit maxQueueSize task).accepted) :
    k ∈ w.accepted ∨ k.client = task.targetClientId := by
  rw [submit] at hk
  split at hk
  · exact .inl hk
  rcases mem_append.1 hk with hk | hk
  · exact .inl hk
  · rw [mem_singleton.1 hk]
    exact .inr rfl

theorem accepted_step {st} (hstep : w.step st = some w') : w'.accepted = w.accepted := by
  cases st <;> rw [step] at hstep
  case take =>
    split at hstep <;> cases hstep
    rw [take]
    split <;> rfl
  case look startTime =>
    split at hstep <;> cases hstep
    rfl
  case attempt s endTime =>
    split at hstep <;> cases hstep
    rfl
  case settle =>
    split at hstep
    · split at hstep <;> cases hstep
      · rfl
      · rfl
    · cases hstep

end Worker

/-! ## All workers -/

namespace Pool

variable {hash : Str → Nat} {maxQueueSize workerCount : Nat} {p p' : Pool}

structure Sound (hash : Str → Nat) (workerCount : Nat) (p : Pool) : Prop where
  count : p.workers.length = workerCount
  worker : ∀ {id : Nat} {w : Worker}, p.workers[id]? = some w → w.Sound
  owned : ∀ {id} {w : Worker}, p.workers[id]? = some w →
    ∀ k ∈ w.accepted, selectWorker hash workerCount k.client = id

theorem Sound.set (h : p.Sound hash workerCount) {id : Nat} {w : Worker} (hw : w.Sound)
    (howned : ∀ k ∈ w.accepted, selectWorker hash workerCount k.client = id) :
    Sound hash workerCount ⟨p.workers.set id w⟩ := by
  have hcases : ∀ {i : Nat} {w' : Worker}, (p.workers.set id w)[i]? = some w' →
      (i = id ∧ w' = w) ∨ p.workers[i]? = some w' := by
    intro i w' hget
    rw [List.getElem?_set] at hget
    split at hget
    · rename_i hid
      split at hget
      · exact .inl ⟨hid.symm, (Option.some.inj hget).symm⟩
      · cases hget
    · exact .inr hget
  refine ⟨?_, ?_, ?_⟩
  · rw [length_set]
    exact h.count
  · intro i w' hget
    rcases hcases hget with ⟨-, rfl⟩ | hold
    · exact hw
    · exact h.worker hold
  · intro i w' hget
    rcases hcases hget with ⟨rfl, rfl⟩ | hold
    · exact howned
    · exact h.owned hold

theorem Sound.step (h : p.Sound hash workerCount) {e : Event}
    (hstep : p.step hash maxQueueSize e = some p') : p'.Sound hash workerCount := by
  cases e with
  | submit task =>
    obtain ⟨w, hw, rfl⟩ := map_eq_some_iff.1 hstep
    refine h.set ((h.worker hw).submit maxQueueSize task) ?_
    intro k hk
    rcases Worker.mem_accepted_submit hk with hold | hclient
    · exact h.owned hw k hold
    · rw [hclient, h.count]
  | worker id st =>
    obtain ⟨w, hw, hstep⟩ := bind_eq_some_iff.1 hstep
    obtain ⟨w', hw', rfl⟩ := map_eq_some_iff.1 hstep
    refine h.set ((h.worker hw).step hw') ?_
    rw [Worker.accepted_step hw']
    exact h.owned hw

theorem sound (h : Reach (step hash maxQueueSize) (fun _ _ => True) (· = start workerCount) p) :
    p.Sound hash workerCount := by
  refine h.invariant ?_ ?_
  · rintro p rfl
    have hfresh : ∀ {id : Nat} {w : Worker},
        (start workerCount).workers[id]? = some w → w = {} := by
      intro id w hget
      exact eq_of_mem_replicate (mem_of_getElem? hget)
    refine ⟨length_replicate, ?_, ?_⟩
    · intro id w hget
      rw [hfresh hget]
      exact Worker.sound_start
    · intro id w hget k hk
      rw [hfresh hget] at hk
      cases hk
  · intro p e p' hp _ hstep
    exact hp.step hstep

/-- In every state of every run, a worker has accepted tasks of its own clients only, its count
is that of the tasks it has accepted and not completed, and for each client the accepted tasks
are the completed ones followed by tasks that are all still in the worker, once each, and whose
tickets `client_order` holds. A task that the worker is about to send is the oldest of these. -/
theorem sends_in_order (h : Reach (step hash maxQueueSize) (fun _ _ => True)
      (· = start workerCount) p) {id : Nat} {w : Worker} (hw : p.workers[id]? = some w) :
    (∀ k ∈ w.accepted, selectWorker hash workerCount k.client = id) ∧
    (w.accepted.map (·.ticket)).Pairwise (· < ·) ∧
    w.data.pendingCount + w.completed.length = w.accepted.length ∧
    ∀ client, ∃ rest, w.acceptedOf client = w.completedOf client ++ rest ∧
      (w.tasks.filter (·.client = client)).Perm rest ∧
      w.order client = rest.map (·.ticket) ∧ w.data.clientOrder[client]? ≠ some [] ∧
      ∀ task blocked, w.phase = .looked task false blocked false →
        task.targetClientId = client → rest.head? = some task.key := by
  have hsound := (sound h).worker hw
  refine ⟨(sound h).owned hw, hsound.increasing, ?_, ?_⟩
  · rw [hsound.pending, hsound.present.length_eq, length_append, Nat.add_comm]
  · intro client
    obtain ⟨rest, hrest, horder⟩ := hsound.outstanding client
    refine ⟨rest, hrest, hsound.perm_rest hrest, horder, hsound.occupied client, ?_⟩
    rintro task blocked hphase rfl
    have hmem : task.key ∈ w.tasks := by
      rw [Worker.tasks, hphase, map_append]
      exact mem_append_right _ (mem_singleton_self _)
    have hhead := hsound.due task (by rw [Worker.due, hphase])
    rw [horder] at hhead
    obtain ⟨later, rfl⟩ := hsound.rest_eq_cons hmem hrest hhead
    rfl

def taskFor (client : UInt8) (address : Nat) : WorkerSendTask where
  sharedContent := some { address }
  targetClientId := [client]
  enqueueTime := 0

def answering (result : SendResult) : Surroundings where
  sessionManager := true
  handlerValid := true
  now := 0
  sendPublish := fun _ _ => (some result, none)

def round (now : Int) (result : SendResult) : List Event :=
  [.worker 0 .take, .worker 0 (.look now), .worker 0 (.attempt (answering result) now),
    .worker 0 .settle]

/-- The first task of a client finds its window full and goes behind the second one, which waits
for it; a task of another client is sent. -/
def windowRun : List Event :=
  [.submit (taskFor 0x61 1), .submit (taskFor 0x62 2), .submit (taskFor 0x61 3)] ++
    round 1 .inflightWindow ++ round 2 .success ++ round 3 .success ++ round 10000000 .success

def windowPool : Pool :=
  (runOk (step (fun _ => 0) 10) (fun _ _ => True) (start 1) windowRun).getD (start 1)

theorem sends_in_order_window : ∃ w, windowPool.workers[0]? = some w ∧
    w.completed.map (fun k => (k.client, k.ticket)) = [([0x62], 2), ([0x61], 1)] ∧
    w.data.pendingCount + w.completed.length = w.accepted.length := by
  have hstart : Reach (step (fun _ => 0) 10) (fun _ _ => True) (· = start 1) (start 1) :=
    .start rfl
  have hrun : (runOk (step (fun _ => 0) 10) (fun _ _ => True) (start 1) windowRun).isSome =
      true := by decide +kernel
  have hreach := reach_runOk_getD (start 1) hstart hrun
  have hworker : (windowPool.workers[0]?).map
      (fun w => w.completed.map fun k => (k.client, k.ticket)) =
        some [([0x62], 2), ([0x61], 1)] := by decide +kernel
  obtain ⟨w, hw, hcompleted⟩ := map_eq_some_iff.1 hworker
  exact ⟨w, hw, hcompleted, (sends_in_order hreach hw).2.2.1⟩

end Pool

end Mqtts.SendPool
