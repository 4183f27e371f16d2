import Mqtts.Lib.Cells
import Mqtts.Lib.Runs
import Mqtts.Topic.Matching

/-!
# The topic tree under concurrent calls

`ConcurrentTopicTree` is changed by any number of threads. A node points to its content, its
children and subscribers, and the pointer is changed by compare-and-swap. Children are added
under one mutex for the whole tree; subscribers are added and taken out, and children taken
out, without it.

`cleanup_empty_nodes` walks the tree depth first. A node that it finds with no subscribers
and no children is unlinked from its parent, by its level, after the other children of the
parent have been visited.

Every read of a content, every swap and the creation of a node is a step here; calls are
numbered in the order in which they begin, and stay in the list when they have returned.
The path of a node says where it was made. It and the stamps of the calls are history.
-/

namespace Mqtts.Concurrent

open Assoc SortUnique

/-! ## The state -/

/-- `IntermediateNode`: the content of a node. The path under which the node was made is
history. -/
structure Content where
  children : List (Str × Nat) := []
  subscribers : SubscriberSet := .empty
  path : List Str := []

abbrev Tree := Cells Content

namespace Tree

variable (t : Tree) (n : Nat)

def content : Content := (t.read n).getD {}

def contentAt (p : Nat) : Content := (t.value p).getD {}

/-- `get_child`. -/
def child (level : Str) : Option Nat := (t.content n).children.lookup level

def subscribers : SubscriberSet := (t.content n).subscribers

def path : List Str := (t.content n).path

end Tree

inductive Op where
  | subscribe (filter client : Str) (options : SubscriptionOptions)
  | unsubscribe (filter client : Str)
  | cleanup
  deriving DecidableEq

/-- Where `cleanup_empty_nodes_recursive` is in a node. -/
inductive Phase where
  | opening
  | visiting (todo : List (Str × Nat)) (remove : List Str)
  | unlinking (remove : List Str)
  | unlinkingSwap (level : Str) (remove : List Str) (pointer : Nat)
  | asking
  | askingChildren (hasSubs : Bool)
  deriving DecidableEq

/-- A call of `cleanup_empty_nodes_recursive`, for the child at a level. -/
structure Frame where
  node : Nat
  level : Str
  phase : Phase := .opening
  deriving DecidableEq

inductive Stage where
  -- `get_or_create_node`
  | walking (node : Nat) (level : Str) (rest : List Str)
  | locking (node : Nat) (level : Str) (rest : List Str)
  | checking (node : Nat) (level : Str) (rest : List Str)
  | creating (node : Nat) (level : Str) (rest : List Str)
  | linking (node : Nat) (level : Str) (rest : List Str) (child retries : Nat)
  | swapping (node : Nat) (level : Str) (rest : List Str) (child retries pointer : Nat)
  -- `add_subscriber_to_node`
  | adding (node retries : Nat)
  | addingSwap (node retries pointer : Nat)
  -- `remove_subscriber_from_node`
  | removing (node retries : Nat)
  | removingSwap (node retries pointer : Nat)
  -- `cleanup_empty_nodes`, the innermost call first
  | cleaning (frames : List Frame)
  | returned (ok : Bool) (moment : Nat)
  deriving DecidableEq

structure Call where
  op : Op
  stage : Stage
  started : Nat
  deriving DecidableEq

structure Sys where
  tree : Tree := .single {}
  /-- `node_creation_mutex_`. -/
  creationMutex : Option Nat := none
  calls : List Call := []
  moment : Nat := 0

namespace Sys

variable (x : Sys) (c : Nat)

def setStage (stage : Stage) : Sys :=
  { x with calls := x.calls.modify c (fun k => { k with stage := stage }) }

def unlock : Sys := { x with creationMutex := none }

def finish (ok : Bool) : Sys := x.setStage c (.returned ok x.moment)

/-! ## `subscribe` and `unsubscribe` -/

def arrive (op : Op) (n : Nat) : List Str → Stage
  | level :: rest => .walking n level rest
  | [] =>
    match op with
    | .unsubscribe _ _ => .removing n 0
    | _ => .adding n 0

/-- `create_initialized_node`. -/
def create (n : Nat) (level : Str) : Sys :=
  { x with tree := x.tree.alloc { path := x.tree.path n ++ [level] } }

/-- `compare_and_swap_intermediate_node`. -/
def swap (n old : Nat) (new : Content) : Option Sys :=
  (x.tree.swap n old new).map fun t => { x with tree := t }

/-- The next step of a `subscribe` or an `unsubscribe`. -/
def advanceCall (op : Op) : Stage → Option Sys
  | .walking n level rest =>
    match x.tree.child n level, op with
    | some m, _ => some (x.setStage c (arrive op m rest))
    | none, .subscribe _ _ _ => some (x.setStage c (.locking n level rest))
    | none, _ => some (x.finish c false)
  | .locking n level rest =>
    if x.creationMutex = none then
      some ({ x with creationMutex := some c }.setStage c (.checking n level rest))
    else none
  | .checking n level rest =>
    match x.tree.child n level with
    | some m => some (x.unlock.setStage c (arrive op m rest))
    | none => some (x.setStage c (.creating n level rest))
  | .creating n level rest =>
    some ((x.create n level).setStage c (.linking n level rest x.tree.size 0))
  | .linking n level rest m retries =>
    if retries < 50 then
      (x.tree.pointer n).map fun p => x.setStage c (.swapping n level rest m retries p)
    else some (x.unlock.finish c false)
  | .swapping n level rest m retries p =>
    let old := x.tree.contentAt p
    match x.swap n p { old with children := assocSet level m old.children } with
    | some x => some (x.unlock.setStage c (arrive op m rest))
    | none => some (x.setStage c (.linking n level rest m (retries + 1)))
  | .adding n retries =>
    if retries < 100 then
      (x.tree.pointer n).map fun p => x.setStage c (.addingSwap n retries p)
    else some (x.finish c false)
  | .addingSwap n retries p =>
    match op with
    | .subscribe _ client options =>
      let old := x.tree.contentAt p
      let new := { old with subscribers := old.subscribers.add (.ofOptions client options) }
      match x.swap n p new with
      | some x => some (x.finish c true)
      | none => some (x.setStage c (.adding n (retries + 1)))
    | _ => none
  | .removing n retries =>
    match op with
    | .unsubscribe _ client =>
      if retries < 100 then
        (x.tree.pointer n).map fun p =>
          if (x.tree.contentAt p).subscribers.has client then
            x.setStage c (.removingSwap n retries p)
          else x.finish c false
      else some (x.finish c false)
    | _ => none
  | .removingSwap n retries p =>
    match op with
    | .unsubscribe _ client =>
      let old := x.tree.contentAt p
      match x.swap n p { old with subscribers := old.subscribers.erase client } with
      | some x => some (x.finish c true)
      | none => some (x.setStage c (.removing n (retries + 1)))
    | _ => none
  | .cleaning _ | .returned _ _ => none

/-! ## `cleanup_empty_nodes` -/

/-- The innermost call returns `should_delete` to the one that made it. -/
def close (level : Str) (shouldDelete : Bool) : List Frame → Option Sys
  | [] => some (x.finish c true)
  | { node, level := above, phase := .visiting todo remove } :: frames =>
    let remove := if shouldDelete then remove ++ [level] else remove
    some (x.setStage c
      (.cleaning ({ node, level := above, phase := .visiting todo remove } :: frames)))
  | _ => none

def advanceCleanup (pick : Nat) (f : Frame) (frames : List Frame) : Option Sys :=
  let go (phase : Phase) : Sys := x.setStage c (.cleaning ({ f with phase := phase } :: frames))
  match f.phase with
  | .opening => some (go (.visiting (x.tree.content f.node).children []))
  | .visiting todo remove =>
    match todo with
    | [] => some (go (.unlinking remove))
    | _ :: _ =>
      (todo[pick]?).map fun (level, m) =>
        x.setStage c (.cleaning ({ node := m, level := level } ::
          { f with phase := .visiting (todo.eraseIdx pick) remove } :: frames))
  | .unlinking [] => some (go .asking)
  | .unlinking (level :: remove) =>
    (x.tree.pointer f.node).map fun p => go (.unlinkingSwap level remove p)
  | .unlinkingSwap level remove p =>
    let old := x.tree.contentAt p
    if (old.children.lookup level).isNone then some (x.finish c false)
    else
      match x.swap f.node p { old with children := assocErase level old.children } with
      | some x => some (x.setStage c (.cleaning ({ f with phase := .unlinking remove } :: frames)))
      | none => some (go (.unlinking (level :: remove)))
  | .asking => some (go (.askingChildren (!(x.tree.subscribers f.node).elems.isEmpty)))
  | .askingChildren hasSubs =>
    x.close c f.level (!hasSubs && (x.tree.content f.node).children.isEmpty) frames

end Sys

/-! ## Runs -/

inductive Event where
  | call (op : Op)
  /-- A call takes its next step; a cleanup that chooses takes the child with number `pick`. -/
  | advance (c : Nat) (pick : Nat)

namespace Sys

def firstStage (x : Sys) (op : Op) : Stage :=
  match op with
  | .subscribe filter client _ =>
    if TopicTree.accepts filter client then arrive op 0 (splitLevels filter)
    else .returned false x.moment
  | .unsubscribe filter client =>
    if filter = [] ∨ client = [] ∨ filter.length > 65535 then .returned false x.moment
    else arrive op 0 (splitLevels filter)
  | .cleanup => .cleaning [{ node := 0, level := [] }]

def next (x : Sys) : Event → Option Sys
  | .call op =>
    some { x with
      calls := x.calls ++ [{ op := op, stage := x.firstStage op, started := x.moment }] }
  | .advance c pick =>
    (x.calls[c]?).bind fun k =>
      match k.stage with
      | .cleaning (f :: frames) => x.advanceCleanup c pick f frames
      | stage => x.advanceCall c k.op stage

def step (x : Sys) (e : Event) : Option Sys :=
  (x.next e).map fun x => { x with moment := x.moment + 1 }

def start : Sys := {}

end Sys

/-! ## Searching -/

namespace Tree

variable (t : Tree) (o : SetOrder)

def hashSubscribers (n : Nat) : List SubscriberInfo :=
  match t.child n hashLevel with
  | some w => o.run (t.subscribers w).elems
  | none => []

/-- `find_subscribers_recursive`; `first` says that this is the first level. -/
def collect (first : Bool) : List Str → Nat → List SubscriberInfo
  | [], n => o.run (t.subscribers n).elems ++ t.hashSubscribers o n
  | l :: ls, n =>
    let exactly := ((t.child n l).map (collect false ls)).getD []
    if first && systemTopic (l :: ls) then exactly
    else
      exactly ++ ((t.child n plusLevel).map (collect false ls)).getD [] ++ t.hashSubscribers o n

/-- `find_subscribers`, when nothing else runs. -/
def findSubscribers (sort : ClientSort) (topic : Str) : Except TreeError (List SubscriberInfo) :=
  if topic = [] then .error .param
  else
    match TopicTree.splitTopicLevels topic with
    | .error e => .error e
    | .ok levels => .ok (sortUnique sort (t.collect o true levels 0))

end Tree

/-! ## What is to be kept -/

def Stage.done : Stage → Bool
  | .returned _ _ => true
  | _ => false

variable (x : Sys)

def Sys.Finished : Prop := ∀ k ∈ x.calls, k.stage.done

/-- The call is a `subscribe` that returned success, and no `unsubscribe` of its filter and
client began later. -/
def Sys.Subscribed (filter client : Str) (k : Call) : Prop :=
  ∃ options m, k.op = .subscribe filter client options ∧ k.stage = .returned true m ∧
    ∀ u ∈ x.calls, u.op = .unsubscribe filter client → u.started ≤ m

def Sys.Finds (topic client : Str) : Prop :=
  ∀ o (sort : ClientSort), ∃ found, x.tree.findSubscribers o sort topic = .ok found ∧
    ∃ i ∈ found, i.clientId = client

/-- When all calls have returned, a search for the topic returns every client that subscribed
to the filter. -/
def Sys.Keeps (filter topic : Str) : Prop :=
  x.Finished → ∀ {client : Str} {k : Call}, k ∈ x.calls → x.Subscribed filter client k →
    x.Finds topic client

/-- No successful subscription is lost. -/
def Sys.NoneLost : Prop :=
  ∀ {filter topic : Str}, topic ≠ [] → topic.length ≤ 65535 → mqttMatches filter topic →
    x.Keeps filter topic

/-! ## Orderly steps -/

namespace Op

def filter : Op → Str
  | .subscribe filter _ _ | .unsubscribe filter _ => filter
  | .cleanup => []

def subscribes : Op → Bool
  | .subscribe _ _ _ => true
  | _ => false

end Op

/-- The node that a `subscribe` or an `unsubscribe` has come to. -/
def Stage.node : Stage → Option Nat
  | .walking n _ _ | .locking n _ _ | .checking n _ _ | .creating n _ _ => some n
  | .linking n _ _ _ _ | .swapping n _ _ _ _ _ => some n
  | .adding n _ | .addingSwap n _ _ | .removing n _ | .removingSwap n _ _ => some n
  | .cleaning _ | .returned _ _ => none

/-- The node is empty, and no `subscribe` has come to it. -/
def Sys.Idle (n : Nat) : Prop :=
  (x.tree.subscribers n).elems = [] ∧ (x.tree.content n).children = [] ∧
    ∀ k ∈ x.calls, k.op.subscribes → k.stage.node ≠ some n

/-- If the call subscribed the client under the levels of the filter, and succeeded, an
`unsubscribe` of its own filter and client has begun since. -/
def Call.Released (filter client : Str) (k : Call) : Prop :=
  match k.op, k.stage with
  | .subscribe f c _, .returned true m =>
    c = client → splitLevels f = splitLevels filter →
      ∃ u ∈ x.calls, u.op = .unsubscribe f c ∧ m < u.started
  | _, _ => True

instance (x : Sys) (n : Nat) : Decidable (x.Idle n) := by
  unfold Sys.Idle
  infer_instance

instance (x : Sys) (filter client : Str) (k : Call) : Decidable (k.Released x filter client) := by
  unfold Call.Released
  split <;> infer_instance

def Call.Orderly (k : Call) : Prop :=
  match k.op, k.stage with
  | .unsubscribe filter client, .removingSwap n _ p =>
    x.tree.pointer n = some p → ∀ s ∈ x.calls, s.Released x filter client
  | _, .cleaning ({ node := n, level := _, phase := .unlinkingSwap level _ p } :: _) =>
    x.tree.pointer n = some p → ∀ m ∈ x.tree.child n level, x.Idle m
  | _, _ => True

instance (x : Sys) (k : Call) : Decidable (k.Orderly x) := by
  unfold Call.Orderly
  split <;> infer_instance

def Event.Orderly (x : Sys) : Event → Prop
  | .call _ => True
  | .advance c _ => ∀ k ∈ x.calls[c]?, k.Orderly x

instance (x : Sys) (e : Event) : Decidable (e.Orderly x) :=
  match e with
  | .call _ => .isTrue trivial
  | .advance c _ => inferInstanceAs (Decidable (∀ k ∈ x.calls[c]?, k.Orderly x))

end Mqtts.Concurrent
