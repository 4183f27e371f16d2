import Mqtts.Cluster.Route
import Mqtts.Lib.Map
import Mqtts.Lib.Runs
import Mqtts.Topic.Clients

/-!
# The state of the router

The router keeps the subscriptions of all broker nodes twice: in its topic tree, under full
client ids, and in `subscription_entry_map_`, with a key made of the server, the client and the
filter. The map is what a snapshot writes. Every change that a handler makes is also appended to
a redo log.

The operations return an `int`: a negative error code, `MQ_SUCCESS`, or for the
`unsubscribe_all` of the tree the number of subscriptions that it removed.
-/

namespace Mqtts

def TreeError.code : TreeError → Int
  | .param => -703
  | .notFound => -704
  | .invalidTopic => -801

namespace Router

open Std (ExtTreeMap)

/-! ## The tree with its persistent copy -/

/-- `RouterLogOpType`; a byte read from a file may be none of the five. -/
inductive LogOp where
  | subscribe
  | unsubscribe
  | unsubscribeAll
  | clientConnect
  | clientDisconnect
  | other (code : UInt8)
  deriving DecidableEq

structure RouterLogEntry where
  opType : LogOp
  sequenceId : UInt64 := 0
  timestampMs : UInt64 := 0
  serverId : Str
  clientId : Str
  topicFilter : Str := []
  qos : UInt8 := 0
  deriving DecidableEq

def makeSubscriptionKey (server client filter : Str) : Str :=
  server ++ atSign :: (client ++ atSign :: filter)

/-- `MQTTPersistentTopicTree`. -/
structure PersistentTree where
  tree : TopicTree
  entries : ExtTreeMap Str RouterLogEntry

namespace PersistentTree

def new : PersistentTree := { tree := .new, entries := ∅ }

variable (t : PersistentTree)

/-- `subscribe`, under the lock. -/
def subscribe (server filter client : Str) (qos : UInt8) : Int × PersistentTree :=
  match t.tree.subscribe filter (makeFullClientId server client) { qos := qos.toNat } with
  | .error e => (e.code, t)
  | .ok tree =>
    let entry : RouterLogEntry :=
      { opType := .subscribe, serverId := server, clientId := client, topicFilter := filter, qos }
    (0, { tree, entries := t.entries.insert (makeSubscriptionKey server client filter) entry })

/-- `unsubscribe`, under the lock. -/
def unsubscribe (server filter client : Str) : Int × PersistentTree :=
  match t.tree.unsubscribe filter (makeFullClientId server client) with
  | .error e => (e.code, t)
  | .ok tree => (0, { tree, entries := t.entries.erase (makeSubscriptionKey server client filter) })

/-- `unsubscribe_all`, under the lock. What the tree returns is taken for an error code. -/
def unsubscribeAll (server client : Str) : Int × PersistentTree :=
  let subscriptions := t.tree.getClientSubscriptions (makeFullClientId server client)
  let (count, tree) := t.tree.unsubscribeAll (makeFullClientId server client)
  if count = 0 then
    let entries := subscriptions.foldl
      (fun entries filter => entries.erase (makeSubscriptionKey server client filter)) t.entries
    (0, { tree, entries })
  else (count, { t with tree })

def applyRedoLogEntry (entry : RouterLogEntry) : Int × PersistentTree :=
  match entry.opType with
  | .subscribe => t.subscribe entry.serverId entry.topicFilter entry.clientId entry.qos
  | .unsubscribe => t.unsubscribe entry.serverId entry.topicFilter entry.clientId
  | .unsubscribeAll => t.unsubscribeAll entry.serverId entry.clientId
  | .clientConnect => (0, t)
  | .clientDisconnect => t.unsubscribeAll entry.serverId entry.clientId
  | .other _ => (-911, t)

end PersistentTree

/-! ## The handlers -/

structure RouterState where
  topicTree : PersistentTree
  pending : List RouterLogEntry
  nextSequenceId : UInt64

/-- `append_log_entry` at the time `now`. -/
def RouterState.appendLogEntry (r : RouterState) (now : UInt64) (entry : RouterLogEntry) :
    RouterState :=
  { r with
    pending := r.pending ++ [{ entry with sequenceId := r.nextSequenceId, timestampMs := now }]
    nextSequenceId := r.nextSequenceId + 1 }

inductive Request where
  | subscribe (server client filter : Str) (qos : UInt8)
  | unsubscribe (server client filter : Str)
  | clientConnect (server client : Str)
  | clientDisconnect (server client : Str)

def Request.logEntry : Request → RouterLogEntry
  | .subscribe server client filter qos =>
    { opType := .subscribe, serverId := server, clientId := client, topicFilter := filter, qos }
  | .unsubscribe server client filter =>
    { opType := .unsubscribe, serverId := server, clientId := client, topicFilter := filter }
  | .clientConnect server client =>
    { opType := .clientConnect, serverId := server, clientId := client }
  | .clientDisconnect server client =>
    { opType := .clientDisconnect, serverId := server, clientId := client }

def Request.onTree (t : PersistentTree) : Request → Int × PersistentTree
  | .subscribe server client filter qos => t.subscribe server filter client qos
  | .unsubscribe server client filter => t.unsubscribe server filter client
  | .clientConnect _ _ => (0, t)
  | .clientDisconnect server client => t.unsubscribeAll server client

/-- `handle_subscribe`, `handle_unsubscribe`, `handle_client_connect` and
`handle_client_disconnect`: the tree is changed, and if that returns `MQ_SUCCESS`, the entry is
logged. -/
def RouterState.handle (r : RouterState) (now : UInt64) (request : Request) : Int × RouterState :=
  let (ret, topicTree) := request.onTree r.topicTree
  let r := { r with topicTree }
  if ret = 0 then (0, r.appendLogEntry now request.logEntry) else (ret, r)

inductive Call where
  | handle (now : UInt64) (request : Request)
  | subscribe (server client filter : Str) (qos : UInt8)
  | unsubscribe (server client filter : Str)
  | unsubscribeAll (server client : Str)

def RouterState.call (r : RouterState) : Call → Int × RouterState
  | .handle now request => r.handle now request
  | .subscribe server client filter qos =>
    let (ret, topicTree) := r.topicTree.subscribe server filter client qos
    (ret, { r with topicTree })
  | .unsubscribe server client filter =>
    let (ret, topicTree) := r.topicTree.unsubscribe server filter client
    (ret, { r with topicTree })
  | .unsubscribeAll server client =>
    let (ret, topicTree) := r.topicTree.unsubscribeAll server client
    (ret, { r with topicTree })

def RouterState.new : RouterState := { topicTree := .new, pending := [], nextSequenceId := 1 }

end Router

end Mqtts
