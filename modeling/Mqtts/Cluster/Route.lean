import Mqtts.Topic.FanOut

/-!
# Publications across the cluster

The broker nodes share one router. Its topic tree holds the subscriptions of all nodes under full
client ids `server@client`. A node that accepts a publication asks the router for targets, and sends
one forwarding request per target to the target's node, which runs its own live fan-out. There is
one target per matching client, and a request reaches every matching client of the node.

A publication may carry a Message Expiry Interval: the sender turns it into a deadline for each
request, and the node drops a publication whose deadline has passed. On a node with a durable store
QoS 2 is refused, and QoS 1 goes through the store first; what the store answers is open here.
-/

namespace Mqtts

/-! ## The parties -/

def atSign : UInt8 := 0x40

def makeFullClientId (server client : Str) : Str := server ++ atSign :: client

/-- A registered broker node (`ServerInfo`), active. -/
structure ServerInfo where
  serverId : Str
  host : Str
  port : Nat
  forwardingPort : Nat
  deriving DecidableEq

structure ClusterSubscription where
  server : Str
  client : Str
  filter : Str
  options : SubscriptionOptions
  deriving DecidableEq

/-- A cluster of active nodes and the subscriptions made on them, in order; `durable` says
which nodes have a `durable_store_`. Server ids and forwarding addresses are distinct, and a
connected client has a client id. -/
structure Cluster where
  nodes : List ServerInfo
  subscriptions : List ClusterSubscription
  implicitNoLocal : Bool
  durable : Str → Bool := fun _ => false
  ids_nodup : (nodes.map (·.serverId)).Nodup
  addresses_nodup : (nodes.map fun n => (n.host, n.forwardingPort)).Nodup
  reachable : ∀ n ∈ nodes, n.host ≠ [] ∧ n.forwardingPort ≠ 0
  client_ne : ∀ s ∈ subscriptions, s.client ≠ []

variable (c : Cluster) (server : Str)

def Cluster.brokerOps : List TreeOp :=
  (c.subscriptions.filter (·.server == server)).map
    (fun s => .subscribe s.client s.filter s.options)

/-- The subscriptions as calls on the router's tree: announced with their QoS only,
under the full client id. -/
def Cluster.routerOps : List TreeOp :=
  c.subscriptions.map
    (fun s => .subscribe (makeFullClientId s.server s.client) s.filter { qos := s.options.qos })

def Cluster.brokerTree : TopicTree := runOps (c.brokerOps server)

def Cluster.routerTree : TopicTree := runOps c.routerOps

/-! ## The router's answer -/

def serverPart (full : Str) : Str := full.takeWhile (· ≠ atSign)

def clientPart (full : Str) : Str := (full.dropWhile (· ≠ atSign)).tail

structure RouteTarget where
  serverId : Str
  clientId : Str
  qos : Nat
  host : Str := []
  port : Nat := 0
  forwardingPort : Nat := 0

inductive RouteError where
  | tree
  | protocol
  | routeEmpty
  | targetInvalid
  | connect
  /-- `MQ_ERR_PACKET_INVALID`: QoS 2 on a node with a durable store. -/
  | packetInvalid
  /-- `MQ_ERR_PUBLISH_QUOTA` or `MQ_ERR_INTERNAL` from the durable store. -/
  | storeRefused

/-- The loop of `find_route_targets` over the subscribers found. -/
def routeTargetsOf (publisher : Str) : List SubscriberInfo → Except RouteError (List RouteTarget)
  | [] => .ok []
  | s :: rest =>
    if atSign ∉ s.clientId then .error .protocol
    else
      match routeTargetsOf publisher rest with
      | .error e => .error e
      | .ok targets =>
        if serverPart s.clientId ≠ publisher then
          .ok ({ serverId := serverPart s.clientId, clientId := clientPart s.clientId,
                 qos := s.qos } :: targets)
        else .ok targets

/-- `find_route_targets(topic, publisher)`. -/
def findRouteTargets (t : TopicTree) (o : SetOrder) (sort : ClientSort) (topic publisher : Str) :
    Except RouteError (List RouteTarget) :=
  match t.findSubscribers o sort topic with
  | .error _ => .error .tree
  | .ok subscribers => routeTargetsOf publisher subscribers

/-- `get_node` on active nodes. -/
def Cluster.getNode : Option ServerInfo :=
  c.nodes.find? (·.serverId == server)

def Cluster.resolve (t : RouteTarget) : Option RouteTarget :=
  (c.getNode t.serverId).map fun n =>
    { t with host := n.host, port := n.port, forwardingPort := n.forwardingPort }

/-- The nodes that a retained publication is copied to although the router found no
subscriber there. -/
def Cluster.retainTargets (publisher : Str) (qos : Nat) (available : List RouteTarget) :
    List RouteTarget :=
  (c.nodes.filter fun n => n.serverId ≠ publisher ∧
      available.all fun t => t.serverId ≠ n.serverId).map
    (fun n => { serverId := n.serverId, clientId := [], qos, host := n.host, port := n.port,
                forwardingPort := n.forwardingPort })

/-- What `durable_store_->publish` comes back with: it is not called because the store has no
subscriptions, it is refused, or it names the sessions it selected and those whose queue took
the publication. -/
inductive StorePublish where
  | notCalled
  | refused
  | accepted (targets queued : List Str)

/-- The answers of the durable store of a node to one publication; `retained` is the result of
`put_retained` or `clear_retained`. -/
structure StoreAnswer where
  publish : StorePublish := .notCalled
  retained : Bool := true

/-- What hash sets and sorts leave open in one run: the walk of the sets, and the sorts
of the router, of the publishing node and of each forwarding request. For each request there are
also the clock of the sender, that of the node, and what the node's store answers. -/
structure Choices where
  order : SetOrder
  routerSort : ClientSort
  localSort : ClientSort
  requestSort : Nat → ClientSort
  sentMs : Nat → Int := fun _ => 0
  receivedMs : Nat → Int := fun _ => 0
  localAnswer : StoreAnswer := {}
  requestAnswer : Nat → StoreAnswer := fun _ => {}

def Cluster.handlePublishRoute (ch : Choices) (publisher : Str) (p : Publication) :
    Except RouteError (List RouteTarget) :=
  match findRouteTargets c.routerTree ch.order ch.routerSort p.topic publisher with
  | .error e => .error e
  | .ok found =>
    let available := found.filterMap c.resolve
    let targets :=
      if p.retain then available ++ c.retainTargets publisher p.qos available else available
    if targets.isEmpty then .error .routeEmpty else .ok targets

/-! ## Forwarding -/

/-- The copies that one call hands out: the live deliveries, and the sessions of the durable
store whose queue has one. -/
structure NodeDeliveries where
  live : List PlannedDelivery := []
  queued : List Str := []

def NodeDeliveries.copies (d : NodeDeliveries) (client : Str) : Nat :=
  d.live.countP (·.clientId == client) + d.queued.count client

/-- The live fan-out of a node. -/
def Cluster.nodeDeliveries (o : SetOrder) (sort : ClientSort) (p : Publication) :
    List PlannedDelivery :=
  liveDeliveries (c.brokerTree server) o sort p c.implicitNoLocal

/-- The targets and the queues of the durable store of a node, if it is asked at all. -/
def Cluster.storePublish (expiredNow : Bool) (answer : StoreAnswer) (p : Publication) :
    Except RouteError (List Str × List Str) :=
  if c.durable server && !expiredNow && p.qos == 1 then
    match answer.publish with
    | .notCalled => .ok ([], [])
    | .refused => .error .storeRefused
    | .accepted targets queued => .ok (targets, queued)
  else .ok ([], [])

/-- `forward_publish_by_topic` on the node `server`, for a publication whose Message Expiry
Interval is `expiry`. After an error nothing is said about copies. -/
def Cluster.forwardPublishByTopic (expiry : Option Nat) (answer : StoreAnswer) (o : SetOrder)
    (sort : ClientSort) (p : Publication) : Except RouteError NodeDeliveries :=
  let expiredNow := expiry == some 0
  if c.durable server && p.qos > 1 then .error .packetInvalid
  else
    match c.storePublish server expiredNow answer p with
    | .error e => .error e
    | .ok (targets, queued) =>
      if c.durable server && p.retain && !answer.retained then .error .storeRefused
      else if expiredNow then .ok {}
      else
        .ok { live := (c.nodeDeliveries server o sort p).filter fun d =>
                !targets.contains d.clientId
              queued := queued }

/-- The deadline that `forward_publish_cluster` sends along, by its own clock. -/
def expiryDeadline (now : Int) (interval : Nat) : Int :=
  if interval = 0 then now - 1 else now + interval * 1000

/-- The Message Expiry Interval that `handle_client` gives the publication, in whole seconds
rounded up. -/
def remainingExpiry (now deadline : Int) : Nat :=
  if deadline - now ≤ 0 then 0 else min (((deadline - now).toNat + 999) / 1000) 0xffffffff

/-- A request to `host` and `port`, which `handle_client` of the node there serves. -/
def Cluster.forwardPublish (host : Str) (port : Nat) (ch : Choices) (i : Nat)
    (expiry : Option Nat) (p : Publication) : Except RouteError (Str × NodeDeliveries) :=
  if host = [] ∨ port = 0 then .error .targetInvalid
  else
    match c.nodes.find? (fun n => n.host == host && n.forwardingPort == port) with
    | none => .error .connect
    | some n =>
      let deadline := expiry.map (expiryDeadline (ch.sentMs i))
      match c.forwardPublishByTopic n.serverId (deadline.map (remainingExpiry (ch.receivedMs i)))
          (ch.requestAnswer i) ch.order (ch.requestSort i) p with
      | .error e => .error e
      | .ok d => .ok (n.serverId, d)

/-- The loop of `forward_publish_cluster` over the targets, from request number `i` on;
it stops at the first error. -/
def Cluster.forwardAll (c : Cluster) (ch : Choices) (expiry : Option Nat) (p : Publication) :
    Nat → List RouteTarget → Except RouteError (List (Str × NodeDeliveries))
  | _, [] => .ok []
  | i, t :: ts =>
    match c.forwardPublish t.host t.forwardingPort ch i expiry p with
    | .error e => .error e
    | .ok d =>
      match forwardAll c ch expiry p (i + 1) ts with
      | .error e => .error e
      | .ok ds => .ok (d :: ds)

structure ClusterResult where
  atPublisher : Except RouteError NodeDeliveries
  forwarded : List (Str × NodeDeliveries)

/-- `forward_publish_cluster` on the node `publisher`. It goes on when its own fan-out fails. -/
def Cluster.forwardPublishCluster (ch : Choices) (publisher : Str) (expiry : Option Nat)
    (p : Publication) : Except RouteError ClusterResult :=
  let atPublisher :=
    c.forwardPublishByTopic publisher expiry ch.localAnswer ch.order ch.localSort p
  match c.handlePublishRoute ch publisher p with
  | .error .routeEmpty => .ok { atPublisher, forwarded := [] }
  | .error e => .error e
  | .ok targets =>
    match c.forwardAll ch expiry p 0 targets with
    | .error e => .error e
    | .ok forwarded => .ok { atPublisher, forwarded }

def ClusterResult.received (r : ClusterResult) (server client : Str) : Nat :=
  ((r.forwarded.filter (·.1 == server)).map fun d => d.2.copies client).sum

end Mqtts
