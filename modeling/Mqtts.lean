import Mqtts.Authz.Justified
import Mqtts.Authz.Accounts
import Mqtts.Durable.Capacity
import Mqtts.Durable.Match
import Mqtts.Durable.RetainedRuns
import Mqtts.Journal.Quota
import Mqtts.Journal.Recovery
import Mqtts.Protocol.Bounds
import Mqtts.Protocol.PacketTrip
import Mqtts.Retain.Bookkeeping
import Mqtts.Retain.Rollback
import Mqtts.Router.Identities
import Mqtts.Router.NodeAuth
import Mqtts.Router.Recovery
import Mqtts.Session.Acknowledged
import Mqtts.Session.OneOwner
import Mqtts.Session.OnePath
import Mqtts.Session.SendPool
import Mqtts.Topic.Kept
import Mqtts.Topic.Qos
import Mqtts.Will.Fates
import Mqtts.Session.Unsubscribe
import Mqtts.Authz.Stores
import Mqtts.Authz.Batch
import Mqtts.Cluster.Pool
import Mqtts.Durable.RecordTrip
import Mqtts.Runtime.Mutex
import Mqtts.Protocol.Framing
import Mqtts.WebSocket.Utf8
import Mqtts.Runtime.Tasks
