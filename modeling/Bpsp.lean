import Bpsp.Topic.Runs
import Bpsp.Topic.Accepted
import Bpsp.Topic.Allocation
import Bpsp.Topic.Duplicates
import Bpsp.Frame.Wire
import Bpsp.Frame.Grammar
import Bpsp.Frame.Malformed
import Bpsp.Frame.Unbounded
import Bpsp.Net.Transfer
import Bpsp.Frame.Recv
import Bpsp.Frame.Copy
import Bpsp.Frame.Stored
import Bpsp.Server.Undo
import Bpsp.Server.Delivery
import Bpsp.Server.Identifier
import Bpsp.Server.Skip
import Bpsp.Server.Trace
import Bpsp.Server.Locks
import Bpsp.Server.Publishing
import Bpsp.Server.Shutdown
import Bpsp.Server.LockOrder
import Bpsp.Tool
import Bpsp.Publisher
import Bpsp.Java.Wire
import Bpsp.Java.Size
import Bpsp.Java.Data
import Bpsp.Java.Client
import Bpsp.Java.Routing
import Bpsp.Java.Conversation
import Bpsp.Session
import Bpsp.CLib.Chain
import Bpsp.Uthash.Buckets
import Bpsp.Uthash.Invariant
