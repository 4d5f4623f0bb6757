import Bpsp.Frame.Basic
import Bpsp.Topic.Tree

/-!
# Clients and their subscriptions

`lib/client.c` over the state of a broker: its table of clients, the client objects, and the topic
tree with the subscriber objects. Requests are handled one at a time, so the locks of the code are
left out. A subscription is recorded twice, in the client's own table under its identifier and in
the topic tree under its `_id`; the functions here update the two one after the other.
-/

namespace Bpsp

open CLib Topic

/-- The address of a peer, as `inet_ntoa` and the port print it. -/
structure SockAddr where
  text : CStr
  length_pos : 0 < text.length
  length_le : text.length ≤ 21

/-- `bpsp__client`: the fields that outlive a request. -/
structure Client where
  id : CStr
  subs : HashTable CStr Addr
  addr : SockAddr

/-- `bpsp__broker`, with the client objects and, in `store`, the tree nodes and subscriber
objects. -/
structure Broker where
  clients : HashTable CStr Addr
  heap : Heap Client
  store : Store

/-- A broker that nobody has connected to. -/
def Broker.init : Broker := ⟨[], Heap.empty, ⟨initTree, Heap.empty⟩⟩

/-- `subscriber__gen_id`. -/
def subscriberGenId (topic subTag : CStr) (client : Client) : CStr :=
  client.id ++ subTag ++ .ofString "/" ++ topic

/-- `subscriber__make_identifier`. -/
def subscriberMakeIdentifier (topic subTag : CStr) : CStr := subTag ++ .ofString "/" ++ topic

/-- The tag of a subscription that names none. -/
def defaultTag : CStr := .ofString "_0"

/-- `subscriber__new` for the client object at `a`, outside the tree. -/
def subscriberNew (topic : CStr) (subTag : Option CStr) (a : Addr) (client : Client) :
    Subscriber :=
  let subTag := subTag.getD defaultTag
  ⟨subscriberGenId topic subTag client, client.id, subTag, a, none⟩

/-- `HASH_ADD_STR` of a subscriber to the table of the client at `a`. -/
def addEntry (heap : Heap Client) (a : Addr) (identifier : CStr) (p : Addr) : Heap Client :=
  heap.modify a fun c => { c with subs := c.subs.add identifier p }

/-- `HASH_DEL` of the entry under a key of the table of the client at `a`. -/
def delEntry (heap : Heap Client) (a : Addr) (identifier : CStr) : Heap Client :=
  heap.modify a fun c => { c with subs := c.subs.del identifier }

/-- `client__sub0`: the client's table first, the tree second. When the tree refuses the
subscriber, the entry in the table stays. -/
def clientSub0 (b : Broker) (a p : Addr) : Exec (Status × Broker) := do
  let client ← b.heap.get a
  let sub ← b.store.subs.get p
  let identifier := sub.getIdentifier
  match client.subs.find identifier with
  | none => do
      let heap := addEntry b.heap a identifier p
      let (s, store) ← addSubscriber (fun _ => true) b.store p
      some (s, { b with heap := heap, store := store })
  | some _ => some (.treeDupSubscriber, b)

/-- Allocates a subscriber object. -/
def Broker.allocSub (b : Broker) (sub : Subscriber) : Broker × Addr :=
  ({ b with store := { b.store with subs := (b.store.subs.alloc sub).1 } }, b.store.subs.next)

/-- `subscriber__free`. -/
def Broker.freeSub (b : Broker) (p : Addr) : Broker :=
  { b with store := { b.store with subs := b.store.subs.free p } }

/-- `client__sub1`. -/
def clientSub1 (b : Broker) (a : Addr) (topic : CStr) (subTag : Option CStr) :
    Exec (Status × Broker) := do
  let client ← b.heap.get a
  let (b, p) := b.allocSub (subscriberNew topic subTag a client)
  let (s, b) ← clientSub0 b a p
  if s = .ok then some (s, b) else some (s, b.freeSub p)

/-- `client__unsub0`. A tag that is NULL is an invalid argument. -/
def clientUnsub0 (b : Broker) (a : Addr) (topic : CStr) (subTag : Option CStr) :
    Exec (Status × Broker) := do
  let client ← b.heap.get a
  match subTag with
  | none => some (.invalidArg, b)
  | some subTag =>
      let identifier := subscriberMakeIdentifier topic subTag
      match client.subs.find identifier with
      | none => some (.invalidSubscriber, b)
      | some p => do
          let heap := delEntry b.heap a identifier
          let (s, store) ← delSubscriber b.store p
          let b : Broker := { b with heap := heap, store := store }
          some (s, b.freeSub p)

/-- The loop of `client__unsub_all`. -/
def unsubAllLoop (a : Addr) : List (CStr × Addr) → Broker → Exec Broker
  | [], b => some b
  | (key, p) :: rest, b => do
      let heap := delEntry b.heap a key
      let (_, store) ← delSubscriber b.store p
      let b : Broker := { b with heap := heap, store := store }
      unsubAllLoop a rest (b.freeSub p)

/-- `client__unsub_all`. -/
def clientUnsubAll (b : Broker) (a : Addr) : Exec Broker := do
  let client ← b.heap.get a
  unsubAllLoop a client.subs b

/-- `client__destroy`. -/
def clientDestroy (b : Broker) (a : Addr) : Exec Broker := do
  let b ← clientUnsubAll b a
  some { b with heap := b.heap.free a }

end Bpsp
