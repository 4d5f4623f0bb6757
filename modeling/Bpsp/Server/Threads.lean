import Bpsp.CLib.Runs
import Bpsp.Handle
import Bpsp.Topic.Walk

/-!
# The threads of the server

`server__loop` starts a thread for every client that it accepts, and all threads share the table of
clients, the client objects and the topic tree. `World` is the broker together with the place at
which each thread stands. A move takes one thread to the end of its next critical section: what the
code does under a lock is one step, with what only the thread itself can see before and after it.
The handlers of `Bpsp.Handle` run a request without interruption; here everything else may happen
between any two of its sections.

Two parts of the code touch shared data without the lock for them: `broker__accept` the table of
clients, and `topic__print_tree` the topic tree. Each of these is a move that begins it and a move
that ends it, and a section for which the lock is taken in between is undefined behaviour. So is
reading a freed object. `broker__accept` is modelled for a connection that the kernel hands over.
-/

namespace Bpsp

open CLib Topic

/-- Where the thread of a client stands between two sections. -/
inductive Thread where
  /-- In `client__read`. -/
  | reading
  /-- At the beginning of `handle__in_frame`. -/
  | handling (env : Env) (req : Frame)
  /-- In `client__sub0`, between the table of the client and the tree. -/
  | adding (env : Env) (req : Frame) (p : Addr)
  /-- In `client__unsub0`, between the table of the client and the tree. -/
  | deleting (env : Env) (req : Frame) (p : Addr)
  /-- In the loop of `handle__PUB` over the array `subs`, of which `rest` is left. -/
  | delivering (env : Env) (req : Frame) (topic : CStr) (subs rest : List Subscriber)
      (frame : Frame) (sent : Sent)
  /-- At `handle__reply`. -/
  | replying (env : Env) (req : Frame) (s : Status) (msg : CStr) (sent : Sent)
  /-- The loop of the client has ended; at `broker__destroy_client`. -/
  | leaving
  /-- At `client__unsub_all`, no longer in the table of clients. -/
  | departed
  /-- At `client__close` in `client__destroy`. -/
  | closing
  /-- At `client__free`. -/
  | freeing
  /-- At `topic__print_tree`. -/
  | freed
  /-- In `topic__print_tree`. -/
  | printing

/-- The server: the broker, the clients that are closed, the threads, the connection for which
`broker__accept` is at the table of clients, and the number of threads in `topic__print_tree`. -/
structure World where
  broker : Broker
  closed : Addr → Bool
  threads : Addr → Option Thread
  accepting : Option SockAddr
  printers : Nat

/-- The server at its start. -/
def World.init : World := ⟨Broker.init, fun _ => false, fun _ => none, none, 0⟩

/-- What can happen next: `broker__accept` begins for a connection or ends with the id that it
draws, a thread's `client__read` returns a frame or fails, or a thread goes on. -/
inductive Move where
  | connect (addr : SockAddr)
  | accept (draws : List ClientId)
  | receive (a : Addr) (input : Option (Env × Frame))
  | run (a : Addr)

namespace World

variable (w : World)

/-- The thread of a client goes on from another place. -/
def goto (a : Addr) (thread : Thread) : World :=
  { w with threads := fun x => if x = a then some thread else w.threads x }

/-- The thread of a client ends. -/
def exit (a : Addr) : World := { w with threads := fun x => if x = a then none else w.threads x }

/-- The place after a handler that ended with this status. -/
def after (s : Status) : Thread := if s = .ok then .reading else .leaving

/-- Walking the table of clients, which is made of the client objects. -/
def walkClients : Exec Unit :=
  if w.broker.clients.all fun e => (w.broker.heap.get e.2).isSome then some () else none

/-- Taking the lock of the table of clients and walking it. -/
def clientsSection : Exec Unit := if w.accepting.isNone then w.walkClients else none

/-- Changing the tree under its write lock. -/
def treeSection : Exec Unit := if w.printers = 0 then some () else none

/-- `client__send`. -/
def send (env : Env) (a : Addr) (frame : Frame) (sent : Sent) : Exec (Status × Sent) := do
  let _ ← w.broker.heap.get a
  if w.closed a then some (.connectionClosed, sent) else clientSend env a frame sent

/-- `broker__deliver_msg`. -/
def deliverMsg (env : Env) (source : Addr) (sub : Subscriber) (frame : Frame) (sent : Sent) :
    Exec (Status × Frame × Sent) := do
  let (s, frame) ← frame.setVarHeader Frame.xTopic (some sub.getTopic)
  if s ≠ .ok then some (s, frame, sent)
  else do
    -- the read lock of the table is held from here to the end, so the target stays in the table
    let _ ← w.clientsSection
    match w.broker.clients.find sub.clientId with
    | none => some (.ok, frame, sent)
    | some target =>
        if target = sub.client then do
          let sourceClient ← w.broker.heap.get source
          let (s, frame) ← frame.setVarHeader Frame.xFrom (some sourceClient.addr.text)
          if s ≠ .ok then some (s, frame, sent)
          else do
            let (_, sent) ← w.send env target frame sent
            some (.ok, frame, sent)
        else some (.ok, frame, sent)

/-- The body of the loop of `handle__PUB` for a subscriber that is not left out. -/
def deliverTo (env : Env) (a : Addr) (topic : CStr) (p : Subscriber) (frame : Frame)
    (sent : Sent) : Exec (Status × Frame × Sent) := do
  let (s, frame) ← frame.setVarHeader Frame.xSubTag (some p.subTag)
  if s ≠ .ok then some (s, frame, sent)
  else do
    let (s, frame) ← frame.setVarHeader Frame.xOriginTopic (some topic)
    if s ≠ .ok then some (s, frame, sent) else w.deliverMsg env a p frame sent

/-- One turn of the loop of `handle__PUB`, or its end. -/
def deliver (a : Addr) (env : Env) (req : Frame) (topic : CStr) (subs : List Subscriber) :
    List Subscriber → Frame → Sent → Exec World
  | [], _, sent => some (w.goto a (.replying env req .ok (.ofString "PUB OK.") sent))
  | p :: rest, frame, sent =>
      if leftOut a req p then some (w.goto a (.delivering env req topic subs rest frame sent))
      else do
        let (_, frame, sent) ← w.deliverTo env a topic p frame sent
        some (w.goto a (.delivering env req topic subs rest frame sent))

/-- `handle__PUB` up to its loop: the search, under the read lock of the tree, and the message. -/
def publish (a : Addr) (env : Env) (req : Frame) : Exec World :=
  match req.getVarHeader Frame.xTopic with
  | none => some (w.goto a .leaving)
  | some none => some (w.goto a (.replying env req .ok (.ofString "PUB OK.") []))
  | some (some topic) => do
      let subs ← treeFindSubscribers w.broker.store topic
      match subs with
      | none => some (w.goto a (.replying env req .ok (.ofString "PUB OK.") []))
      | some [] => some (w.goto a (.replying env req .ok (.ofString "PUB OK.") []))
      | some (p :: rest) => do
          let (s, frame) ← Frame.msg env.msgTime req
          if s = .ok then
            some (w.goto a (.delivering env req topic (p :: rest) (p :: rest) frame []))
          else some (w.goto a .leaving)

/-- `handle__SUB` up to the tree: the new subscriber, and the table of the client under the mutex of
the client. -/
def subscribe (a : Addr) (env : Env) (req : Frame) : Exec World :=
  match headerValue req Frame.xTopic with
  | none =>
      some (w.goto a (.replying env req .invalidTopic (.ofString "Missing header `x-topic`.") []))
  | some topic => do
      let client ← w.broker.heap.get a
      let (b, p) := w.broker.allocSub (subscriberNew topic (headerValue req Frame.xSubTag) a client)
      let sub ← b.store.subs.get p
      match client.subs.find sub.getIdentifier with
      | none =>
          let heap := addEntry b.heap a sub.getIdentifier p
          some ({ w with broker := { b with heap := heap } }.goto a (.adding env req p))
      | some _ =>
          some ({ w with broker := b }.goto a
            (.replying env req .ok (.ofString "Cannot add subsciber into Tree.") []))

/-- The rest of `handle__SUB` before the reply. For a topic that is not accepted
`topic__add_subscriber` returns before it takes the lock. -/
def add (a : Addr) (env : Env) (req : Frame) (p : Addr) : Exec World := do
  let sub ← w.broker.store.subs.get p
  let _ ← if (levels sub.getTopic).isSome then w.treeSection else some ()
  let (s, store) ← addSubscriber (fun _ => true) w.broker.store p
  let msg := if (headerValue req Frame.xSubTag).isNone then
      CStr.ofString "SUB OK. WARNING: You need specify sub_tag, default to `_0`."
    else .ofString "SUB OK."
  let msg := if s ≠ .ok then .ofString "Cannot add subsciber into Tree." else msg
  some ({ w with broker := { w.broker with store := store } }.goto a (.replying env req .ok msg []))

/-- `handle__UNSUB` up to the tree: the table of the client, under the mutex of the client. -/
def unsubscribe (a : Addr) (env : Env) (req : Frame) : Exec World :=
  match headerValue req Frame.xTopic with
  | none =>
      some (w.goto a (.replying env req .invalidTopic (.ofString "Missing header `x-topic`.") []))
  | some topic => do
      let client ← w.broker.heap.get a
      match headerValue req Frame.xSubTag with
      | none =>
          some (w.goto a
            (.replying env req .invalidArg (.ofString "Cannot remove subsciber from Tree.") []))
      | some subTag =>
          let identifier := subscriberMakeIdentifier topic subTag
          match client.subs.find identifier with
          | none =>
              some (w.goto a (.replying env req .invalidSubscriber
                (.ofString "Cannot remove subsciber from Tree.") []))
          | some p =>
              let heap := delEntry w.broker.heap a identifier
              let w := { w with broker := { w.broker with heap := heap } }
              some (w.goto a (.deleting env req p))

/-- The rest of `handle__UNSUB` before the reply. For a subscriber outside the tree
`topic__del_subscriber` returns before it takes the lock. -/
def delete (a : Addr) (env : Env) (req : Frame) (p : Addr) : Exec World := do
  let sub ← w.broker.store.subs.get p
  let _ ← if sub.node.isSome then w.treeSection else some ()
  let (s, store) ← delSubscriber w.broker.store p
  let b := { w.broker with store := store }.freeSub p
  let msg := if (headerValue req Frame.xSubTag).isNone then
      CStr.ofString "UNSUB OK. WARNING: You need specify sub_tag, default to `_0`."
    else .ofString "UNSUB OK."
  let msg := if s ≠ .ok then .ofString "Cannot remove subsciber from Tree." else msg
  some ({ w with broker := b }.goto a (.replying env req s msg []))

/-- `handle__CONNECT`. -/
def inform (a : Addr) (env : Env) : Exec World := do
  let (s, out) ← Frame.info env.replyTime (.ofString "1.0.0")
    (.ofString "BPSP - Basic Publish Subscribe Broker")
  if s ≠ .ok then some (w.goto a .leaving)
  else do
    let (s, _) ← w.send env a out []
    some (w.goto a (after s))

/-- `handle__ECHO`. -/
def echo (a : Addr) (env : Env) (req : Frame) : Exec World := do
  let (s, _) ← w.send env a req []
  some (w.goto a (after s))

/-- `handle__in_frame` up to the end of its first section. -/
def handle (a : Addr) (env : Env) (req : Frame) : Exec World :=
  if req.isCompleted = false then some (w.goto a .leaving)
  else if req.opcode = Frame.opConnect then w.inform a env
  else if req.opcode = Frame.opPub then w.publish a env req
  else if req.opcode = Frame.opSub then w.subscribe a env req
  else if req.opcode = Frame.opUnsub then w.unsubscribe a env req
  else w.echo a env req

/-- `handle__reply`. -/
def reply (a : Addr) (env : Env) (req : Frame) (s : Status) (msg : CStr) (sent : Sent) :
    Exec World :=
  if Frame.flagIsSet req.flag Frame.flAck then do
    let (s, out) ← replyFrame env.replyTime req s msg
    if s ≠ .ok then some (w.goto a .leaving)
    else do
      let (s, _) ← w.send env a out sent
      some (w.goto a (after s))
  else some (w.goto a .reading)

/-- `broker__destroy_client` before `client__destroy`, under the write lock of the table. -/
def leave (a : Addr) : Exec World := do
  let _ ← w.clientsSection
  let client ← w.broker.heap.get a
  let clients := match w.broker.clients.find client.id with
    | none => w.broker.clients
    | some _ => w.broker.clients.del client.id
  some ({ w with broker := { w.broker with clients := clients } }.goto a .departed)

/-- `client__unsub_all`, which returns at once when the table of the client is empty. -/
def unsubAll (a : Addr) : Exec World := do
  let client ← w.broker.heap.get a
  let _ ← if client.subs ≠ [] then w.treeSection else some ()
  let b ← unsubAllLoop a client.subs w.broker
  some ({ w with broker := b }.goto a .closing)

/-- The part of `client__destroy` that closes the client, under its write lock. `net__close` always
succeeds. -/
def close (a : Addr) : Exec World := do
  let _ ← w.broker.heap.get a
  some ({ w with closed := fun x => if x = a then true else w.closed x }.goto a .freeing)

/-- `client__free`. -/
def free (a : Addr) : Exec World := do
  let _ ← w.broker.heap.get a
  some ({ w with broker := { w.broker with heap := w.broker.heap.free a } }.goto a .freed)

/-- The end of `topic__print_tree` and of the thread. -/
def print (a : Addr) : Exec World := do
  let _ ← printTree w.broker.store.tree
  some ({ w with printers := w.printers - 1 }.exit a)

/-- The thread of a client goes on, unless it waits for a frame. -/
def turn (a : Addr) : Exec World :=
  match w.threads a with
  | none => none
  | some .reading => none
  | some (.handling env req) => w.handle a env req
  | some (.adding env req p) => w.add a env req p
  | some (.deleting env req p) => w.delete a env req p
  | some (.delivering env req topic subs rest frame sent) =>
      w.deliver a env req topic subs rest frame sent
  | some (.replying env req s msg sent) => w.reply a env req s msg sent
  | some .leaving => w.leave a
  | some .departed => w.unsubAll a
  | some .closing => w.close a
  | some .freeing => w.free a
  | some .freed => some ({ w with printers := w.printers + 1 }.goto a .printing)
  | some .printing => w.print a

/-- `client__read` returns. -/
def received (a : Addr) : Option (Env × Frame) → World
  | none => w.goto a .leaving
  | some (env, req) => w.goto a (.handling env req)

/-- The end of `broker__accept`, and the new thread. -/
def accepted (addr : SockAddr) (draws : List ClientId) : Exec World := do
  let _ ← w.walkClients
  let (b, a) ← brokerAccept w.broker draws addr
  some ({ w with broker := b, accepting := none }.goto a .reading)

/-- One move. -/
def step : Move → Exec World
  | .connect addr => some { w with accepting := some addr }
  | .accept draws =>
      match w.accepting with
      | none => none
      | some addr => w.accepted addr draws
  | .receive a input =>
      match w.threads a with
      | some .reading => some (w.received a input)
      | _ => none
  | .run a => w.turn a

/-- The moves that the threads are ready for. A thread that waits for a frame does not go on by
itself, and the drawing of ids ends with one that is not in the table. -/
def Enabled : Move → Prop
  | .connect _ => w.accepting = none
  | .accept draws => w.accepting.isSome ∧ ∃ d ∈ draws, (w.broker.clients.find d.text).isNone
  | .receive a _ => w.threads a = some .reading
  | .run a => ∃ thread, w.threads a = some thread ∧ thread ≠ .reading

end World

end Bpsp
