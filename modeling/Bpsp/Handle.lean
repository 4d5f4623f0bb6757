import Bpsp.Broker

/-!
# Handling requests

`server/handle.c`. A handler takes the frame that was received and returns its status, the broker
after it and what it sent. The loop of a client ends when a handler fails, and the client is then
destroyed; `step` is one turn of the whole server.
-/

namespace Bpsp

open CLib Topic

/-- The result of a handler. -/
structure Outcome where
  status : Status
  broker : Broker
  sent : Sent

/-- The frame that `handle__reply` sends. -/
def replyFrame (now : Timestamp) (req : Frame) (s : Status) (msg : CStr) : Exec (Status × Frame) :=
  if s ≠ .ok then Frame.err now req s msg else Frame.ok now req msg

/-- `handle__reply`. -/
def handleReply (env : Env) (a : Addr) (req : Frame) (s : Status) (msg : CStr) (sent : Sent) :
    Exec (Status × Sent) :=
  if Frame.flagIsSet req.flag Frame.flAck then do
    let (s, out) ← replyFrame env.replyTime req s msg
    if s ≠ .ok then some (s, sent) else clientSend env a out sent
  else some (.ok, sent)

/-- `handle__ECHO`. -/
def handleEcho (env : Env) (b : Broker) (a : Addr) (req : Frame) : Exec Outcome := do
  let (s, sent) ← clientSend env a req []
  some ⟨s, b, sent⟩

/-- `handle__CONNECT`, with the default information of `broker__new`. -/
def handleConnect (env : Env) (b : Broker) (a : Addr) : Exec Outcome := do
  let (s, out) ← Frame.info env.replyTime (.ofString "1.0.0")
    (.ofString "BPSP - Basic Publish Subscribe Broker")
  if s ≠ .ok then some ⟨s, b, []⟩
  else do
    let (s, sent) ← clientSend env a out []
    some ⟨s, b, sent⟩

/-- The body of the loop of `handle__PUB` for a subscriber that is not left out: a header that
cannot be set ends it, with the frame as the failed call left it. -/
def deliverTo (env : Env) (b : Broker) (a : Addr) (topic : CStr) (p : Subscriber) (frame : Frame)
    (sent : Sent) : Exec (Status × Frame × Sent) := do
  let (s, frame) ← frame.setVarHeader Frame.xSubTag (some p.subTag)
  if s ≠ .ok then some (s, frame, sent)
  else do
    let (s, frame) ← frame.setVarHeader Frame.xOriginTopic (some topic)
    if s ≠ .ok then some (s, frame, sent) else brokerDeliverMsg env b a p frame sent

/-- The publisher's own subscribers are left out unless it asks for an echo. -/
def leftOut (a : Addr) (req : Frame) (p : Subscriber) : Bool :=
  p.client = a && !Frame.flagIsSet req.flag Frame.flPubEcho

/-- The loop of `handle__PUB`: one frame is reused for all subscribers, and the loop goes on
whatever came of one. -/
def publishLoop (env : Env) (b : Broker) (a : Addr) (req : Frame) (topic : CStr) :
    List Subscriber → Frame → Sent → Exec Sent
  | [], _, sent => some sent
  | p :: rest, frame, sent =>
      if leftOut a req p then publishLoop env b a req topic rest frame sent
      else do
        let (_, frame, sent) ← deliverTo env b a topic p frame sent
        publishLoop env b a req topic rest frame sent

/-- The delivery part of `handle__PUB`, for the array of matching subscribers or NULL. -/
def publish (env : Env) (b : Broker) (a : Addr) (req : Frame) (topic : CStr) :
    Option (List Subscriber) → Exec (Status × Sent)
  | none => some (.ok, [])
  | some [] => some (.ok, [])
  | some (p :: rest) => do
      let (s, frame) ← Frame.msg env.msgTime req
      if s = .ok then
        (publishLoop env b a req topic (p :: rest) frame []).map fun sent => (.ok, sent)
      else some (s, [])

/-- The search of `handle__PUB` and the delivery to what it finds. For a topic that is NULL,
`topic__tree_find_subscribers` returns no array. -/
def publishTo (env : Env) (b : Broker) (a : Addr) (req : Frame) :
    Option CStr → Exec (Status × Sent)
  | none => some (.ok, [])
  | some topic => do
      let subs ← treeFindSubscribers b.store topic
      publish env b a req topic subs

/-- `handle__PUB`. A failure returns before the reply. -/
def handlePub (env : Env) (b : Broker) (a : Addr) (req : Frame) : Exec Outcome :=
  match req.getVarHeader Frame.xTopic with
  | none => some ⟨.invalidTopic, b, []⟩
  | some topic => do
      let (s, sent) ← publishTo env b a req topic
      if s ≠ .ok then some ⟨s, b, sent⟩
      else do
        let (s, sent) ← handleReply env a req .ok (.ofString "PUB OK.") sent
        some ⟨s, b, sent⟩

/-- The value of a header, or NULL when the header is missing or has no value. -/
def headerValue (req : Frame) (key : CStr) : Option CStr := (req.getVarHeader key).join

/-- `handle__SUB`. The status of `client__sub0` is kept in a variable that hides the one the reply
is made from, so only the message tells of a failure. -/
def handleSub (env : Env) (b : Broker) (a : Addr) (req : Frame) : Exec Outcome := do
  let topic := headerValue req Frame.xTopic
  let subTag := headerValue req Frame.xSubTag
  let msg := if subTag.isNone then
      CStr.ofString "SUB OK. WARNING: You need specify sub_tag, default to `_0`."
    else .ofString "SUB OK."
  match topic with
  | some topic => do
      let client ← b.heap.get a
      let (b, p) := b.allocSub (subscriberNew topic subTag a client)
      let (s, b) ← clientSub0 b a p
      let msg := if s ≠ .ok then .ofString "Cannot add subsciber into Tree." else msg
      let (s, sent) ← handleReply env a req .ok msg []
      some ⟨s, b, sent⟩
  | none => do
      let (s, sent) ← handleReply env a req .invalidTopic (.ofString "Missing header `x-topic`.") []
      some ⟨s, b, sent⟩

/-- `handle__UNSUB`. -/
def handleUnsub (env : Env) (b : Broker) (a : Addr) (req : Frame) : Exec Outcome := do
  let topic := headerValue req Frame.xTopic
  let subTag := headerValue req Frame.xSubTag
  let msg := if subTag.isNone then
      CStr.ofString "UNSUB OK. WARNING: You need specify sub_tag, default to `_0`."
    else .ofString "UNSUB OK."
  match topic with
  | some topic => do
      let (s, b) ← clientUnsub0 b a topic subTag
      let msg := if s ≠ .ok then .ofString "Cannot remove subsciber from Tree." else msg
      let (s, sent) ← handleReply env a req s msg []
      some ⟨s, b, sent⟩
  | none => do
      let (s, sent) ← handleReply env a req .invalidTopic (.ofString "Missing header `x-topic`.") []
      some ⟨s, b, sent⟩

/-- `handle__in_frame`. -/
def handleInFrame (env : Env) (b : Broker) (a : Addr) (req : Frame) : Exec Outcome :=
  if req.isCompleted = false then some ⟨.notCompletedFrame, b, []⟩
  else if req.opcode = Frame.opConnect then handleConnect env b a
  else if req.opcode = Frame.opPub then handlePub env b a req
  else if req.opcode = Frame.opSub then handleSub env b a req
  else if req.opcode = Frame.opUnsub then handleUnsub env b a req
  else handleEcho env b a req

/-- What can happen to the server: a connection is accepted, a client sends a request, or a
client's connection ends. -/
inductive Event where
  | accept (draws : List ClientId) (addr : SockAddr)
  | request (env : Env) (a : Addr) (req : Frame)
  | disconnect (a : Addr)

/-- One turn of the server: `server__loop` accepting a client, or one turn of
`handle__client_loop`, which ends in `broker__destroy_client` when reading or handling failed. -/
def step (b : Broker) : Event → Exec Broker
  | .accept draws addr => (brokerAccept b draws addr).map Prod.fst
  | .request env a req => do
      let _ ← b.heap.get a
      let out ← handleInFrame env b a req
      if out.status = .ok then some out.broker else brokerDestroyClient out.broker a
  | .disconnect a => brokerDestroyClient b a

end Bpsp
