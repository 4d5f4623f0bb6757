import Bpsp.Client

/-!
# The broker

`lib/broker.c`: accepting and destroying clients, and delivering a message to a subscriber. What a
request sends is recorded as the list of frames handed to `frame__send`, each with the client it is
for; `Frame.send` describes the bytes.
-/

namespace Bpsp

open CLib Topic

/-- Frames handed to `frame__send`, in order, with the client object each is for. -/
abbrev Sent := List (Addr × Frame)

/-- What the surroundings contribute to one request: the times at which a message and a reply are
built, and the outcome of the `i`-th send. -/
structure Env where
  msgTime : Timestamp
  replyTime : Timestamp
  io : Nat → Status

/-- An id that `rand_str` can draw: `BPSP_CLIENT_ID_LEN - 1` characters. -/
structure ClientId where
  text : CStr
  length_eq : text.length = 5

/-- `broker__accept` for a connection from `addr`: the first id drawn that no client has. -/
def brokerAccept (b : Broker) (draws : List ClientId) (addr : SockAddr) : Option (Broker × Addr) :=
  match draws.find? fun d => (b.clients.find d.text).isNone with
  | none => none
  | some d =>
      let (heap, a) := b.heap.alloc ⟨d.text, [], addr⟩
      some ({ b with heap := heap, clients := b.clients.add d.text a }, a)

/-- `broker__destroy_client`. -/
def brokerDestroyClient (b : Broker) (a : Addr) : Exec Broker := do
  let client ← b.heap.get a
  let clients := match b.clients.find client.id with
    | none => b.clients
    | some _ => b.clients.del client.id
  clientDestroy { b with clients := clients } a

/-- `client__send` to a client that is not closed. `frame__send` encodes the headers, so all of them
need a value. -/
def clientSend (env : Env) (a : Addr) (frame : Frame) (sent : Sent) : Exec (Status × Sent) :=
  if frame.isCompleted then do
    let _ ← if 0 < frame.varsSize then Frame.toBytes frame.varHeaders else some []
    some (env.io sent.length, sent ++ [(a, frame)])
  else some (.notCompletedFrame, sent)

/-- `broker__deliver_msg`. The outcome of the send itself is not reported. -/
def brokerDeliverMsg (env : Env) (b : Broker) (source : Addr) (sub : Subscriber) (frame : Frame)
    (sent : Sent) : Exec (Status × Frame × Sent) := do
  let (s, frame) ← frame.setVarHeader Frame.xTopic (some sub.getTopic)
  if s ≠ .ok then some (s, frame, sent)
  else
    match b.clients.find sub.clientId with
    | none => some (.ok, frame, sent)
    | some target =>
        if target = sub.client then do
          let sourceClient ← b.heap.get source
          let (s, frame) ← frame.setVarHeader Frame.xFrom (some sourceClient.addr.text)
          if s ≠ .ok then some (s, frame, sent)
          else do
            let (_, sent) ← clientSend env target frame sent
            some (.ok, frame, sent)
        else some (.ok, frame, sent)

end Bpsp
