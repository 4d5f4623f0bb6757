import Bpsp.CLib.Locks
import Bpsp.Server.Trace
import Bpsp.Server.Step
import Bpsp.Topic.Tables

/-!
# Locks

The functions of `lib/topic.c`, `lib/client.c` and `lib/broker.c` that take locks, with a counter for
each lock. What the calls inside them come to (memory, headers, copies, sockets) is an argument, the
`Outcomes`. Every function gives back what it took but `client__write`, which leaves through
`ASSERT_BPSP_OK` with the client's mutex when the frame cannot be copied (`locks_kept_iff`).
-/

namespace Bpsp.Locking

open CLib CLib.Locked Topic

/-- The locks: `mutex` and `rw_lock` of a client, `cli_rw_lock` of the broker and `rw_lock` of the
topic tree. -/
inductive Lock where
  | clientMutex (a : Addr)
  | clientRw (a : Addr)
  | cliRw
  | treeRw
  deriving DecidableEq

/-- The broker with the fields that decide about an early return: what `client__is_close` tells of
the client at an address, whether its `broker` is set, and whether the `_id` of a subscriber is
NULL. -/
structure World where
  broker : Broker
  closed : Addr → Bool
  attached : Addr → Bool
  nameless : Addr → Bool

/-- What the calls inside come to. `alloc` is for the turns of the loop of `topic__add_subscriber`;
the flags tell whether memory is granted, to the copy of the topic in `topic__extract_token`, to
`subscriber__new_hash_elt`, to `subscriber__make_identifier` and to the address of a sender. -/
structure Outcomes where
  setVarHeader : Frame → CStr → Option CStr → Status × Frame
  copy : Frame → Status × Frame
  recv : Status × Frame
  send : Frame → Status
  close : Status
  alloc : Nat → Alloc
  tokens : Bool
  element : Bool
  identifier : Bool
  sourceAddr : Bool

/-- A computation on the locks and the broker. -/
abbrev Action (α : Type) := Locked Lock World α

/-- A field of the client at an address. -/
def ofClient {α : Type} (a : Addr) (f : Client → World → α) : Action α :=
  onState fun w => (w.broker.heap.get a).map fun c => (f c w, w)

/-- A field of the subscriber at an address. -/
def ofSub {α : Type} (p : Addr) (f : Subscriber → World → α) : Action α :=
  onState fun w => (w.broker.store.subs.get p).map fun s => (f s w, w)

/-- A NULL pointer would be followed without a test. -/
def unchecked (granted : Bool) : Action Unit :=
  onState fun w => if granted then some ((), w) else none

/-- `log__trace_in` and `log__trace_out`. -/
def logTrace (frame : Frame) : Action Unit := unchecked (getOpText frame.opcode).isSome

/-- What is done to the broker. -/
def onBroker {α : Type} (f : Broker → Exec (α × Broker)) : Action α :=
  onState fun w => (f w.broker).map fun r => (r.1, { w with broker := r.2 })

/-- What is done to the tree and the subscribers. -/
def onStore {α : Type} (f : Store → Exec (α × Store)) : Action α :=
  onBroker fun b => (f b.store).map fun r => (r.1, { b with store := r.2 })

variable (o : Outcomes)

/-- `topic__extract_token`. The copy of the topic is made after the first checks, and is not
tested. -/
def extractToken (topic : CStr) : Action (Option (List CStr)) :=
  if topic.length = 0 ∨ topic.bytes.head? = some slash ∨ topic.bytes.getLast? = some slash then
    pure none
  else do
    unchecked o.tokens
    pure (levels topic)

/-- `topic__add_subscriber`. -/
def topicAddSubscriber (tree : Bool) (sub : Option Addr) (lock : Bool) : Action Status :=
  match tree, sub with
  | true, some p => do
      let nameless ← ofSub p fun _ w => w.nameless p
      if nameless then pure .invalidArg
      else do
        let topic ← ofSub p fun s _ => s.getTopic
        match ← extractToken o topic with
        | none => pure .invalidTopic
        | some toks => do
            acquireIf lock .treeRw
            let s ← onStore fun st => addLoopWith o.alloc st root p toks
            if s = .ok then do
              releaseIf lock .treeRw
              pure s
            else do
              -- `RET_ERROR`
              releaseIf lock .treeRw
              pure s
  | _, _ => pure .invalidArg

/-- `topic__del_subscriber`. -/
def topicDelSubscriber (p : Addr) (lock : Bool) : Action Status := do
  let node ← ofSub p fun s _ => s.node
  match node with
  | none => pure .ok
  | some _ => do
      let nameless ← ofSub p fun _ w => w.nameless p
      if nameless then pure .invalidSubscriber
      else do
        let topic ← ofSub p fun s _ => s.getTopic
        let _ ← extractToken o topic
        acquireIf lock .treeRw
        let s ← onStore fun st => delSubscriber st p
        releaseIf lock .treeRw
        pure s

/-- `topic__tree_find_subscribers`. -/
def topicTreeFindSubscribers (tree : Bool) (topic : Option CStr) (lock : Bool) :
    Action (Option (List Subscriber)) :=
  match tree, topic with
  | true, some topic => do
      match ← extractToken o topic with
      | none => pure none
      | some toks => do
          acquireIf lock .treeRw
          let subs ← onStore fun st => (nodeFindSubscribers st root toks).map (·, st)
          releaseIf lock .treeRw
          pure (some subs)
  | _, _ => pure none

/-- The test for a closed client at the start of `client__recv`, `client__send` and
`client__write`. -/
def refuses (a : Addr) (lock : Bool) : Action Bool :=
  if lock then do
    acquire (.clientRw a)
    let closed ← ofClient a fun _ w => w.closed a
    if closed then do
      release (.clientRw a)
      pure true
    else do
      release (.clientRw a)
      pure false
  else pure false

/-- `client__recv`. -/
def clientRecv (client : Option Addr) (lock : Bool) : Action Status :=
  match client with
  | none => pure .invalidArg
  | some a => do
      let closed ← refuses a lock
      if closed then pure .connectionClosed
      else do
        let (s, frame) ← ofClient a fun _ _ => o.recv
        if s ≠ .ok then pure s
        else do
          logTrace frame
          pure s

/-- `client__send`. -/
def clientSend (client : Option Addr) (frame : Frame) (lock : Bool) : Action Status :=
  match client with
  | none => pure .invalidArg
  | some a => do
      let closed ← refuses a lock
      if closed then pure .connectionClosed
      else do
        acquireIf lock (.clientMutex a)
        let s ← ofClient a fun _ _ => o.send frame
        releaseIf lock (.clientMutex a)
        if s ≠ .ok then pure s
        else do
          logTrace frame
          pure s

/-- `client__write`. -/
def clientWrite (client : Option Addr) (frame : Frame) : Action Status :=
  match client with
  | none => pure .invalidArg
  | some a => do
      let closed ← refuses a true
      if closed then pure .connectionClosed
      else do
        acquire (.clientMutex a)
        let (s, outFrame) ← pure (o.copy frame)
        -- `ASSERT_BPSP_OK` comes before the test that gives the mutex back
        if s ≠ .ok then pure s
        else if s ≠ .ok then do
          release (.clientMutex a)
          pure s
        else do
          let s ← clientSend o (some a) outFrame false
          release (.clientMutex a)
          pure s

/-- The part of `client__sub0` between the calls on the mutex. The new element is not tested. -/
def tableAdd (a p : Addr) : Action Status := onState fun w => do
  let client ← w.broker.heap.get a
  let sub ← w.broker.store.subs.get p
  if w.nameless p then none
  else
    match client.subs.find sub.getIdentifier with
    | some _ => some (.treeDupSubscriber, w)
    | none =>
        if o.element then
          some (.ok, { w with broker :=
            { w.broker with heap := addEntry w.broker.heap a sub.getIdentifier p } })
        else none

/-- `client__sub0`. -/
def clientSub0 (client sub : Option Addr) (lock : Bool) : Action Status :=
  match client, sub with
  | some a, some p => do
      let attached ← ofClient a fun _ w => w.attached a
      if !attached then pure .invalidArg
      else do
        acquireIf lock (.clientMutex a)
        let s ← tableAdd o a p
        releaseIf lock (.clientMutex a)
        if s = .ok then topicAddSubscriber o true (some p) lock else pure s
  | _, _ => pure .invalidArg

/-- `HASH_DEL` of the entry under a key. -/
def tableDel (a : Addr) (key : CStr) : Action Unit :=
  onBroker fun b => some ((), { b with heap := delEntry b.heap a key })

/-- `subscriber__free`. -/
def subscriberFree (p : Addr) : Action Unit := onBroker fun b => some ((), b.freeSub p)

/-- `client__unsub0`. -/
def clientUnsub0 (client : Option Addr) (topic subTag : Option CStr) (lock : Bool) :
    Action Status :=
  match client, topic, subTag with
  | some a, some topic, some subTag => do
      let attached ← ofClient a fun _ w => w.attached a
      if !attached then pure .invalidArg
      else if !o.identifier then pure .noMemory
      else do
        let identifier := subscriberMakeIdentifier topic subTag
        acquireIf lock (.clientMutex a)
        let found ← ofClient a fun c _ => c.subs.find identifier
        match found with
        | some p => do
            tableDel a identifier
            releaseIf lock (.clientMutex a)
            let s ← topicDelSubscriber o p lock
            subscriberFree p
            pure s
        | none => do
            releaseIf lock (.clientMutex a)
            pure .invalidSubscriber
  | _, _, _ => pure .invalidArg

/-- The loop of `client__unsub_all`. -/
def unsubAllLoop (a : Addr) : List (CStr × Addr) → Action Unit
  | [] => pure ()
  | (key, p) :: rest => do
      tableDel a key
      let _ ← topicDelSubscriber o p false
      subscriberFree p
      unsubAllLoop a rest

/-- `client__unsub_all`. -/
def clientUnsubAll (client : Option Addr) (lock : Bool) : Action Unit :=
  match client with
  | none => pure ()
  | some a => do
      let subs ← ofClient a fun c _ => c.subs
      let attached ← ofClient a fun _ w => w.attached a
      if subs = [] ∨ !attached then pure ()
      else do
        acquireIf lock (.clientMutex a)
        acquireIf lock .treeRw
        unsubAllLoop o a subs
        releaseIf lock .treeRw
        releaseIf lock (.clientMutex a)

/-- `mem__free` of a client. -/
def objectFree (a : Addr) : Action Unit :=
  onBroker fun b => some ((), { b with heap := b.heap.free a })

/-- `client__free` with `client__dtor`. -/
def clientFree (a : Addr) : Action Unit := do
  let subs ← ofClient a fun c _ => c.subs
  if subs ≠ [] then do
    clientUnsubAll o (some a) false
    objectFree a
  else objectFree a

/-- `client__destroy`. -/
def clientDestroy (client : Option Addr) : Action Status :=
  match client with
  | none => pure .ok
  | some a => do
      clientUnsubAll o (some a) true
      acquire (.clientRw a)
      let s ← ofClient a fun _ _ => o.close
      onState fun w => some ((), { w with closed := Function.update w.closed a true })
      release (.clientRw a)
      if s ≠ .ok then pure s
      else do
        clientFree o a
        pure s

/-- `broker__deliver_msg`. -/
def brokerDeliverMsg (source : Option Addr) (sub : Option Subscriber) (frame : Frame) :
    Action Status :=
  match source with
  | none => pure .invalidArg
  | some source => do
      let attached ← ofClient source fun _ w => w.attached source
      if !attached then pure .invalidArg
      else do
        let (s, frame) ← pure (o.setVarHeader frame Frame.xTopic (sub.map (·.getTopic)))
        if s ≠ .ok then pure s
        else do
          acquire .cliRw
          let target ← onState fun w => sub.map fun sub => (w.broker.clients.find sub.clientId, w)
          match target with
          | none => do
              release .cliRw
              pure s
          | some target =>
              if some target = sub.map (·.client) then do
                let addr ← ofClient source fun c _ => c.addr.text
                if !o.sourceAddr then do
                  release .cliRw
                  pure .noMemory
                else do
                  let (s, frame) ← pure (o.setVarHeader frame Frame.xFrom (some addr))
                  if s ≠ .ok then do
                    release .cliRw
                    pure s
                  else do
                    let _ ← clientSend o (some target) frame true
                    release .cliRw
                    pure s
              else do
                release .cliRw
                pure s

/-- `broker__destroy_client`. -/
def brokerDestroyClient (a : Addr) (lock : Bool) : Action Status := do
  acquireIf lock .cliRw
  let id ← ofClient a fun c _ => c.id
  onBroker fun b => some ((), match b.clients.find id with
    | none => b
    | some _ => { b with clients := b.clients.del id })
  releaseIf lock .cliRw
  let _ ← clientDestroy o (some a)
  pure .ok

/-- A call of one of the functions. `tree` tells whether the pointer to the tree is set. -/
inductive Call where
  | addSubscriber (tree : Bool) (sub : Option Addr) (lock : Bool)
  | delSubscriber (sub : Addr) (lock : Bool)
  | treeFindSubscribers (tree : Bool) (topic : Option CStr) (lock : Bool)
  | recv (client : Option Addr) (lock : Bool)
  | send (client : Option Addr) (frame : Frame) (lock : Bool)
  | write (client : Option Addr) (frame : Frame)
  | sub0 (client sub : Option Addr) (lock : Bool)
  | unsub0 (client : Option Addr) (topic subTag : Option CStr) (lock : Bool)
  | unsubAll (client : Option Addr) (lock : Bool)
  | deliverMsg (source : Option Addr) (sub : Option Subscriber) (frame : Frame)
  | destroyClient (client : Addr) (lock : Bool)

/-- A call whose result is dropped. -/
def ignore {α : Type} (m : Action α) : Action Unit := do
  let _ ← m
  pure ()

/-- The call, without its result. -/
def Call.run : Call → Action Unit
  | .addSubscriber tree sub lock => ignore (topicAddSubscriber o tree sub lock)
  | .delSubscriber sub lock => ignore (topicDelSubscriber o sub lock)
  | .treeFindSubscribers tree topic lock => ignore (topicTreeFindSubscribers o tree topic lock)
  | .recv client lock => ignore (clientRecv o client lock)
  | .send client frame lock => ignore (clientSend o client frame lock)
  | .write client frame => ignore (clientWrite o client frame)
  | .sub0 client sub lock => ignore (clientSub0 o client sub lock)
  | .unsub0 client topic subTag lock => ignore (clientUnsub0 o client topic subTag lock)
  | .unsubAll client lock => clientUnsubAll o client lock
  | .deliverMsg source sub frame => ignore (brokerDeliverMsg o source sub frame)
  | .destroyClient client lock => ignore (brokerDestroyClient o client lock)

section Balance

variable {α : Type} {a p : Addr}

theorem of_client_balanced (f : Client → World → α) : Balanced (ofClient a f) :=
  Balanced.on_state _

theorem of_sub_balanced (f : Subscriber → World → α) : Balanced (ofSub p f) := Balanced.on_state _

theorem on_broker_balanced (f : Broker → Exec (α × Broker)) : Balanced (onBroker f) :=
  Balanced.on_state _

theorem extract_token_balanced (topic : CStr) : Balanced (extractToken o topic) := by
  unfold extractToken
  split
  · exact Balanced.pure _
  · exact (Balanced.on_state _).bind fun _ => Balanced.pure _

theorem topic_add_subscriber_balanced (tree : Bool) (sub : Option Addr) (lock : Bool) :
    Balanced (topicAddSubscriber o tree sub lock) := by
  unfold topicAddSubscriber
  split
  · refine (of_sub_balanced _).bind fun nameless => ?_
    split
    · exact Balanced.pure _
    · refine (of_sub_balanced _).bind fun topic => (extract_token_balanced o topic).bind fun toks => ?_
      cases toks with
      | none => exact Balanced.pure _
      | some toks =>
          refine Net.acquire_if_bind ((on_broker_balanced _).bind fun s => ?_)
          split <;> exact Net.release_if_bind (Net.pure s (by abel))
  · exact Balanced.pure _

theorem topic_del_subscriber_balanced (p : Addr) (lock : Bool) :
    Balanced (topicDelSubscriber o p lock) := by
  unfold topicDelSubscriber
  refine (of_sub_balanced _).bind fun node => ?_
  cases node with
  | none => exact Balanced.pure _
  | some _ =>
      refine (of_sub_balanced _).bind fun nameless => ?_
      split
      · exact Balanced.pure _
      · refine (of_sub_balanced _).bind fun topic => (extract_token_balanced o topic).bind fun _ => ?_
        refine Net.acquire_if_bind ((on_broker_balanced _).bind fun s => ?_)
        exact Net.release_if_bind (Net.pure s (by abel))

theorem topic_tree_find_subscribers_balanced (tree : Bool) (topic : Option CStr) (lock : Bool) :
    Balanced (topicTreeFindSubscribers o tree topic lock) := by
  unfold topicTreeFindSubscribers
  split
  · refine (extract_token_balanced o _).bind fun toks => ?_
    cases toks with
    | none => exact Balanced.pure _
    | some toks =>
        refine Net.acquire_if_bind ((on_broker_balanced _).bind fun subs => ?_)
        exact Net.release_if_bind (Net.pure _ (by abel))
  · exact Balanced.pure _

theorem refuses_balanced (a : Addr) (lock : Bool) : Balanced (refuses a lock) := by
  unfold refuses
  split
  · refine Net.acquire_bind ((of_client_balanced _).bind fun closed => ?_)
    split <;> exact Net.release_bind (Net.pure _ (by abel))
  · exact Balanced.pure _

theorem client_recv_balanced (client : Option Addr) (lock : Bool) :
    Balanced (clientRecv o client lock) := by
  unfold clientRecv
  split
  · exact Balanced.pure _
  · refine (refuses_balanced _ lock).bind fun closed => ?_
    split
    · exact Balanced.pure _
    · refine (of_client_balanced _).bind fun r => ?_
      obtain ⟨s, frame⟩ := r
      dsimp only
      split
      · exact Balanced.pure _
      · exact (Balanced.on_state _).bind fun _ => Balanced.pure _

theorem client_send_balanced (client : Option Addr) (frame : Frame) (lock : Bool) :
    Balanced (clientSend o client frame lock) := by
  unfold clientSend
  split
  · exact Balanced.pure _
  · refine (refuses_balanced _ lock).bind fun closed => ?_
    split
    · exact Balanced.pure _
    · refine Net.acquire_if_bind ((of_client_balanced _).bind fun s => Net.release_if_bind ?_)
      rw [sub_add_cancel]
      split
      · exact Balanced.pure _
      · exact (Balanced.on_state _).bind fun _ => Balanced.pure _

theorem client_sub0_balanced (client sub : Option Addr) (lock : Bool) :
    Balanced (clientSub0 o client sub lock) := by
  unfold clientSub0
  split
  · refine (of_client_balanced _).bind fun attached => ?_
    split
    · exact Balanced.pure _
    · refine Net.acquire_if_bind ((Balanced.on_state _).bind fun s => Net.release_if_bind ?_)
      rw [sub_add_cancel]
      split
      · exact topic_add_subscriber_balanced o true _ lock
      · exact Balanced.pure _
  · exact Balanced.pure _

theorem client_unsub0_balanced (client : Option Addr) (topic subTag : Option CStr) (lock : Bool) :
    Balanced (clientUnsub0 o client topic subTag lock) := by
  unfold clientUnsub0
  split
  · refine (of_client_balanced _).bind fun attached => ?_
    split_ifs
    · exact Balanced.pure _
    · exact Balanced.pure _
    · refine Net.acquire_if_bind ((of_client_balanced _).bind fun found => ?_)
      cases found with
      | none => exact Net.release_if_bind (Net.pure _ (by abel))
      | some p =>
          refine (on_broker_balanced _).bind fun _ => Net.release_if_bind ?_
          rw [sub_add_cancel]
          refine (topic_del_subscriber_balanced o p lock).bind fun s => ?_
          exact (on_broker_balanced _).bind fun _ => Balanced.pure s
  · exact Balanced.pure _

/-- One turn for each entry of the table. -/
theorem unsub_all_loop_balanced (a : Addr) (entries : List (CStr × Addr)) :
    Balanced (unsubAllLoop o a entries) := by
  induction entries with
  | nil => exact Balanced.pure ()
  | cons e rest ih =>
      refine (on_broker_balanced _).bind fun _ => ?_
      refine (topic_del_subscriber_balanced o e.2 false).bind fun _ => ?_
      exact (on_broker_balanced _).bind fun _ => ih

theorem client_unsub_all_balanced (client : Option Addr) (lock : Bool) :
    Balanced (clientUnsubAll o client lock) := by
  unfold clientUnsubAll
  split
  · exact Balanced.pure _
  · refine (of_client_balanced _).bind fun subs => (of_client_balanced _).bind fun attached => ?_
    split
    · exact Balanced.pure _
    · refine Net.acquire_if_bind (Net.acquire_if_bind ?_)
      refine (unsub_all_loop_balanced o _ subs).bind fun _ => Net.release_if_bind ?_
      rw [sub_add_cancel, zero_sub]
      exact net_release_if lock _

theorem client_free_balanced (a : Addr) : Balanced (clientFree o a) := by
  unfold clientFree
  refine (of_client_balanced _).bind fun subs => ?_
  split
  · exact (client_unsub_all_balanced o _ false).bind fun _ => on_broker_balanced _
  · exact on_broker_balanced _

theorem client_destroy_balanced (client : Option Addr) : Balanced (clientDestroy o client) := by
  unfold clientDestroy
  split
  · exact Balanced.pure _
  · refine (client_unsub_all_balanced o _ true).bind fun _ => Net.acquire_bind ?_
    refine (of_client_balanced _).bind fun s => (Balanced.on_state _).bind fun _ => ?_
    refine Net.release_bind ?_
    rw [sub_add_cancel]
    split
    · exact Balanced.pure _
    · exact (client_free_balanced o _).bind fun _ => Balanced.pure _

theorem broker_deliver_msg_balanced (source : Option Addr) (sub : Option Subscriber)
    (frame : Frame) : Balanced (brokerDeliverMsg o source sub frame) := by
  have hrelease : ∀ s : Status, Net (do release .cliRw; pure s : Action Status)
      (0 - Pi.single .cliRw 1) := fun s => Net.release_bind (Net.pure s (by abel))
  unfold brokerDeliverMsg
  split
  · exact Balanced.pure _
  · refine (of_client_balanced _).bind fun attached => ?_
    split
    · exact Balanced.pure _
    · refine (Balanced.pure _).bind fun r => ?_
      obtain ⟨s, frame₁⟩ := r
      dsimp only
      split
      · exact Balanced.pure _
      · refine Net.acquire_bind ((Balanced.on_state _).bind fun target => ?_)
        cases target with
        | none => exact hrelease _
        | some target =>
            dsimp only
            split
            · refine (of_client_balanced _).bind fun addr => ?_
              split
              · exact hrelease _
              · refine (Balanced.pure _).bind fun r => ?_
                obtain ⟨s, frame₂⟩ := r
                dsimp only
                split
                · exact hrelease _
                · exact (client_send_balanced o _ _ true).bind fun _ => hrelease _
            · exact hrelease _

theorem broker_destroy_client_balanced (a : Addr) (lock : Bool) :
    Balanced (brokerDestroyClient o a lock) := by
  refine Net.acquire_if_bind ((of_client_balanced _).bind fun id => ?_)
  refine (on_broker_balanced _).bind fun _ => Net.release_if_bind ?_
  rw [sub_add_cancel]
  exact (client_destroy_balanced o _).bind fun _ => Balanced.pure _

end Balance

section Steps

variable {α β : Type} {w : World} {a p : Addr} {c : Client} {sub : Subscriber}
  {Q : β → World → Prop}

theorem of_client_bind {f : Client → World → α} {g : α → Action β}
    (hc : w.broker.heap.get a = some c) (h : Returns (g (f c w)) w Q) :
    Returns (ofClient a f >>= g) w Q :=
  Returns.on_state_bind (by rw [hc]; rfl) h

theorem of_sub_bind {f : Subscriber → World → α} {g : α → Action β}
    (hs : w.broker.store.subs.get p = some sub) (h : Returns (g (f sub w)) w Q) :
    Returns (ofSub p f >>= g) w Q :=
  Returns.on_state_bind (by rw [hs]; rfl) h

theorem unchecked_bind {granted : Bool} {g : Unit → Action β} (hg : granted = true)
    (h : Returns (g ()) w Q) : Returns (unchecked granted >>= g) w Q :=
  Returns.on_state_bind (by rw [hg]; rfl) h

theorem on_broker_bind {f : Broker → Exec (α × Broker)} {g : α → Action β} {r : α} {b : Broker}
    (hf : f w.broker = some (r, b)) (h : Returns (g r) { w with broker := b } Q) :
    Returns (onBroker f >>= g) w Q :=
  Returns.on_state_bind (by rw [hf]; rfl) h

theorem on_store_bind {f : Store → Exec (α × Store)} {g : α → Action β} {r : α} {st : Store}
    (hf : f w.broker.store = some (r, st))
    (h : Returns (g r) { w with broker := { w.broker with store := st } } Q) :
    Returns (onStore f >>= g) w Q :=
  on_broker_bind (by rw [hf]; rfl) h

end Steps

/-- The memory that is not tested is there. -/
structure Granted (o : Outcomes) : Prop where
  tokens : o.tokens = true
  element : o.element = true
  nodes : ∀ i, o.alloc i ≠ .nodeFails

section Definedness

variable {o} {w : World} {R : List Registration} {a p : Addr} {c : Client} {sub : Subscriber}

theorem extract_token_returns (ho : Granted o) (topic : CStr) :
    Returns (extractToken o topic) w fun toks w' => toks = levels topic ∧ w' = w := by
  unfold extractToken
  split
  · rename_i hrefused
    refine Returns.pure ⟨?_, rfl⟩
    unfold levels Topic.extractToken
    rcases hrefused with hempty | hslash
    · rw [if_pos hempty]
      rfl
    · rw [if_pos hslash]
      split <;> rfl
  · exact unchecked_bind ho.tokens (Returns.pure ⟨rfl, rfl⟩)

theorem topic_add_subscriber_returns (ho : Granted o) (h : Represents w.broker.store R)
    (hs : w.broker.store.subs.get p = some sub) (tree lock : Bool) :
    Returns (topicAddSubscriber o tree (some p) lock) w fun _ _ => True := by
  cases tree with
  | false => exact Returns.pure trivial
  | true =>
      refine of_sub_bind hs ?_
      split
      · exact Returns.pure trivial
      · refine of_sub_bind hs ((extract_token_returns ho _).bind ?_)
        rintro toks w' ⟨-, rfl⟩
        cases toks with
        | none => exact Returns.pure trivial
        | some toks =>
            obtain ⟨⟨s, st⟩, hrun⟩ : ∃ r, addLoopWith o.alloc w'.broker.store root p toks = some r :=
              add_loop_with_defined h.tree h.tree.shape.root_eq hs ho.nodes
            refine Returns.acquire_if_bind (on_store_bind hrun ?_)
            split <;> exact Returns.release_if_bind (Returns.pure trivial)

/-- Deleting a subscriber that has an `_id` is what `delSubscriber` says. -/
theorem topic_del_subscriber_returns (ho : Granted o) (hnamed : w.nameless p = false)
    {s : Status} {st : Store} (hdel : delSubscriber w.broker.store p = some (s, st))
    (lock : Bool) : Returns (topicDelSubscriber o p lock) w fun _ w' =>
      w' = { w with broker := { w.broker with store := st } } := by
  obtain ⟨sub, hs⟩ : ∃ sub, w.broker.store.subs.get p = some sub := by
    simp only [delSubscriber, bind, Option.bind_eq_some_iff] at hdel
    exact hdel.imp fun _ hs => hs.1
  refine of_sub_bind hs ?_
  cases hnode : sub.node with
  | none =>
      simp only [delSubscriber, hs, hnode, bind, Option.bind_some] at hdel
      rw [← (Prod.mk.inj (Option.some.inj hdel)).2]
      exact Returns.pure rfl
  | some n =>
      refine of_sub_bind hs ?_
      rw [hnamed, if_neg Bool.false_ne_true]
      refine of_sub_bind hs ((extract_token_returns ho _).bind ?_)
      rintro toks w' ⟨-, rfl⟩
      exact Returns.acquire_if_bind (on_store_bind hdel
        (Returns.release_if_bind (Returns.pure rfl)))

theorem topic_del_subscriber_bind {β : Type} {g : Status → Action β} {Q : β → World → Prop}
    {s : Status} {st : Store} {lock : Bool} (ho : Granted o) (hnamed : w.nameless p = false)
    (hdel : delSubscriber w.broker.store p = some (s, st))
    (h : ∀ s, Returns (g s) { w with broker := { w.broker with store := st } } Q) :
    Returns (topicDelSubscriber o p lock >>= g) w Q :=
  (topic_del_subscriber_returns ho hnamed hdel lock).bind fun s _ heq => heq ▸ h s

theorem topic_tree_find_subscribers_returns (ho : Granted o) (h : Represents w.broker.store R)
    (tree : Bool) (topic : Option CStr) (lock : Bool) :
    Returns (topicTreeFindSubscribers o tree topic lock) w fun _ _ => True := by
  unfold topicTreeFindSubscribers
  split
  · refine (extract_token_returns ho _).bind ?_
    rintro toks w' ⟨-, rfl⟩
    cases toks with
    | none => exact Returns.pure trivial
    | some toks =>
        refine Returns.acquire_if_bind (on_store_bind (by rw [find_subscribers_spec h]; rfl) ?_)
        exact Returns.release_if_bind (Returns.pure trivial)
  · exact Returns.pure trivial

theorem refuses_returns (hc : w.broker.heap.get a = some c) (lock : Bool) :
    Returns (refuses a lock) w fun _ w' => w' = w := by
  unfold refuses
  split
  · refine Returns.acquire_bind (of_client_bind hc ?_)
    split <;> exact Returns.release_bind (Returns.pure rfl)
  · exact Returns.pure rfl

theorem client_recv_returns (hc : w.broker.heap.get a = some c)
    (hop : o.recv.2.opcode.toNat < opText.length) (lock : Bool) :
    Returns (clientRecv o (some a) lock) w fun _ _ => True := by
  refine (refuses_returns hc lock).bind ?_
  rintro closed w' rfl
  split
  · exact Returns.pure trivial
  · refine of_client_bind hc ?_
    generalize o.recv = r at hop ⊢
    obtain ⟨s, frame⟩ := r
    dsimp only at hop ⊢
    split
    · exact Returns.pure trivial
    · exact unchecked_bind ((get_op_text_isSome _).mpr hop) (Returns.pure trivial)

theorem client_send_returns {frame : Frame} (hc : w.broker.heap.get a = some c)
    (hop : frame.opcode.toNat < opText.length) (lock : Bool) :
    Returns (clientSend o (some a) frame lock) w fun _ w' => w' = w := by
  refine (refuses_returns hc lock).bind ?_
  rintro closed w' rfl
  split
  · exact Returns.pure rfl
  · refine Returns.acquire_if_bind (of_client_bind hc (Returns.release_if_bind ?_))
    split
    · exact Returns.pure rfl
    · exact unchecked_bind ((get_op_text_isSome _).mpr hop) (Returns.pure rfl)

theorem client_write_returns {frame : Frame} (hc : w.broker.heap.get a = some c)
    (hop : (o.copy frame).2.opcode.toNat < opText.length) :
    Returns (clientWrite o (some a) frame) w fun _ _ => True := by
  refine (refuses_returns hc true).bind ?_
  rintro closed w' rfl
  split
  · exact Returns.pure trivial
  · refine Returns.acquire_bind ?_
    rw [pure_bind]
    generalize o.copy frame = r at hop ⊢
    obtain ⟨s, outFrame⟩ := r
    dsimp only at hop ⊢
    split_ifs
    · exact Returns.pure trivial
    · refine (client_send_returns hc hop false).bind ?_
      rintro s w' rfl
      exact Returns.release_bind (Returns.pure trivial)

theorem table_add_returns (ho : Granted o) (hc : w.broker.heap.get a = some c)
    (hs : w.broker.store.subs.get p = some sub) (hnamed : w.nameless p = false) :
    Returns (tableAdd o a p) w fun _ w' => w'.broker.store = w.broker.store := by
  cases hfind : c.subs.find sub.getIdentifier with
  | some q =>
      have hrun : Returns (tableAdd o a p) w fun s w' => s = .treeDupSubscriber ∧ w' = w :=
        Returns.on_state (by simp [hc, hs, hnamed, hfind]) ⟨rfl, rfl⟩
      exact hrun.mono fun _ _ h => congrArg (·.broker.store) h.2
  | none =>
      have hrun : Returns (tableAdd o a p) w fun s w' => s = .ok ∧ w' = { w with broker :=
          { w.broker with heap := addEntry w.broker.heap a sub.getIdentifier p } } :=
        Returns.on_state (by simp [hc, hs, hnamed, hfind, ho.element]) ⟨rfl, rfl⟩
      exact hrun.mono fun _ _ h => congrArg (·.broker.store) h.2

theorem client_sub0_returns (ho : Granted o) (h : Inv w.broker R)
    (hc : w.broker.heap.get a = some c) (hs : w.broker.store.subs.get p = some sub)
    (hnamed : w.nameless p = false) (lock : Bool) :
    Returns (clientSub0 o (some a) (some p) lock) w fun _ _ => True := by
  refine of_client_bind hc ?_
  split
  · exact Returns.pure trivial
  · refine Returns.acquire_if_bind ?_
    refine (table_add_returns ho hc hs hnamed).bind fun s w' hstore => Returns.release_if_bind ?_
    split
    · exact topic_add_subscriber_returns ho (hstore ▸ h.topic) (hstore ▸ hs) true lock
    · exact Returns.pure trivial

theorem client_unsub0_returns (ho : Granted o) (h : Inv w.broker R)
    (hc : w.broker.heap.get a = some c) (hnamed : ∀ p, w.nameless p = false)
    (topic subTag : Option CStr) (lock : Bool) :
    Returns (clientUnsub0 o (some a) topic subTag lock) w fun _ _ => True := by
  unfold clientUnsub0
  split
  · rename_i topic subTag ha
    obtain rfl := Option.some.inj ha
    refine of_client_bind hc ?_
    split_ifs
    · exact Returns.pure trivial
    · exact Returns.pure trivial
    · refine Returns.acquire_if_bind (of_client_bind hc ?_)
      cases hfind : c.subs.find (subscriberMakeIdentifier topic subTag) with
      | none => exact Returns.release_if_bind (Returns.pure trivial)
      | some p =>
          obtain ⟨store, hdel, -⟩ := drop_entry h hc (HashTable.mem_of_find hfind)
          refine on_broker_bind rfl (Returns.release_if_bind ?_)
          refine topic_del_subscriber_bind ho (hnamed p) hdel fun s => ?_
          exact on_broker_bind rfl (Returns.pure trivial)
  · exact Returns.pure trivial

/-- The loop runs as long as the loop over the broker does. -/
theorem unsub_all_loop_returns (ho : Granted o) (hnamed : ∀ p, w.nameless p = false)
    {entries : List (CStr × Addr)} {b : Broker}
    (hloop : Bpsp.unsubAllLoop a entries w.broker = some b) :
    Returns (unsubAllLoop o a entries) w fun _ w' => w' = { w with broker := b } := by
  induction entries generalizing w with
  | nil =>
      obtain rfl := Option.some.inj hloop
      exact Returns.pure rfl
  | cons e rest ih =>
      obtain ⟨key, p⟩ := e
      simp only [Bpsp.unsubAllLoop, bind, Option.bind_eq_some_iff] at hloop
      obtain ⟨⟨s, store⟩, hdel, hloop⟩ := hloop
      refine on_broker_bind rfl ?_
      refine topic_del_subscriber_bind ho (hnamed p) hdel fun s => ?_
      exact on_broker_bind rfl (ih hnamed hloop)

/-- Either nothing is done, or all entries are removed. -/
theorem client_unsub_all_returns (ho : Granted o) (hnamed : ∀ p, w.nameless p = false)
    (hc : w.broker.heap.get a = some c) {b : Broker}
    (hloop : Bpsp.unsubAllLoop a c.subs w.broker = some b) (lock : Bool) :
    Returns (clientUnsubAll o (some a) lock) w fun _ w' =>
      (w' = w ∧ (c.subs = [] ∨ w.attached a = false)) ∨ w' = { w with broker := b } := by
  refine of_client_bind hc (of_client_bind hc ?_)
  split
  · rename_i hidle
    exact Returns.pure (Or.inl ⟨rfl, by simpa using hidle⟩)
  · refine Returns.acquire_if_bind (Returns.acquire_if_bind ?_)
    refine (unsub_all_loop_returns ho hnamed hloop).bind fun _ w' heq => ?_
    refine Returns.release_if_bind fun held => ?_
    exact ⟨_, _, _, run_release_if held w' lock (.clientMutex a), Or.inr heq⟩

theorem client_free_returns (hc : w.broker.heap.get a = some c)
    (hidle : c.subs = [] ∨ w.attached a = false) :
    Returns (clientFree o a) w fun _ _ => True := by
  have hfree : Returns (objectFree a) w fun _ _ => True := fun held => ⟨_, _, _, rfl, trivial⟩
  refine of_client_bind hc ?_
  split
  · refine Returns.bind (P := fun _ w' => w' = w) ?_ fun _ w' heq => heq ▸ hfree
    refine of_client_bind hc (of_client_bind hc ?_)
    rw [if_pos (by simpa using hidle)]
    exact Returns.pure rfl
  · exact hfree

theorem client_destroy_returns (ho : Granted o) (hnamed : ∀ p, w.nameless p = false)
    (hc : w.broker.heap.get a = some c) {b : Broker}
    (hloop : Bpsp.unsubAllLoop a c.subs w.broker = some b)
    (hget : b.heap.get a = some { c with subs := [] }) :
    Returns (clientDestroy o (some a)) w fun _ _ => True := by
  refine (client_unsub_all_returns ho hnamed hc hloop true).bind fun _ w' hw' => ?_
  obtain ⟨c', hc', hidle⟩ : ∃ c', w'.broker.heap.get a = some c' ∧
      (c'.subs = [] ∨ w'.attached a = false) := by
    rcases hw' with ⟨rfl, hidle⟩ | rfl
    · exact ⟨c, hc, hidle⟩
    · exact ⟨_, hget, Or.inl rfl⟩
  refine Returns.acquire_bind (of_client_bind hc' (Returns.on_state_bind rfl ?_))
  refine Returns.release_bind ?_
  split
  · exact Returns.pure trivial
  · exact Returns.then_pure (client_free_returns hc' hidle)

theorem broker_destroy_client_returns (ho : Granted o) (hnamed : ∀ p, w.nameless p = false)
    (h : Inv w.broker R) (hc : w.broker.heap.get a = some c) (lock : Bool) :
    Returns (brokerDestroyClient o a lock) w fun _ _ => True := by
  obtain ⟨b, hloop, -, hget, -⟩ := unsub_all_loop h hc
  refine Returns.acquire_if_bind (of_client_bind hc (on_broker_bind rfl ?_))
  refine Returns.release_if_bind ?_
  rw [h.find_client hc]
  -- the loop does not look at the table that the client was taken from
  have hloop' : Bpsp.unsubAllLoop a c.subs { w.broker with clients := w.broker.clients.del c.id } =
      some { b with clients := w.broker.clients.del c.id } := by
    rw [unsub_all_clients, hloop]
    rfl
  exact Returns.then_pure (client_destroy_returns ho hnamed hc hloop' hget)

theorem broker_deliver_msg_returns {frame : Frame} (h : Inv w.broker R)
    (hc : w.broker.heap.get a = some c) (s : Subscriber)
    (hkeep : ∀ f k v, (o.setVarHeader f k v).2.opcode = f.opcode)
    (hop : frame.opcode.toNat < opText.length) :
    Returns (brokerDeliverMsg o (some a) (some s) frame) w fun _ _ => True := by
  have hrelease : ∀ st : Status,
      Returns (do release .cliRw; pure st : Action Status) w fun _ _ => True :=
    fun st => Returns.release_bind (Returns.pure trivial)
  refine of_client_bind hc ?_
  split
  · exact Returns.pure trivial
  · refine Returns.bind (P := fun r w' => r.2.opcode = frame.opcode ∧ w' = w)
      (Returns.pure ⟨hkeep _ _ _, rfl⟩) ?_
    rintro ⟨st, frame₁⟩ w' ⟨hop₁, rfl⟩
    dsimp only
    split
    · exact Returns.pure trivial
    · refine Returns.acquire_bind (Returns.on_state_bind rfl ?_)
      cases hfind : w'.broker.clients.find s.clientId with
      | none => exact hrelease _
      | some target =>
          obtain ⟨ct, hct, -⟩ := h.clients.mp (HashTable.mem_of_find hfind)
          dsimp only
          split
          · refine of_client_bind hc ?_
            split
            · exact hrelease _
            · refine Returns.bind (P := fun r v => r.2.opcode = frame.opcode ∧ v = w')
                (Returns.pure ⟨(hkeep _ _ _).trans hop₁, rfl⟩) ?_
              rintro ⟨st₂, frame₂⟩ v ⟨hop₂, rfl⟩
              dsimp only
              split
              · exact hrelease _
              · refine (client_send_returns hct (by rw [hop₂]; exact hop) true).bind ?_
                rintro s' v' rfl
                exact hrelease _
          · exact hrelease _

end Definedness

section Write

variable {o} {a : Addr} {frame : Frame}

theorem refuses_run (a : Addr) (h : Held Lock) (w : World) : (refuses a true).run (h, w) =
    (w.broker.heap.get a).map fun _ => (w.closed a, h, w) := by
  have hback : h + Pi.single (Lock.clientRw a) 1 - Pi.single (Lock.clientRw a) 1 = h :=
    add_sub_cancel_right _ _
  cases hget : w.broker.heap.get a with
  | none => simp [refuses, run_acquire, ofClient, run_on_state, hget]
  | some c =>
      cases hclosed : w.closed a with
      | false => simp [refuses, run_acquire, run_release, ofClient, run_on_state, hget, hclosed, hback]
      | true => simp [refuses, run_acquire, run_release, ofClient, run_on_state, hget, hclosed, hback]

/-- When the frame can be copied, the mutex is given back. -/
theorem client_write_balanced (hcopy : (o.copy frame).1 = .ok) :
    Balanced (clientWrite o (some a) frame) := by
  refine (refuses_balanced a true).bind fun closed => ?_
  split
  · exact Balanced.pure _
  · refine Net.acquire_bind ?_
    rw [pure_bind]
    generalize o.copy frame = r at hcopy ⊢
    obtain ⟨s, outFrame⟩ := r
    dsimp only at hcopy ⊢
    rw [if_neg (not_not_intro hcopy), if_neg (not_not_intro hcopy)]
    refine (client_send_balanced o _ _ false).bind fun s => ?_
    exact Net.release_bind (Net.pure s (by abel))

/-- When it cannot, an open client is left with its mutex taken. -/
theorem client_write_run (w : World) (hcopy : (o.copy frame).1 ≠ .ok)
    (h : Held Lock) : (clientWrite o (some a) frame).run (h, w) =
      (w.broker.heap.get a).map fun _ =>
        if w.closed a then (.connectionClosed, h, w)
        else ((o.copy frame).1, h + Pi.single (.clientMutex a) 1, w) := by
  unfold clientWrite
  generalize o.copy frame = r at hcopy ⊢
  obtain ⟨s, outFrame⟩ := r
  have hs : s ≠ .ok := hcopy
  rw [StateT.run_bind, refuses_run]
  cases w.broker.heap.get a with
  | none => rfl
  | some c =>
      cases w.closed a with
      | true => rfl
      | false => simp [run_acquire, hs]

end Write

/-- A frame that cannot be copied, for `client__write` to an open client. -/
def Leaks (w : World) : Call → Prop
  | .write (some a) frame =>
      (w.broker.heap.get a).isSome ∧ w.closed a = false ∧ (o.copy frame).1 ≠ .ok
  | _ => False

/-- The pointers of a call are NULL or live, the table has a text for the opcodes that are printed,
and setting a header keeps the opcode. -/
def Valid (w : World) : Call → Prop
  | .addSubscriber _ sub _ => ∀ p ∈ sub, (w.broker.store.subs.get p).isSome
  | .delSubscriber sub _ => (w.broker.store.subs.get sub).isSome
  | .treeFindSubscribers _ _ _ => True
  | .recv client _ =>
      (∀ a ∈ client, (w.broker.heap.get a).isSome) ∧ o.recv.2.opcode.toNat < opText.length
  | .send client frame _ =>
      (∀ a ∈ client, (w.broker.heap.get a).isSome) ∧ frame.opcode.toNat < opText.length
  | .write client frame => (∀ a ∈ client, (w.broker.heap.get a).isSome) ∧
      (o.copy frame).2.opcode.toNat < opText.length
  | .sub0 client sub _ => (∀ a ∈ client, (w.broker.heap.get a).isSome) ∧
      ∀ p ∈ sub, (w.broker.store.subs.get p).isSome
  | .unsub0 client _ _ _ => ∀ a ∈ client, (w.broker.heap.get a).isSome
  | .unsubAll client _ => ∀ a ∈ client, (w.broker.heap.get a).isSome
  | .deliverMsg source sub frame => (∀ a ∈ source, (w.broker.heap.get a).isSome) ∧ sub.isSome ∧
      frame.opcode.toNat < opText.length ∧ ∀ f k v, (o.setVarHeader f k v).2.opcode = f.opcode
  | .destroyClient client _ => (w.broker.heap.get client).isSome

/-- Nothing about the call is undefined: the broker is in a state that its tables and the tree agree
on, every subscriber has an `_id`, and the memory that is not tested is granted. -/
structure Ready (w : World) (call : Call) : Prop where
  granted : Granted o
  inv : ∃ R, Inv w.broker R
  named : ∀ p, w.nameless p = false
  valid : Valid o w call

theorem client_write_keeps_iff (w : World) (client : Option Addr) (frame : Frame) :
    Keeps (clientWrite o client frame) w ↔ ¬ Leaks o w (.write client frame) := by
  cases client with
  | none => exact iff_of_true (Balanced.keeps (Balanced.pure _) w) id
  | some a =>
      by_cases hcopy : (o.copy frame).1 = .ok
      · exact iff_of_true (Balanced.keeps (client_write_balanced hcopy) w) fun h => h.2.2 hcopy
      · have hrun : ∀ h, (clientWrite o (some a) frame).run (h, w) = _ := client_write_run w hcopy
        cases hget : w.broker.heap.get a with
        | none =>
            refine iff_of_true (fun h r h' w' heq => ?_) fun h => ?_
            · rw [hrun, hget] at heq
              cases heq
            · rw [Leaks, hget] at h
              exact Bool.false_ne_true h.1
        | some c =>
            cases hclosed : w.closed a with
            | true =>
                refine iff_of_true (fun h r h' w' heq => ?_) fun h => ?_
                · rw [hrun, hget, hclosed] at heq
                  obtain ⟨-, hheld⟩ := Prod.mk.inj (Option.some.inj heq)
                  exact (Prod.mk.inj hheld).1.symm
                · rw [Leaks, hclosed] at h
                  exact Bool.false_ne_true h.2.1.symm
            | false =>
                refine iff_of_false (fun h => ?_) fun h => h ⟨by rw [hget]; rfl, hclosed, hcopy⟩
                have heq := h 0 _ _ _ (by rw [hrun, hget, hclosed]; rfl)
                have hone := congrFun heq (.clientMutex a)
                rw [zero_add, Pi.single_eq_same] at hone
                exact one_ne_zero hone

/-- All calls but `client__write` are balanced. -/
theorem call_balanced (call : Call) (h : ∀ client frame, call ≠ .write client frame) :
    Balanced (call.run o) := by
  have hignore : ∀ {α : Type} {m : Action α}, Balanced m → Balanced (ignore m) :=
    fun hm => hm.bind fun _ => Balanced.pure ()
  cases call with
  | addSubscriber tree sub lock => exact hignore (topic_add_subscriber_balanced o tree sub lock)
  | delSubscriber sub lock => exact hignore (topic_del_subscriber_balanced o sub lock)
  | treeFindSubscribers tree topic lock =>
      exact hignore (topic_tree_find_subscribers_balanced o tree topic lock)
  | recv client lock => exact hignore (client_recv_balanced o client lock)
  | send client frame lock => exact hignore (client_send_balanced o client frame lock)
  | write client frame => exact absurd rfl (h client frame)
  | sub0 client sub lock => exact hignore (client_sub0_balanced o client sub lock)
  | unsub0 client topic subTag lock =>
      exact hignore (client_unsub0_balanced o client topic subTag lock)
  | unsubAll client lock => exact client_unsub_all_balanced o client lock
  | deliverMsg source sub frame => exact hignore (broker_deliver_msg_balanced o source sub frame)
  | destroyClient client lock => exact hignore (broker_destroy_client_balanced o client lock)

theorem call_returns {w : World} {call : Call} (h : Ready o w call) :
    Returns (call.run o) w fun _ _ => True := by
  obtain ⟨ho, ⟨R, hinv⟩, hnamed, hvalid⟩ := h
  have hlive : ∀ {x : Option Client}, x.isSome → ∃ c, x = some c := Option.isSome_iff_exists.mp
  cases call with
  | addSubscriber tree sub lock =>
      refine Returns.then_pure ?_
      cases sub with
      | none => cases tree <;> exact Returns.pure trivial
      | some p =>
          obtain ⟨s, hs⟩ := Option.isSome_iff_exists.mp (hvalid p rfl)
          exact topic_add_subscriber_returns ho hinv.topic hs tree lock
  | delSubscriber sub lock =>
      obtain ⟨s, hs⟩ := Option.isSome_iff_exists.mp hvalid
      obtain ⟨st, hdel, -⟩ := del_free_spec hinv.topic hs
      exact topic_del_subscriber_bind ho (hnamed sub) hdel fun _ => Returns.pure trivial
  | treeFindSubscribers tree topic lock =>
      exact Returns.then_pure (topic_tree_find_subscribers_returns ho hinv.topic tree topic lock)
  | recv client lock =>
      refine Returns.then_pure ?_
      cases client with
      | none => exact Returns.pure trivial
      | some a =>
          obtain ⟨c, hc⟩ := hlive (hvalid.1 a rfl)
          exact client_recv_returns hc hvalid.2 lock
  | send client frame lock =>
      refine Returns.then_pure ?_
      cases client with
      | none => exact Returns.pure trivial
      | some a =>
          obtain ⟨c, hc⟩ := hlive (hvalid.1 a rfl)
          exact (client_send_returns hc hvalid.2 lock).mono fun _ _ _ => trivial
  | write client frame =>
      refine Returns.then_pure ?_
      cases client with
      | none => exact Returns.pure trivial
      | some a =>
          obtain ⟨c, hc⟩ := hlive (hvalid.1 a rfl)
          exact client_write_returns hc hvalid.2
  | sub0 client sub lock =>
      refine Returns.then_pure ?_
      cases client with
      | none => exact Returns.pure trivial
      | some a =>
          cases sub with
          | none => exact Returns.pure trivial
          | some p =>
              obtain ⟨c, hc⟩ := hlive (hvalid.1 a rfl)
              obtain ⟨s, hs⟩ := Option.isSome_iff_exists.mp (hvalid.2 p rfl)
              exact client_sub0_returns ho hinv hc hs (hnamed p) lock
  | unsub0 client topic subTag lock =>
      refine Returns.then_pure ?_
      cases client with
      | none => exact Returns.pure trivial
      | some a =>
          obtain ⟨c, hc⟩ := hlive (hvalid a rfl)
          exact client_unsub0_returns ho hinv hc hnamed topic subTag lock
  | unsubAll client lock =>
      cases client with
      | none => exact Returns.pure trivial
      | some a =>
          obtain ⟨c, hc⟩ := hlive (hvalid a rfl)
          obtain ⟨b, hloop, -⟩ := unsub_all_loop hinv hc
          exact (client_unsub_all_returns ho hnamed hc hloop lock).mono fun _ _ _ => trivial
  | deliverMsg source sub frame =>
      refine Returns.then_pure ?_
      obtain ⟨hsource, hsub, hop, hkeep⟩ := hvalid
      cases source with
      | none => exact Returns.pure trivial
      | some a =>
          obtain ⟨c, hc⟩ := hlive (hsource a rfl)
          obtain ⟨s, rfl⟩ := Option.isSome_iff_exists.mp hsub
          exact broker_deliver_msg_returns hinv hc s hkeep hop
  | destroyClient client lock =>
      obtain ⟨c, hc⟩ := hlive hvalid
      exact Returns.then_pure (broker_destroy_client_returns ho hnamed hinv hc lock)

/-- From every state and whatever the calls inside come to, a call that returns leaves the locks as
they were unless it is `client__write` of a frame that cannot be copied to an open client; and it
returns when nothing about it is undefined. -/
theorem locks_kept_iff (w : World) (call : Call) :
    (Keeps (call.run o) w ↔ ¬ Leaks o w call) ∧
      (Ready o w call → Returns (call.run o) w fun _ _ => True) := by
  refine ⟨?_, call_returns o⟩
  by_cases hwrite : ∃ client frame, call = .write client frame
  · obtain ⟨client, frame, rfl⟩ := hwrite
    exact (keeps_bind_pure ()).trans (client_write_keeps_iff o w client frame)
  · have hother : ∀ client frame, call ≠ .write client frame :=
      fun client frame heq => hwrite ⟨client, frame, heq⟩
    refine iff_of_true (Balanced.keeps (call_balanced o call hother) w) ?_
    cases call with
    | write client frame => exact absurd rfl (hother client frame)
    | _ => exact id

/-- Calls that all succeed, with the copy of `frame__copy`. -/
def goodOutcomes : Outcomes where
  setVarHeader frame _ _ := (.ok, frame)
  copy frame := frame.copy.getD (.invalidArg, Frame.new)
  recv := (.ok, Frame.new)
  send _ := .ok
  close := .ok
  alloc _ := .succeeds
  tokens := true
  element := true
  identifier := true
  sourceAddr := true

/-- A broker with one client, which is open. -/
def oneClient : World where
  broker :=
    { Broker.init with
      clients := HashTable.add [] firstId.text 0
      heap := (Heap.empty.alloc ⟨firstId.text, [], firstAddr⟩).1 }
  closed _ := false
  attached _ := true
  nameless _ := false

/-- The call is ready on a broker with one client. -/
theorem locks_kept_iff_one_client :
    Keeps ((Call.unsubAll (some 0) true).run goodOutcomes) oneClient ∧
      Returns ((Call.unsubAll (some 0) true).run goodOutcomes) oneClient fun _ _ => True := by
  obtain ⟨hkeeps, hreturns⟩ := locks_kept_iff goodOutcomes oneClient (.unsubAll (some 0) true)
  refine ⟨hkeeps.mpr id, hreturns ⟨⟨rfl, rfl, fun _ => nofun⟩, ⟨[], ?_⟩, fun _ => rfl, ?_⟩⟩
  · have hacc : brokerAccept Broker.init [firstId] firstAddr = some (oneClient.broker, 0) := rfl
    exact (accept_spec inv_init hacc).1
  · rintro a ha
    obtain rfl := Option.some.inj ha
    rfl

/-- A frame that is not complete cannot be copied, and `client__write` keeps the mutex. -/
theorem write_keeps_mutex :
    ¬ Keeps ((Call.write (some 0) Frame.new).run goodOutcomes) oneClient ∧
      (((Call.write (some 0) Frame.new).run goodOutcomes).run (0, oneClient)).map
        (fun r => r.2.1 (.clientMutex 0)) = some 1 := by
  have hrun : ((Call.write (some 0) Frame.new).run goodOutcomes).run (0, oneClient) =
      some ((), 0 + Pi.single (.clientMutex 0) 1, oneClient) := by
    have hcopy : (goodOutcomes.copy Frame.new).1 ≠ .ok := nofun
    rw [Call.run, ignore, StateT.run_bind, client_write_run oneClient hcopy]
    rfl
  refine ⟨fun h => ?_, by rw [hrun]; rfl⟩
  have hone := congrFun (h _ _ _ _ hrun) (.clientMutex 0)
  rw [zero_add, Pi.single_eq_same] at hone
  exact one_ne_zero hone

end Bpsp.Locking
