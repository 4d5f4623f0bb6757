import Bpsp.CLib.LockOrder
import Bpsp.Server.Locks

/-!
# The order of the locks

The functions of `Bpsp.Server.Locks` once more, as procedures that can be interrupted between any
two of their steps, with the mode in which each lock is taken. Without interruption they do what the
functions there do (`run_call`). Locks are taken in one order, the table of clients before a client
and a client before the tree (`call_ordered`), so any number of threads that call these functions is
never deadlocked (`calls_never_deadlock`). A call of `client__write` whose copy fails is left out:
it keeps the mutex, and the next thread that needs it waits for ever (`write_deadlocks`).
-/

namespace Bpsp.LockOrder

open CLib CLib.Procedure Topic Locking

/-- A function of the library that takes locks. -/
abbrev Function (α : Type) := Procedure Lock Locking.World α

/-- A field of the client at an address. -/
def ofClient {α : Type} (a : Addr) (f : Client → Locking.World → α) : Function α :=
  onState fun w => (w.broker.heap.get a).map fun c => (f c w, w)

/-- A field of the subscriber at an address. -/
def ofSub {α : Type} (p : Addr) (f : Subscriber → Locking.World → α) : Function α :=
  onState fun w => (w.broker.store.subs.get p).map fun s => (f s w, w)

/-- Memory that the code does not test for. -/
def unchecked (granted : Bool) : Function Unit :=
  onState fun w => if granted then some ((), w) else none

/-- `log__trace_in` and `log__trace_out`. -/
def logTrace (frame : Frame) : Function Unit := unchecked (getOpText frame.opcode).isSome

/-- What changes the broker only. -/
def onBroker {α : Type} (f : Broker → Exec (α × Broker)) : Function α :=
  onState fun w => (f w.broker).map fun r => (r.1, { w with broker := r.2 })

/-- What changes the tree and the subscriber objects only. -/
def onStore {α : Type} (f : Store → Exec (α × Store)) : Function α :=
  onBroker fun b => (f b.store).map fun r => (r.1, { b with store := r.2 })

variable (o : Outcomes)

/-- `topic__extract_token`. -/
def extractToken (topic : CStr) : Function (Option (List CStr)) :=
  if topic.length = 0 ∨ topic.bytes.head? = some slash ∨ topic.bytes.getLast? = some slash then
    pure none
  else do
    unchecked o.tokens
    pure (levels topic)

/-- `topic__add_subscriber`. -/
def topicAddSubscriber (tree : Bool) (sub : Option Addr) (lock : Bool) : Function Status :=
  match tree, sub with
  | true, some p => do
      let nameless ← ofSub p fun _ w => w.nameless p
      if nameless then pure .invalidArg
      else do
        let topic ← ofSub p fun s _ => s.getTopic
        match ← extractToken o topic with
        | none => pure .invalidTopic
        | some toks => do
            lockIf lock .treeRw .exclusive
            let s ← onStore fun st => addLoopWith o.alloc st root p toks
            if s = .ok then do
              unlockIf lock .treeRw
              pure s
            else do
              -- `RET_ERROR`
              unlockIf lock .treeRw
              pure s
  | _, _ => pure .invalidArg

/-- `topic__del_subscriber`. -/
def topicDelSubscriber (p : Addr) (lock : Bool) : Function Status := do
  let node ← ofSub p fun s _ => s.node
  match node with
  | none => pure .ok
  | some _ => do
      let nameless ← ofSub p fun _ w => w.nameless p
      if nameless then pure .invalidSubscriber
      else do
        let topic ← ofSub p fun s _ => s.getTopic
        let _ ← extractToken o topic
        lockIf lock .treeRw .exclusive
        let s ← onStore fun st => delSubscriber st p
        unlockIf lock .treeRw
        pure s

/-- `topic__tree_find_subscribers`. -/
def topicTreeFindSubscribers (tree : Bool) (topic : Option CStr) (lock : Bool) :
    Function (Option (List Subscriber)) :=
  match tree, topic with
  | true, some topic => do
      match ← extractToken o topic with
      | none => pure none
      | some toks => do
          lockIf lock .treeRw .shared
          let subs ← onStore fun st => (nodeFindSubscribers st root toks).map (·, st)
          unlockIf lock .treeRw
          pure (some subs)
  | _, _ => pure none

/-- The test for a closed client. -/
def refuses (a : Addr) (lock : Bool) : Function Bool :=
  if lock then do
    Procedure.lock (.clientRw a) .shared
    let closed ← ofClient a fun _ w => w.closed a
    if closed then do
      unlock (.clientRw a)
      pure true
    else do
      unlock (.clientRw a)
      pure false
  else pure false

/-- `client__recv`. -/
def clientRecv (client : Option Addr) (lock : Bool) : Function Status :=
  match client with
  | none => pure .invalidArg
  | some a => do
      let closed ← refuses a lock
      if closed then pure .connectionClosed
      else do
        let (s, frame) ← ofClient a fun _ _ => o.recv
        if s ≠ .ok then pure s
        else do
          logTrace frame
          pure s

/-- `client__send`. -/
def clientSend (client : Option Addr) (frame : Frame) (lock : Bool) : Function Status :=
  match client with
  | none => pure .invalidArg
  | some a => do
      let closed ← refuses a lock
      if closed then pure .connectionClosed
      else do
        lockIf lock (.clientMutex a) .exclusive
        let s ← ofClient a fun _ _ => o.send frame
        unlockIf lock (.clientMutex a)
        if s ≠ .ok then pure s
        else do
          logTrace frame
          pure s

/-- `client__write`. -/
def clientWrite (client : Option Addr) (frame : Frame) : Function Status :=
  match client with
  | none => pure .invalidArg
  | some a => do
      let closed ← refuses a true
      if closed then pure .connectionClosed
      else do
        Procedure.lock (.clientMutex a) .exclusive
        let (s, outFrame) ← pure (o.copy frame)
        -- `ASSERT_BPSP_OK` comes before the test that gives the mutex back
        if s ≠ .ok then pure s
        else if s ≠ .ok then do
          unlock (.clientMutex a)
          pure s
        else do
          let s ← clientSend o (some a) outFrame false
          unlock (.clientMutex a)
          pure s

/-- The part of `client__sub0` between the calls on the mutex. -/
def tableAdd (a p : Addr) : Function Status := onState fun w => do
  let client ← w.broker.heap.get a
  let sub ← w.broker.store.subs.get p
  if w.nameless p then none
  else
    match client.subs.find sub.getIdentifier with
    | some _ => some (.treeDupSubscriber, w)
    | none =>
        if o.element then
          some (.ok, { w with broker :=
            { w.broker with heap := addEntry w.broker.heap a sub.getIdentifier p } })
        else none

/-- `client__sub0`. -/
def clientSub0 (client sub : Option Addr) (lock : Bool) : Function Status :=
  match client, sub with
  | some a, some p => do
      let attached ← ofClient a fun _ w => w.attached a
      if !attached then pure .invalidArg
      else do
        lockIf lock (.clientMutex a) .exclusive
        let s ← tableAdd o a p
        unlockIf lock (.clientMutex a)
        if s = .ok then topicAddSubscriber o true (some p) lock else pure s
  | _, _ => pure .invalidArg

/-- `HASH_DEL` of the entry under a key. -/
def tableDel (a : Addr) (key : CStr) : Function Unit :=
  onBroker fun b => some ((), { b with heap := delEntry b.heap a key })

/-- `subscriber__free`. -/
def subscriberFree (p : Addr) : Function Unit := onBroker fun b => some ((), b.freeSub p)

/-- `client__unsub0`. -/
def clientUnsub0 (client : Option Addr) (topic subTag : Option CStr) (lock : Bool) :
    Function Status :=
  match client, topic, subTag with
  | some a, some topic, some subTag => do
      let attached ← ofClient a fun _ w => w.attached a
      if !attached then pure .invalidArg
      else if !o.identifier then pure .noMemory
      else do
        let identifier := subscriberMakeIdentifier topic subTag
        lockIf lock (.clientMutex a) .exclusive
        let found ← ofClient a fun c _ => c.subs.find identifier
        match found with
        | some p => do
            tableDel a identifier
            unlockIf lock (.clientMutex a)
            let s ← topicDelSubscriber o p lock
            subscriberFree p
            pure s
        | none => do
            unlockIf lock (.clientMutex a)
            pure .invalidSubscriber
  | _, _, _ => pure .invalidArg

/-- The loop of `client__unsub_all`. -/
def unsubAllLoop (a : Addr) : List (CStr × Addr) → Function Unit
  | [] => pure ()
  | (key, p) :: rest => do
      tableDel a key
      let _ ← topicDelSubscriber o p false
      subscriberFree p
      unsubAllLoop a rest

/-- `client__unsub_all`. -/
def clientUnsubAll (client : Option Addr) (lock : Bool) : Function Unit :=
  match client with
  | none => pure ()
  | some a => do
      let subs ← ofClient a fun c _ => c.subs
      let attached ← ofClient a fun _ w => w.attached a
      if subs = [] ∨ !attached then pure ()
      else do
        lockIf lock (.clientMutex a) .exclusive
        lockIf lock .treeRw .exclusive
        unsubAllLoop o a subs
        unlockIf lock .treeRw
        unlockIf lock (.clientMutex a)

/-- `mem__free` of a client. -/
def objectFree (a : Addr) : Function Unit :=
  onBroker fun b => some ((), { b with heap := b.heap.free a })

/-- `client__free` with `client__dtor`. -/
def clientFree (a : Addr) : Function Unit := do
  let subs ← ofClient a fun c _ => c.subs
  if subs ≠ [] then do
    clientUnsubAll o (some a) false
    objectFree a
  else objectFree a

/-- `client__destroy`. -/
def clientDestroy (client : Option Addr) : Function Status :=
  match client with
  | none => pure .ok
  | some a => do
      clientUnsubAll o (some a) true
      Procedure.lock (.clientRw a) .exclusive
      let s ← ofClient a fun _ _ => o.close
      onState fun w => some ((), { w with closed := Function.update w.closed a true })
      unlock (.clientRw a)
      if s ≠ .ok then pure s
      else do
        clientFree o a
        pure s

/-- `broker__deliver_msg`. -/
def brokerDeliverMsg (source : Option Addr) (sub : Option Subscriber) (frame : Frame) :
    Function Status :=
  match source with
  | none => pure .invalidArg
  | some source => do
      let attached ← ofClient source fun _ w => w.attached source
      if !attached then pure .invalidArg
      else do
        let (s, frame) ← pure (o.setVarHeader frame Frame.xTopic (sub.map (·.getTopic)))
        if s ≠ .ok then pure s
        else do
          Procedure.lock .cliRw .shared
          let target ← onState fun w => sub.map fun sub => (w.broker.clients.find sub.clientId, w)
          match target with
          | none => do
              unlock .cliRw
              pure s
          | some target =>
              if some target = sub.map (·.client) then do
                let addr ← ofClient source fun c _ => c.addr.text
                if !o.sourceAddr then do
                  unlock .cliRw
                  pure .noMemory
                else do
                  let (s, frame) ← pure (o.setVarHeader frame Frame.xFrom (some addr))
                  if s ≠ .ok then do
                    unlock .cliRw
                    pure s
                  else do
                    let _ ← clientSend o (some target) frame true
                    unlock .cliRw
                    pure s
              else do
                unlock .cliRw
                pure s

/-- `broker__destroy_client`. -/
def brokerDestroyClient (a : Addr) (lock : Bool) : Function Status := do
  lockIf lock .cliRw .exclusive
  let id ← ofClient a fun c _ => c.id
  onBroker fun b => some ((), match b.clients.find id with
    | none => b
    | some _ => { b with clients := b.clients.del id })
  unlockIf lock .cliRw
  let _ ← clientDestroy o (some a)
  pure .ok

/-- A call whose result is dropped. -/
def ignore {α : Type} (p : Function α) : Function Unit := do
  let _ ← p
  pure ()

/-- The procedure of a call. -/
def procedure : Call → Function Unit
  | .addSubscriber tree sub lock => ignore (topicAddSubscriber o tree sub lock)
  | .delSubscriber sub lock => ignore (topicDelSubscriber o sub lock)
  | .treeFindSubscribers tree topic lock => ignore (topicTreeFindSubscribers o tree topic lock)
  | .recv client lock => ignore (clientRecv o client lock)
  | .send client frame lock => ignore (clientSend o client frame lock)
  | .write client frame => ignore (clientWrite o client frame)
  | .sub0 client sub lock => ignore (clientSub0 o client sub lock)
  | .unsub0 client topic subTag lock => ignore (clientUnsub0 o client topic subTag lock)
  | .unsubAll client lock => clientUnsubAll o client lock
  | .deliverMsg source sub frame => ignore (brokerDeliverMsg o source sub frame)
  | .destroyClient client lock => ignore (brokerDestroyClient o client lock)

section Run

variable {α : Type} {a p : Addr}

@[simp] theorem run_of_client (f : Client → Locking.World → α) :
    (ofClient a f).run = Locking.ofClient a f := run_on_state _

@[simp] theorem run_of_sub (f : Subscriber → Locking.World → α) :
    (ofSub p f).run = Locking.ofSub p f := run_on_state _

@[simp] theorem run_unchecked (granted : Bool) :
    (unchecked granted).run = Locking.unchecked granted := run_on_state _

@[simp] theorem run_log_trace (frame : Frame) : (logTrace frame).run = Locking.logTrace frame :=
  run_on_state _

@[simp] theorem run_on_broker (f : Broker → Exec (α × Broker)) :
    (onBroker f).run = Locking.onBroker f := run_on_state _

@[simp] theorem run_on_store (f : Store → Exec (α × Store)) :
    (onStore f).run = Locking.onStore f := run_on_state _

@[simp] theorem run_extract_token (topic : CStr) :
    (extractToken o topic).run = Locking.extractToken o topic := by
  unfold extractToken Locking.extractToken
  split_ifs
  · rfl
  · simp

theorem run_topic_add_subscriber (tree : Bool) (sub : Option Addr) (lock : Bool) :
    (topicAddSubscriber o tree sub lock).run = Locking.topicAddSubscriber o tree sub lock := by
  cases tree with
  | false => rfl
  | true =>
      cases sub with
      | none => rfl
      | some p =>
          simp only [topicAddSubscriber, Locking.topicAddSubscriber, run_bind, run_of_sub]
          refine bind_congr fun nameless => ?_
          split_ifs
          · rfl
          · simp only [run_bind, run_of_sub, run_extract_token]
            refine bind_congr fun topic => bind_congr fun toks => ?_
            cases toks with
            | none => rfl
            | some toks =>
                simp only [run_bind, run_lock_if, run_on_store]
                refine bind_congr fun _ => bind_congr fun s => ?_
                split_ifs <;> simp

theorem run_topic_del_subscriber (p : Addr) (lock : Bool) :
    (topicDelSubscriber o p lock).run = Locking.topicDelSubscriber o p lock := by
  simp only [topicDelSubscriber, Locking.topicDelSubscriber, run_bind, run_of_sub]
  refine bind_congr fun node => ?_
  cases node with
  | none => rfl
  | some n =>
      simp only [run_bind, run_of_sub]
      refine bind_congr fun nameless => ?_
      split_ifs <;> simp

theorem run_topic_tree_find_subscribers (tree : Bool) (topic : Option CStr) (lock : Bool) :
    (topicTreeFindSubscribers o tree topic lock).run =
      Locking.topicTreeFindSubscribers o tree topic lock := by
  cases tree with
  | false => rfl
  | true =>
      cases topic with
      | none => rfl
      | some topic =>
          simp only [topicTreeFindSubscribers, Locking.topicTreeFindSubscribers, run_bind,
            run_extract_token]
          refine bind_congr fun toks => ?_
          cases toks <;> simp

theorem run_refuses (a : Addr) (lock : Bool) :
    (refuses a lock).run = Locking.refuses a lock := by
  cases lock with
  | false => rfl
  | true =>
      simp only [refuses, Locking.refuses, if_true, run_bind, run_lock, run_of_client]
      refine bind_congr fun _ => bind_congr fun closed => ?_
      split_ifs <;> simp

theorem run_client_recv (client : Option Addr) (lock : Bool) :
    (clientRecv o client lock).run = Locking.clientRecv o client lock := by
  cases client with
  | none => rfl
  | some a =>
      simp only [clientRecv, Locking.clientRecv, run_bind, run_refuses]
      refine bind_congr fun closed => ?_
      split_ifs
      · rfl
      · simp only [run_bind, run_of_client]
        refine bind_congr fun r => ?_
        split_ifs <;> simp

theorem run_client_send (client : Option Addr) (frame : Frame) (lock : Bool) :
    (clientSend o client frame lock).run = Locking.clientSend o client frame lock := by
  cases client with
  | none => rfl
  | some a =>
      simp only [clientSend, Locking.clientSend, run_bind, run_refuses]
      refine bind_congr fun closed => ?_
      split_ifs
      · rfl
      · simp only [run_bind, run_lock_if, run_unlock_if, run_of_client]
        refine bind_congr fun _ => bind_congr fun s => bind_congr fun _ => ?_
        split_ifs <;> simp

theorem run_client_write (client : Option Addr) (frame : Frame) :
    (clientWrite o client frame).run = Locking.clientWrite o client frame := by
  cases client with
  | none => rfl
  | some a =>
      simp only [clientWrite, Locking.clientWrite, run_bind, run_refuses]
      refine bind_congr fun closed => ?_
      split_ifs
      · rfl
      · simp only [run_bind, run_lock, run_pure]
        refine bind_congr fun _ => bind_congr fun r => ?_
        split_ifs <;> simp [run_client_send]

@[simp] theorem run_table_add (a p : Addr) : (tableAdd o a p).run = Locking.tableAdd o a p :=
  run_on_state _

theorem run_client_sub0 (client sub : Option Addr) (lock : Bool) :
    (clientSub0 o client sub lock).run = Locking.clientSub0 o client sub lock := by
  cases client with
  | none => rfl
  | some a =>
      cases sub with
      | none => rfl
      | some p =>
          simp only [clientSub0, Locking.clientSub0, run_bind, run_of_client]
          refine bind_congr fun attached => ?_
          split_ifs
          · rfl
          · simp only [run_bind, run_lock_if, run_unlock_if, run_table_add]
            refine bind_congr fun _ => bind_congr fun s => bind_congr fun _ => ?_
            split_ifs
            · exact run_topic_add_subscriber o true (some p) lock
            · rfl

@[simp] theorem run_table_del (a : Addr) (key : CStr) :
    (tableDel a key).run = Locking.tableDel a key := run_on_state _

@[simp] theorem run_subscriber_free (p : Addr) :
    (subscriberFree p).run = Locking.subscriberFree p := run_on_state _

@[simp] theorem run_object_free (a : Addr) : (objectFree a).run = Locking.objectFree a :=
  run_on_state _

theorem run_client_unsub0 (client : Option Addr) (topic subTag : Option CStr) (lock : Bool) :
    (clientUnsub0 o client topic subTag lock).run =
      Locking.clientUnsub0 o client topic subTag lock := by
  rcases client with _ | a
  · rfl
  rcases topic with _ | topic
  · rfl
  rcases subTag with _ | subTag
  · rfl
  simp only [clientUnsub0, Locking.clientUnsub0, run_bind, run_of_client]
  refine bind_congr fun attached => ?_
  split_ifs
  · rfl
  · rfl
  · simp only [run_bind, run_lock_if, run_of_client]
    refine bind_congr fun _ => bind_congr fun found => ?_
    cases found <;> simp [run_topic_del_subscriber]

theorem run_unsub_all_loop (a : Addr) (entries : List (CStr × Addr)) :
    (unsubAllLoop o a entries).run = Locking.unsubAllLoop o a entries := by
  induction entries with
  | nil => rfl
  | cons e entries ih =>
      simp [unsubAllLoop, Locking.unsubAllLoop, ih, run_topic_del_subscriber]

theorem run_client_unsub_all (client : Option Addr) (lock : Bool) :
    (clientUnsubAll o client lock).run = Locking.clientUnsubAll o client lock := by
  cases client with
  | none => rfl
  | some a =>
      simp only [clientUnsubAll, Locking.clientUnsubAll, run_bind, run_of_client]
      refine bind_congr fun subs => bind_congr fun attached => ?_
      split_ifs
      · rfl
      · simp [run_unsub_all_loop]

theorem run_client_free (a : Addr) : (clientFree o a).run = Locking.clientFree o a := by
  simp only [clientFree, Locking.clientFree, run_bind, run_of_client]
  refine bind_congr fun subs => ?_
  split_ifs <;> simp [run_client_unsub_all]

theorem run_client_destroy (client : Option Addr) :
    (clientDestroy o client).run = Locking.clientDestroy o client := by
  cases client with
  | none => rfl
  | some a =>
      simp only [clientDestroy, Locking.clientDestroy, run_bind, run_client_unsub_all, run_lock,
        run_unlock, run_of_client, run_on_state]
      refine bind_congr fun _ => bind_congr fun _ => bind_congr fun s => bind_congr fun _ =>
        bind_congr fun _ => ?_
      split_ifs <;> simp [run_client_free]

theorem run_broker_deliver_msg (source : Option Addr) (sub : Option Subscriber) (frame : Frame) :
    (brokerDeliverMsg o source sub frame).run = Locking.brokerDeliverMsg o source sub frame := by
  cases source with
  | none => rfl
  | some source =>
      simp only [brokerDeliverMsg, Locking.brokerDeliverMsg, run_bind, run_of_client]
      refine bind_congr fun attached => ?_
      cases attached with
      | false => rfl
      | true =>
          simp only [Bool.not_true, Bool.false_eq_true, if_false, run_bind, run_pure]
          refine bind_congr fun r => ?_
          by_cases hs : r.1 ≠ .ok
          · rw [if_pos hs, if_pos hs]
            rfl
          · rw [if_neg hs, if_neg hs]
            simp only [run_bind, run_lock, run_on_state]
            refine bind_congr fun _ => bind_congr fun target => ?_
            cases target with
            | none => simp
            | some target =>
                dsimp only
                by_cases htarget : some target = sub.map (·.client)
                · rw [if_pos htarget, if_pos htarget]
                  simp only [run_bind, run_of_client]
                  refine bind_congr fun addr => ?_
                  split_ifs
                  · simp
                  · simp only [run_bind, run_pure]
                    refine bind_congr fun r => ?_
                    split_ifs <;> simp [run_client_send]
                · rw [if_neg htarget, if_neg htarget]
                  simp

theorem run_broker_destroy_client (a : Addr) (lock : Bool) :
    (brokerDestroyClient o a lock).run = Locking.brokerDestroyClient o a lock := by
  simp only [brokerDestroyClient, run_bind, run_lock_if, run_unlock_if, run_of_client,
    run_on_broker, run_client_destroy, run_pure]
  rfl

theorem run_ignore {p : Function α} {m : Locking.Action α} (h : p.run = m) :
    (ignore p).run = Locking.ignore m := by
  simp [ignore, Locking.ignore, h]

/-- A call that is not interrupted is the call of `Bpsp.Server.Locks`. -/
theorem run_call (call : Call) : (procedure o call).run = call.run o := by
  cases call with
  | addSubscriber tree sub lock => exact run_ignore (run_topic_add_subscriber o tree sub lock)
  | delSubscriber sub lock => exact run_ignore (run_topic_del_subscriber o sub lock)
  | treeFindSubscribers tree topic lock =>
      exact run_ignore (run_topic_tree_find_subscribers o tree topic lock)
  | recv client lock => exact run_ignore (run_client_recv o client lock)
  | send client frame lock => exact run_ignore (run_client_send o client frame lock)
  | write client frame => exact run_ignore (run_client_write o client frame)
  | sub0 client sub lock => exact run_ignore (run_client_sub0 o client sub lock)
  | unsub0 client topic subTag lock =>
      exact run_ignore (run_client_unsub0 o client topic subTag lock)
  | unsubAll client lock => exact run_client_unsub_all o client lock
  | deliverMsg source sub frame => exact run_ignore (run_broker_deliver_msg o source sub frame)
  | destroyClient client lock => exact run_ignore (run_broker_destroy_client o client lock)

end Run

/-- The order of the locks. -/
def rank : Lock → Nat
  | .cliRw => 0
  | .clientMutex _ | .clientRw _ => 1
  | .treeRw => 2

theorem rank_le (l : Lock) : rank l ≤ 2 := by cases l <;> simp [rank]

section Order

variable {α : Type} {o} {a p : Addr} {held : List Lock} {lock : Bool}

/-- All that is held ranks below. -/
def Below (n : Nat) (held : List Lock) : Prop := ∀ k ∈ held, rank k < n

theorem Below.mono {m n : Nat} (h : Below m held) (hle : m ≤ n) : Below n held :=
  fun k hk => Nat.lt_of_lt_of_le (h k hk) hle

theorem Below.with {n : Nat} (h : Below n held) {l : Lock} (hl : rank l < n) :
    Below n (heldWith lock l held) := by
  intro k hk
  cases lock with
  | false => exact h k hk
  | true =>
      rcases List.mem_cons.mp hk with rfl | hk
      · exact hl
      · exact h k hk

theorem lock_ordered {l : Lock} {n : Nat} (mode : Mode) (h : Below n held) (hl : n ≤ rank l) :
    Ordered rank held (Procedure.lock l mode : Function Unit) (l :: held) :=
  Ordered.lock mode (h.mono hl)

theorem extract_token_ordered (topic : CStr) : Ordered rank held (extractToken o topic) held := by
  unfold extractToken
  split_ifs
  · exact .pure _
  · exact (Ordered.on_state _).bind fun _ => .pure _

theorem topic_add_subscriber_ordered (h : lock = true → Below 2 held) (tree : Bool)
    (sub : Option Addr) : Ordered rank held (topicAddSubscriber o tree sub lock) held := by
  unfold topicAddSubscriber
  split
  · refine (Ordered.on_state _).bind fun nameless => ?_
    split_ifs
    · exact .pure _
    · refine (Ordered.on_state _).bind fun topic => (extract_token_ordered _).bind fun toks => ?_
      cases toks with
      | none => exact .pure _
      | some toks =>
          refine (Ordered.lock_if _ h).bind fun _ => (Ordered.on_state _).bind fun s => ?_
          split_ifs
          · exact (Ordered.unlock_if _ _).bind fun _ => .pure _
          · exact (Ordered.unlock_if _ _).bind fun _ => .pure _
  · exact .pure _

theorem topic_del_subscriber_ordered (h : lock = true → Below 2 held) (p : Addr) :
    Ordered rank held (topicDelSubscriber o p lock) held := by
  unfold topicDelSubscriber
  refine (Ordered.on_state _).bind fun node => ?_
  cases node with
  | none => exact .pure _
  | some n =>
      refine (Ordered.on_state _).bind fun nameless => ?_
      split_ifs
      · exact .pure _
      · exact (Ordered.on_state _).bind fun topic => (extract_token_ordered _).bind fun _ =>
          (Ordered.lock_if _ h).bind fun _ => (Ordered.on_state _).bind fun s =>
            (Ordered.unlock_if _ _).bind fun _ => .pure _

theorem topic_tree_find_subscribers_ordered (h : lock = true → Below 2 held) (tree : Bool)
    (topic : Option CStr) :
    Ordered rank held (topicTreeFindSubscribers o tree topic lock) held := by
  unfold topicTreeFindSubscribers
  split
  · refine (extract_token_ordered _).bind fun toks => ?_
    cases toks with
    | none => exact .pure _
    | some toks =>
        exact (Ordered.lock_if _ h).bind fun _ => (Ordered.on_state _).bind fun subs =>
          (Ordered.unlock_if _ _).bind fun _ => .pure _
  · exact .pure _

theorem refuses_ordered (h : lock = true → Below 1 held) (a : Addr) :
    Ordered rank held (refuses a lock) held := by
  unfold refuses
  split_ifs with hlock
  · refine (lock_ordered _ (h hlock) (by simp [rank])).bind fun _ =>
      (Ordered.on_state _).bind fun closed => ?_
    split_ifs
    · exact (Ordered.unlock _).bind fun _ => .pure _
    · exact (Ordered.unlock _).bind fun _ => .pure _
  · exact .pure _

theorem client_recv_ordered (h : lock = true → Below 1 held) (client : Option Addr) :
    Ordered rank held (clientRecv o client lock) held := by
  unfold clientRecv
  split
  · exact .pure _
  · refine (refuses_ordered h _).bind fun closed => ?_
    split_ifs
    · exact .pure _
    · refine (Ordered.on_state _).bind fun r => ?_
      obtain ⟨s, frame⟩ := r
      dsimp only
      split_ifs
      · exact .pure _
      · exact (Ordered.on_state _).bind fun _ => .pure _

theorem client_send_ordered (h : lock = true → Below 1 held) (client : Option Addr)
    (frame : Frame) : Ordered rank held (clientSend o client frame lock) held := by
  unfold clientSend
  split
  · exact .pure _
  · refine (refuses_ordered h _).bind fun closed => ?_
    split_ifs
    · exact .pure _
    · refine (Ordered.lock_if _ h).bind fun _ => (Ordered.on_state _).bind fun s =>
        (Ordered.unlock_if _ _).bind fun _ => ?_
      split_ifs
      · exact .pure _
      · exact (Ordered.on_state _).bind fun _ => .pure _

/-- `client__write` gives the mutex back when the frame can be copied. -/
theorem client_write_ordered (h : Below 1 held) {frame : Frame} (hcopy : (o.copy frame).1 = .ok)
    (client : Option Addr) : Ordered rank held (clientWrite o client frame) held := by
  unfold clientWrite
  split
  · exact .pure _
  · refine (refuses_ordered (fun _ => h) _).bind fun closed => ?_
    split_ifs
    · exact .pure _
    · refine (lock_ordered _ h (by simp [rank])).bind fun _ => ?_
      show Ordered rank _ (if (o.copy frame).1 ≠ .ok then _ else _) held
      rw [if_neg (not_not.mpr hcopy)]
      exact (client_send_ordered (by simp) _ _).bind fun _ => (Ordered.unlock _).bind fun _ =>
        .pure _

theorem client_sub0_ordered (h : lock = true → Below 1 held) (client sub : Option Addr) :
    Ordered rank held (clientSub0 o client sub lock) held := by
  unfold clientSub0
  split
  · refine (Ordered.on_state _).bind fun attached => ?_
    split_ifs
    · exact .pure _
    · refine (Ordered.lock_if _ h).bind fun _ => (Ordered.on_state _).bind fun s =>
        (Ordered.unlock_if _ _).bind fun _ => ?_
      split_ifs
      · exact topic_add_subscriber_ordered (fun hlock => (h hlock).mono (by decide)) _ _
      · exact .pure _
  · exact .pure _

theorem client_unsub0_ordered (h : lock = true → Below 1 held) (client : Option Addr)
    (topic subTag : Option CStr) :
    Ordered rank held (clientUnsub0 o client topic subTag lock) held := by
  unfold clientUnsub0
  split
  · refine (Ordered.on_state _).bind fun attached => ?_
    split_ifs
    · exact .pure _
    · exact .pure _
    · refine (Ordered.lock_if _ h).bind fun _ => (Ordered.on_state _).bind fun found => ?_
      cases found with
      | none => exact (Ordered.unlock_if _ _).bind fun _ => .pure _
      | some p =>
          exact (Ordered.on_state _).bind fun _ => (Ordered.unlock_if _ _).bind fun _ =>
            (topic_del_subscriber_ordered (fun hlock => (h hlock).mono (by decide)) _).bind
              fun s => (Ordered.on_state _).bind fun _ => .pure _
  · exact .pure _

theorem unsub_all_loop_ordered (a : Addr) (entries : List (CStr × Addr)) :
    Ordered rank held (unsubAllLoop o a entries) held := by
  induction entries with
  | nil => exact .pure _
  | cons e entries ih =>
      exact (Ordered.on_state _).bind fun _ =>
        (topic_del_subscriber_ordered (by simp) _).bind fun _ =>
          (Ordered.on_state _).bind fun _ => ih

/-- `client__unsub_all` takes the lock of the tree after the mutex of the client. -/
theorem client_unsub_all_ordered (h : lock = true → Below 1 held) (client : Option Addr) :
    Ordered rank held (clientUnsubAll o client lock) held := by
  unfold clientUnsubAll
  split
  · exact .pure _
  · refine (Ordered.on_state _).bind fun subs => (Ordered.on_state _).bind fun attached => ?_
    split_ifs
    · exact .pure _
    · exact (Ordered.lock_if _ h).bind fun _ =>
        (Ordered.lock_if _ fun hlock => ((h hlock).mono (by decide)).with (by simp [rank])).bind
          fun _ =>
            (unsub_all_loop_ordered _ _).bind fun _ => (Ordered.unlock_if _ _).bind fun _ =>
              Ordered.unlock_if _ _

theorem client_free_ordered (a : Addr) : Ordered rank held (clientFree o a) held := by
  unfold clientFree
  refine (Ordered.on_state _).bind fun subs => ?_
  split_ifs
  · exact (client_unsub_all_ordered (by simp) _).bind fun _ => Ordered.on_state _
  · exact Ordered.on_state _

theorem client_destroy_ordered (h : Below 1 held) (client : Option Addr) :
    Ordered rank held (clientDestroy o client) held := by
  unfold clientDestroy
  split
  · exact .pure _
  · refine (client_unsub_all_ordered (fun _ => h) _).bind fun _ =>
      (lock_ordered _ h (by simp [rank])).bind fun _ => (Ordered.on_state _).bind fun s =>
        (Ordered.on_state _).bind fun _ => (Ordered.unlock _).bind fun _ => ?_
    split_ifs
    · exact .pure _
    · exact (client_free_ordered _).bind fun _ => .pure _

/-- `broker__deliver_msg` sends while it holds the table of clients. -/
theorem broker_deliver_msg_ordered (source : Option Addr) (sub : Option Subscriber)
    (frame : Frame) : Ordered rank [] (brokerDeliverMsg o source sub frame) [] := by
  have hunlock : ∀ s : Status, Ordered rank [Lock.cliRw]
      (do unlock Lock.cliRw; pure s : Function Status) [] := fun s =>
    (Ordered.unlock _).bind fun _ => .pure _
  have hsend : Below 1 [Lock.cliRw] := by simp [Below, rank]
  unfold brokerDeliverMsg
  split
  · exact .pure _
  · refine (Ordered.on_state _).bind fun attached => ?_
    cases attached with
    | false => exact .pure _
    | true =>
        refine (Ordered.pure _).bind fun r => ?_
        obtain ⟨s, frame⟩ := r
        dsimp only [Bool.not_true]
        by_cases hs : s ≠ .ok
        · rw [if_pos hs]
          exact .pure _
        · rw [if_neg hs]
          refine (lock_ordered (n := 0) _ (by simp [Below]) (by simp)).bind fun _ =>
            (Ordered.on_state _).bind fun target => ?_
          cases target with
          | none => exact hunlock _
          | some target =>
              dsimp only
              by_cases htarget : some target = sub.map (·.client)
              · rw [if_pos htarget]
                refine (Ordered.on_state _).bind fun addr => ?_
                split_ifs
                · exact hunlock _
                · refine (Ordered.pure _).bind fun r => ?_
                  obtain ⟨s, frame⟩ := r
                  dsimp only
                  split_ifs
                  · exact hunlock _
                  · exact (client_send_ordered (fun _ => hsend) _ _).bind fun _ => hunlock _
              · rw [if_neg htarget]
                exact hunlock _

theorem broker_destroy_client_ordered (a : Addr) (lock : Bool) :
    Ordered rank [] (brokerDestroyClient o a lock) [] := by
  unfold brokerDestroyClient
  exact (Ordered.lock_if _ (by simp)).bind fun _ => (Ordered.on_state _).bind fun id =>
    (Ordered.on_state _).bind fun _ => (Ordered.unlock_if _ _).bind fun _ =>
      (client_destroy_ordered (by simp [Below]) _).bind fun _ => .pure _

/-- The call is none of `client__write` with a frame that cannot be copied. -/
def Copies (o : Outcomes) : Call → Prop
  | .write _ frame => (o.copy frame).1 = .ok
  | _ => True

/-- Every call takes locks in their order and gives them back. -/
theorem call_ordered {call : Call} (hcall : Copies o call) :
    Ordered rank [] (procedure o call) [] := by
  have hnone : ∀ {n}, Below n [] := by simp [Below]
  have hignore : ∀ {β : Type} {p : Function β}, Ordered rank [] p [] →
      Ordered rank [] (ignore p) [] := fun h => h.bind fun _ => .pure _
  cases call with
  | addSubscriber tree sub lock => exact hignore (topic_add_subscriber_ordered (fun _ => hnone) _ _)
  | delSubscriber sub lock => exact hignore (topic_del_subscriber_ordered (fun _ => hnone) _)
  | treeFindSubscribers tree topic lock =>
      exact hignore (topic_tree_find_subscribers_ordered (fun _ => hnone) _ _)
  | recv client lock => exact hignore (client_recv_ordered (fun _ => hnone) _)
  | send client frame lock => exact hignore (client_send_ordered (fun _ => hnone) _ _)
  | write client frame => exact hignore (client_write_ordered hnone hcall _)
  | sub0 client sub lock => exact hignore (client_sub0_ordered (fun _ => hnone) _ _)
  | unsub0 client topic subTag lock =>
      exact hignore (client_unsub0_ordered (fun _ => hnone) _ _ _)
  | unsubAll client lock => exact client_unsub_all_ordered (fun _ => hnone) _
  | deliverMsg source sub frame => exact hignore (broker_deliver_msg_ordered _ _ _)
  | destroyClient client lock => exact hignore (broker_destroy_client_ordered _ _)

end Order

section Threads

variable {τ : Type} [DecidableEq τ]

/-- The procedures that threads can call, whatever the calls inside come to. -/
def Called (p : Function Unit) : Prop := ∃ o call, Copies o call ∧ p = procedure o call

/-- Any number of threads that call the functions, each as often and in whatever order it likes, is
never deadlocked: while a thread is in a call, some thread in a call can take a turn, unless what it
is about to do is undefined. A thread between two calls holds no lock. -/
theorem calls_never_deadlock {w : Locking.World} {c : CLib.Threads τ Lock Locking.World}
    (h : Threads.Reaches Called (Threads.start w) c) :
    (∀ t, c.running t = none → c.held t = []) ∧
      ∀ {t p}, c.running t = some p → ∃ u p', c.running u = some p' ∧
        ((∃ c', Threads.Turn Called c u c') ∨ c.Undefined u) := by
  refine Threads.no_deadlock rank_le (fun p hp => ?_) h
  obtain ⟨o, call, hcall, rfl⟩ := hp
  exact call_ordered hcall

/-- A thread in the middle of `client__send`. -/
theorem sending_never_deadlocks : ∃ (c : CLib.Threads Nat Lock Locking.World) (p : Function Unit),
    c.running 0 = some p ∧ ∃ u p', c.running u = some p' ∧
      ((∃ c', Threads.Turn Called c u c') ∨ c.Undefined u) := by
  have hreach : Threads.Reaches Called (Threads.start oneClient)
      ((Threads.start oneClient : CLib.Threads Nat Lock Locking.World).set oneClient 0 []
        (some (procedure goodOutcomes (.send (some 0) Frame.new true)))) :=
    .single ⟨0, .begins rfl ⟨goodOutcomes, .send (some 0) Frame.new true, trivial, rfl⟩⟩
  have hrun : ((Threads.start oneClient : CLib.Threads Nat Lock Locking.World).set oneClient 0 []
      (some (procedure goodOutcomes (.send (some 0) Frame.new true)))).running 0 =
        some (procedure goodOutcomes (.send (some 0) Frame.new true)) := rfl
  exact ⟨_, _, hrun, (calls_never_deadlock hreach).2 hrun⟩

/-- After `client__write` could not copy its frame, sending to the client waits for ever. -/
theorem write_deadlocks : ∃ c : CLib.Threads Nat Lock Locking.World,
    Threads.Reaches (fun p => ∃ o call, p = procedure o call) (Threads.start oneClient) c ∧
      (c.running 1).isSome ∧ ∀ t, (c.running t).isSome → c.Waiting t := by
  refine ⟨_, ((((((((((Relation.ReflTransGen.refl.tail
    ⟨0, .begins rfl ⟨goodOutcomes, .write (some 0) Frame.new, rfl⟩⟩).tail
    ⟨0, .acquires rfl ?_⟩).tail ⟨0, .accesses rfl rfl⟩).tail ⟨0, .releases rfl⟩).tail
    ⟨0, .acquires rfl ?_⟩).tail ⟨0, .ends rfl⟩).tail
    ⟨1, .begins rfl ⟨goodOutcomes, .send (some 0) Frame.new true, rfl⟩⟩).tail
    ⟨1, .acquires rfl ?_⟩).tail ⟨1, .accesses rfl rfl⟩).tail ⟨1, .releases rfl⟩), rfl, ?_⟩
  · intro t ht
    by_cases ht1 : t = 1
    · subst ht1
      refine ⟨.clientMutex 0, .exclusive, _, rfl, fun hfree => ?_⟩
      have hmode := (hfree 0 .exclusive (by
        simp [Threads.set, Threads.start, Threads.drop])).2.1
      cases hmode
    · -- the first thread is not in a call any more, and there is no other
      by_cases ht0 : t = 0 <;>
        simp [Threads.set, Threads.start, ht0, ht1] at ht
  all_goals simp [Threads.Free, Threads.set, Threads.start, Threads.drop, Function.update_apply]

end Threads

end Bpsp.LockOrder
