import Bpsp.Java.Frame

/-!
# The Java client and its replies

`com/core/client/BPSPClient.java`, with `Publisher`, `Subscriber` and `Handler`. A reply carries no
number of the request it answers: `deliveryReply` hands it to the handler that has waited longest in
`pendingReply`. The caller's thread puts a handler there only after `sendFrame`, so the main loop can
have the reply before the handler waits for it. `replies_matched_iff` says that this is the only way
in which a reply is lost or goes to the wrong handler.
-/

namespace Bpsp.Java

open CLib JLib

/-- A reference to a `Handler` object. -/
inductive Handler where
  | publisher (p : Nat)
  | subscriber (s : Nat)
  deriving DecidableEq

/-- The fields of the handler objects that do not change. -/
structure Objects where
  topicOf : Nat → JString
  subTopicOf : Nat → JString
  subTagOf : Nat → JString

/-- `BPSPClient`, with the field `running` of the handlers. -/
structure Client where
  pendingReply : List Handler
  subs : HashTable JString Nat
  running : Handler → Bool

/-- A client that has called nothing. -/
def Client.init : Client := ⟨[], [], fun _ => false⟩

/-- `Subscriber.getIdentifier`. -/
def getIdentifier (topic subTag : JString) : JString := topic ++ [47] ++ subTag

/-- The identifier of a `Subscriber`. -/
def Objects.identifier (objects : Objects) (s : Nat) : JString :=
  getIdentifier (objects.subTopicOf s) (objects.subTagOf s)

/-- A call of a method of `BPSPClient`. -/
inductive Call where
  | pub (p : Nat)
  | sub (s : Nat)
  | unsub (s : Nat)
  deriving DecidableEq

/-- The handler of the request that a call makes. -/
def Call.handler : Call → Handler
  | .pub p => .publisher p
  | .sub s => .subscriber s
  | .unsub s => .subscriber s

/-- What a method does before it sends: it throws, it returns without a request, or it sends one. -/
inductive Prepared where
  | throws
  | returns
  | sends
  deriving DecidableEq

/-- The first part of `pub`, `sub` and `unsub`. -/
def Client.prepare (objects : Objects) (client : Client) : Call → Prepared
  | .pub p => if objects.topicOf p = [] then .throws else .sends
  | .sub s =>
      match client.subs.find (objects.identifier s) with
      | some _ => .throws
      | none => if objects.subTopicOf s = [] then .throws else .sends
  | .unsub s =>
      match client.subs.find (objects.identifier s) with
      | none => .returns
      | some _ => if objects.subTopicOf s = [] then .throws else .sends

/-- `enqueuePendingReply`. -/
def Client.enqueuePendingReply (client : Client) (handler : Handler) : Client :=
  { client with pendingReply := client.pendingReply ++ [handler] }

/-- The last part of `sub` and `unsub`: the map of subscriptions. -/
def Client.recordSub (objects : Objects) (client : Client) : Call → Client
  | .pub _ => client
  | .sub s => { client with subs := HashMap.put client.subs (objects.identifier s) s }
  | .unsub s => { client with subs := client.subs.del (objects.identifier s) }

/-- Assigns to `running` of a handler. -/
def Client.setRunning (client : Client) (handler : Handler) (value : Bool) : Client :=
  { client with running := fun h => if h = handler then value else client.running h }

/-- `Publisher.replyOk` and `Subscriber.replyOk`. -/
def Client.replyOk (client : Client) : Handler → Client
  | .publisher p => client.setRunning (.publisher p) true
  | .subscriber s => client.setRunning (.subscriber s) (!client.running (.subscriber s))

/-- `Publisher.replyError` and `Subscriber.replyError`. -/
def Client.replyError (client : Client) (handler : Handler) : Client :=
  client.setRunning handler false

/-- `deliveryReply`, with the handler that got the reply. -/
def Client.deliveryReply (client : Client) (reply : Frame) : Client × Option Handler :=
  match client.pendingReply with
  | [] => (client, none)
  | handler :: rest =>
      let client := { client with pendingReply := rest }
      (if reply.opcode = Operation.ok.getCode then client.replyOk handler
        else client.replyError handler, some handler)

/-- `deliveryMsg`: the subscriber that is given the message. -/
def Client.deliveryMsg (client : Client) (msg : Frame) : Option Nat :=
  let topic := match msg.getVarHeader (ascii Bpsp.Frame.xTopic.bytes) with
    | some topicHdr => topicHdr.value
    | none => []
  let subTag := match msg.getVarHeader (ascii Bpsp.Frame.xSubTag.bytes) with
    | some subTagHdr => subTagHdr.value
    | none => ascii (CStr.ofString "_0").bytes
  client.subs.find (getIdentifier topic subTag)

/-- The frame is an OK or an ERR. -/
def isReply (frame : Frame) : Bool :=
  frame.opcode = Operation.ok.getCode || frame.opcode = Operation.err.getCode

/-- What became of a frame. -/
inductive Processed where
  | reply (handler : Option Handler)
  | message (subscriber : Option Nat)
  | unhandled

/-- `processFrame`. -/
def Client.processFrame (client : Client) (frame : Frame) : Client × Processed :=
  if isReply frame then
    ((client.deliveryReply frame).1, .reply (client.deliveryReply frame).2)
  else if frame.opcode = Operation.msg.getCode then (client, .message (client.deliveryMsg frame))
  else (client, .unhandled)

/-- Where the caller's thread is: outside of a call, between `sendFrame` and `enqueuePendingReply`, or
after that. -/
inductive Caller where
  | idle
  | sent (c : Call)
  | enqueued (c : Call)
  deriving DecidableEq

/-- A request on its way to the broker; the number is not part of the frame. -/
structure Request where
  number : Nat
  call : Call

/-- A frame on its way to the client, with the number of the request that it answers. -/
structure Incoming where
  frame : Frame
  answers : Option Nat

/-- The client with its two threads and the frames under way. `sent` has the handlers of all requests
so far, and `log` what became of the replies: the request and the handler it was handed to. -/
structure System where
  client : Client
  caller : Caller
  toBroker : List Request
  toClient : List Incoming
  recvFrame : Option Incoming
  sent : List Handler
  log : List (Nat × Option Handler)

/-- The system before the first call. -/
def System.init : System := ⟨.init, .idle, [], [], none, [], []⟩

/-- A step: of the caller's thread (a call up to `sendFrame`, which may throw, and the two steps after
it), of the broker (an answer to the oldest request, or another frame), or of the main loop. -/
inductive Action where
  | call (c : Call) (sends : Bool)
  | enqueue
  | record
  | answer (frame : Frame)
  | push (frame : Frame)
  | receive
  | process

/-- A handler that is not yet in `pendingReply` although its request was sent. -/
def Caller.handlers : Caller → List Handler
  | .sent c => [c.handler]
  | _ => []

section Steps

variable (objects : Objects)

/-- The call up to `sendFrame`. -/
def System.call (st : System) (c : Call) (sends : Bool) : System :=
  match st.client.prepare objects c with
  | .sends =>
      if sends then
        { st with
          caller := .sent c
          toBroker := st.toBroker ++ [⟨st.sent.length, c⟩]
          sent := st.sent ++ [c.handler] }
      else st
  | _ => st

/-- `processFrame` of the frame that was received. -/
def System.process (st : System) (x : Incoming) : System :=
  let (client, done) := st.client.processFrame x.frame
  { st with
    client := client
    recvFrame := none
    log := match x.answers, done with
      | some n, .reply handler => st.log ++ [(n, handler)]
      | _, _ => st.log }

/-- One step, when it can be taken. -/
def System.step (st : System) : Action → Option System
  | .call c sends =>
      match st.caller with
      | .idle => some (st.call objects c sends)
      | _ => none
  | .enqueue =>
      match st.caller with
      | .sent c => some { st with
          client := st.client.enqueuePendingReply c.handler, caller := .enqueued c }
      | _ => none
  | .record =>
      match st.caller with
      | .enqueued c => some { st with client := st.client.recordSub objects c, caller := .idle }
      | _ => none
  | .answer frame =>
      match st.toBroker with
      | request :: rest =>
          if isReply frame then
            some { st with
              toBroker := rest, toClient := st.toClient ++ [⟨frame, some request.number⟩] }
          else none
      | [] => none
  | .push frame =>
      if isReply frame then none
      else some { st with toClient := st.toClient ++ [⟨frame, none⟩] }
  | .receive =>
      match st.recvFrame, st.toClient with
      | none, x :: rest => some { st with recvFrame := some x, toClient := rest }
      | _, _ => none
  | .process =>
      match st.recvFrame with
      | some x => some (st.process x)
      | none => none

/-- Takes steps one after another. -/
def System.run (st : System) : List Action → Option System
  | [] => some st
  | a :: rest => (st.step objects a).bind fun st => st.run rest

/-- A reply is not processed while its handler is about to be put into an empty `pendingReply`. -/
def timely (st : System) : Action → Bool
  | .process =>
      match st.recvFrame, st.caller with
      | some x, .sent _ => !isReply x.frame || !st.client.pendingReply.isEmpty
      | _, _ => true
  | _ => true

/-- Every step is timely. -/
def timelyRun (st : System) : List Action → Bool
  | [] => true
  | a :: rest => timely st a &&
      match st.step objects a with
      | some st => timelyRun st rest
      | none => true

end Steps

/-- Every reply that was processed was handed to the handler whose request it answers. -/
def Matched (st : System) : Prop :=
  ∀ n handler, (n, handler) ∈ st.log → ∃ h, st.sent[n]? = some h ∧ handler = some h

/-- The frames that the client has not processed, in order. -/
def System.arriving (st : System) : List Incoming := st.recvFrame.toList ++ st.toClient

/-- What holds while every reply was matched: the replies under way and the requests at the broker
are the requests after those that were answered, in order, and so are the handlers that wait. -/
structure InStep (st : System) : Prop where
  tagged : ∀ x ∈ st.arriving, x.answers.isSome = isReply x.frame
  answered : st.log.length ≤ st.sent.length
  order : st.arriving.filterMap Incoming.answers ++ st.toBroker.map Request.number =
    (List.range st.sent.length).drop st.log.length
  waiting : st.client.pendingReply ++ st.caller.handlers = st.sent.drop st.log.length
  log : ∀ (i : Nat) e, st.log[i]? = some e → e = (i, st.sent[i]?)

/-- What a step does, case by case. -/
inductive Step (objects : Objects) (st : System) : Action → System → Prop where
  | call (c : Call) (sends : Bool) (h : st.caller = .idle) :
      Step objects st (.call c sends) (st.call objects c sends)
  | enqueue (c : Call) (h : st.caller = .sent c) :
      Step objects st .enqueue
        { st with client := st.client.enqueuePendingReply c.handler, caller := .enqueued c }
  | record (c : Call) (h : st.caller = .enqueued c) :
      Step objects st .record { st with client := st.client.recordSub objects c, caller := .idle }
  | answer (frame : Frame) (request : Request) (rest : List Request)
      (h : st.toBroker = request :: rest) (hreply : isReply frame = true) :
      Step objects st (.answer frame) { st with
        toBroker := rest, toClient := st.toClient ++ [⟨frame, some request.number⟩] }
  | push (frame : Frame) (hreply : isReply frame = false) :
      Step objects st (.push frame) { st with toClient := st.toClient ++ [⟨frame, none⟩] }
  | receive (x : Incoming) (rest : List Incoming) (hnone : st.recvFrame = none)
      (h : st.toClient = x :: rest) :
      Step objects st .receive { st with recvFrame := some x, toClient := rest }
  | process (x : Incoming) (h : st.recvFrame = some x) : Step objects st .process (st.process x)

section Runs

variable {objects : Objects} {st st' : System}

theorem step_cases {a : Action} (hstep : st.step objects a = some st') : Step objects st a st' := by
  cases a with
  | call c sends =>
      simp only [System.step] at hstep
      split at hstep
      next h =>
        cases hstep
        exact .call c sends h
      next => cases hstep
  | enqueue =>
      simp only [System.step] at hstep
      split at hstep
      next c h =>
        cases hstep
        exact .enqueue c h
      next => cases hstep
  | record =>
      simp only [System.step] at hstep
      split at hstep
      next c h =>
        cases hstep
        exact .record c h
      next => cases hstep
  | answer frame =>
      simp only [System.step] at hstep
      split at hstep
      next request rest h =>
        split_ifs at hstep with hreply
        cases hstep
        exact .answer frame request rest h hreply
      next => cases hstep
  | push frame =>
      simp only [System.step] at hstep
      split_ifs at hstep with hreply
      cases hstep
      exact .push frame (Bool.eq_false_iff.mpr hreply)
  | receive =>
      simp only [System.step] at hstep
      split at hstep
      next x rest hnone h =>
        cases hstep
        exact .receive x rest hnone h
      next => cases hstep
  | process =>
      simp only [System.step] at hstep
      split at hstep
      next x h =>
        cases hstep
        exact .process x h
      next => cases hstep

/-- The one step that is not timely. -/
theorem timely_eq_false_iff {a : Action} : timely st a = false ↔ a = .process ∧
    ∃ x c, st.recvFrame = some x ∧ st.caller = .sent c ∧ isReply x.frame = true ∧
      st.client.pendingReply = [] := by
  cases a with
  | process =>
      unfold timely
      cases hx : st.recvFrame with
      | none => simp
      | some x => cases hc : st.caller <;> simp
  | _ => simp [timely]

theorem InStep.init : InStep .init :=
  ⟨by simp [System.init, System.arriving], Nat.le_refl _, rfl, rfl, by simp [System.init]⟩

theorem InStep.matched (h : InStep st) : Matched st := by
  intro n handler hmem
  obtain ⟨i, hi⟩ := List.mem_iff_getElem?.mp hmem
  obtain ⟨rfl, rfl⟩ := Prod.mk.inj (h.log i _ hi)
  obtain ⟨hlt, -⟩ := List.getElem?_eq_some_iff.mp hi
  have hsent : n < st.sent.length := Nat.lt_of_lt_of_le hlt h.answered
  exact ⟨_, List.getElem?_eq_getElem hsent, List.getElem?_eq_getElem hsent⟩

/-- Sending a request puts it last everywhere. -/
theorem InStep.call (h : InStep st) (hidle : st.caller = .idle) (c : Call) (sends : Bool) :
    InStep (st.call objects c sends) := by
  unfold System.call
  split
  · split_ifs
    · obtain ⟨htagged, hanswered, horder, hwaiting, hlog⟩ := h
      rw [hidle, show Caller.idle.handlers = [] from rfl, List.append_nil] at hwaiting
      refine ⟨htagged, ?_, ?_, ?_, fun i e hi => ?_⟩
      · show st.log.length ≤ (st.sent ++ [c.handler]).length
        rw [List.length_append]
        omega
      · rw [List.length_append, List.length_singleton, List.range_succ, List.map_append,
          ← List.append_assoc, List.drop_append_of_le_length (by rw [List.length_range]; exact hanswered)]
        exact congrArg (· ++ [st.sent.length]) horder
      · rw [List.drop_append_of_le_length hanswered, ← hwaiting]
        rfl
      · obtain ⟨hlt, -⟩ := List.getElem?_eq_some_iff.mp hi
        rw [hlog i e hi, List.getElem?_append_left (Nat.lt_of_lt_of_le hlt hanswered)]
    · exact h
  · exact h

theorem process_reply {x : Incoming} {n : Nat} (hn : x.answers = some n)
    (hreply : isReply x.frame = true) : st.process x = { st with
      client := (st.client.deliveryReply x.frame).1
      recvFrame := none
      log := st.log ++ [(n, (st.client.deliveryReply x.frame).2)] } := by
  simp [System.process, Client.processFrame, hn, hreply]

theorem process_other {x : Incoming} (hreply : isReply x.frame = false) :
    st.process x = { st with recvFrame := none } := by
  unfold System.process Client.processFrame
  rw [hreply, if_neg (by decide)]
  split_ifs <;> cases x.answers <;> rfl

/-- A reply that is processed in time is handed to the handler of the oldest request. -/
theorem InStep.process (h : InStep st) {x : Incoming} (hx : st.recvFrame = some x)
    (htimely : timely st .process = true) : InStep (st.process x) := by
  obtain ⟨htagged, hanswered, horder, hwaiting, hlog⟩ := h
  have harriving : st.arriving = x :: st.toClient := by
    unfold System.arriving
    rw [hx]
    rfl
  rw [harriving] at htagged horder
  have htag := htagged x List.mem_cons_self
  have hrest : ∀ y ∈ st.toClient, y.answers.isSome = isReply y.frame :=
    fun y hy => htagged y (List.mem_cons_of_mem _ hy)
  cases hn : x.answers with
  | none =>
      rw [hn] at htag
      rw [List.filterMap_cons_none hn] at horder
      rw [process_other htag.symm]
      exact ⟨hrest, hanswered, horder, hwaiting, hlog⟩
  | some n =>
      rw [hn] at htag
      rw [List.filterMap_cons_some hn, List.cons_append] at horder
      have hlt : st.log.length < st.sent.length := by
        by_contra hle
        rw [List.drop_eq_nil_of_le (by rw [List.length_range]; omega)] at horder
        cases horder
      rw [List.drop_eq_getElem_cons (by rwa [List.length_range])] at horder
      obtain ⟨hnumber, horder⟩ := List.cons.inj horder
      rw [List.getElem_range] at hnumber
      rw [List.drop_eq_getElem_cons hlt] at hwaiting
      cases hpending : st.client.pendingReply with
      | nil =>
          -- the oldest request is the one of the caller
          rw [hpending] at hwaiting
          cases hcaller : st.caller with
          | sent c =>
              have hnot := timely_eq_false_iff.mpr ⟨rfl, x, c, hx, hcaller, htag.symm, hpending⟩
              rw [htimely] at hnot
              cases hnot
          | idle =>
              rw [hcaller] at hwaiting
              cases hwaiting
          | enqueued c =>
              rw [hcaller] at hwaiting
              cases hwaiting
      | cons handler pending =>
          rw [hpending, List.cons_append] at hwaiting
          obtain ⟨hhandler, hwaiting⟩ := List.cons.inj hwaiting
          rw [process_reply hn htag.symm]
          unfold Client.deliveryReply
          rw [hpending]
          refine ⟨hrest, ?_, ?_, ?_, fun i e hi => ?_⟩
          · simp only [List.length_append, List.length_singleton]
            exact hlt
          · simp only [List.length_append, List.length_singleton]
            exact horder
          · simp only [List.length_append, List.length_singleton, ← hwaiting]
            split_ifs
            · cases handler <;> rfl
            · rfl
          · rcases Nat.lt_trichotomy i st.log.length with hi' | rfl | hi'
            · exact hlog i e (by rwa [List.getElem?_append_left hi'] at hi)
            · rw [List.getElem?_concat_length] at hi
              rw [← Option.some.inj hi, hnumber, List.getElem?_eq_getElem hlt, hhandler]
            · rw [List.getElem?_eq_none (by simp; omega)] at hi
              cases hi

theorem tagged_append {xs ys : List Incoming} {frame : Frame} {n : Option Nat}
    (h : ∀ x ∈ xs, x.answers.isSome = isReply x.frame) (hys : ys = xs ++ [⟨frame, n⟩])
    (hn : n.isSome = isReply frame) : ∀ x ∈ ys, x.answers.isSome = isReply x.frame := by
  intro x hx
  rw [hys, List.mem_append, List.mem_singleton] at hx
  rcases hx with hx | rfl
  · exact h x hx
  · exact hn

/-- A timely step keeps the replies in step with the handlers. -/
theorem InStep.step (h : InStep st) {a : Action} (htimely : timely st a = true)
    (hstep : st.step objects a = some st') : InStep st' := by
  cases step_cases hstep with
  | call c sends hidle => exact h.call hidle c sends
  | enqueue c hcaller =>
      refine ⟨h.tagged, h.answered, h.order, ?_, h.log⟩
      rw [← h.waiting, hcaller]
      simp [Client.enqueuePendingReply, Caller.handlers]
  | record c hcaller =>
      refine ⟨h.tagged, h.answered, h.order, ?_, h.log⟩
      rw [← h.waiting, hcaller]
      cases c <;> rfl
  | answer frame request rest hbroker hreply =>
      have horder := h.order
      rw [hbroker, List.map_cons] at horder
      have harriving : System.arriving { st with
          toBroker := rest, toClient := st.toClient ++ [⟨frame, some request.number⟩] } =
          st.arriving ++ [⟨frame, some request.number⟩] := (List.append_assoc _ _ _).symm
      refine ⟨tagged_append h.tagged harriving hreply.symm, h.answered, ?_, h.waiting, h.log⟩
      rw [harriving, List.filterMap_append, List.append_assoc]
      exact horder
  | push frame hreply =>
      have harriving : System.arriving { st with toClient := st.toClient ++ [⟨frame, none⟩] } =
          st.arriving ++ [⟨frame, none⟩] := (List.append_assoc _ _ _).symm
      refine ⟨tagged_append h.tagged harriving hreply.symm, h.answered, ?_, h.waiting, h.log⟩
      rw [harriving, List.filterMap_append]
      exact (congrArg (· ++ _) (List.append_nil _)).trans h.order
  | receive x rest hnone hclient =>
      have hsame : System.arriving { st with recvFrame := some x, toClient := rest } =
          st.arriving := by
        unfold System.arriving
        rw [hnone, hclient]
        rfl
      exact ⟨hsame ▸ h.tagged, h.answered, hsame ▸ h.order, h.waiting, h.log⟩
  | process x hx => exact h.process hx htimely

/-- What became of a reply is not forgotten. -/
theorem log_kept {a : Action} (hstep : st.step objects a = some st') : st.log <+: st'.log := by
  cases step_cases hstep with
  | call c sends hidle =>
      unfold System.call
      split
      · split_ifs <;> exact List.prefix_refl _
      · exact List.prefix_refl _
  | process x hx =>
      unfold System.process
      dsimp only
      split
      · exact List.prefix_append _ _
      · exact List.prefix_refl _
  | _ => exact List.prefix_refl _

theorem run_log_kept (acts : List Action) : ∀ {st : System}, st.run objects acts = some st' →
    st.log <+: st'.log := by
  induction acts with
  | nil =>
      intro st hrun
      rw [Option.some.inj hrun]
  | cons a rest ih =>
      intro st hrun
      obtain ⟨mid, hstep, hrest⟩ := Option.bind_eq_some_iff.mp hrun
      exact (log_kept hstep).trans (ih hrest)

/-- A step that is not timely drops a reply. -/
theorem untimely_drops (h : InStep st) {a : Action} (hstep : st.step objects a = some st')
    (hnot : timely st a = false) : ∃ n, (n, none) ∈ st'.log := by
  obtain ⟨rfl, x, c, hx, -, hreply, hpending⟩ := timely_eq_false_iff.mp hnot
  simp only [System.step, hx] at hstep
  have htag := h.tagged x (by simp [System.arriving, hx])
  rw [hreply] at htag
  obtain ⟨n, hn⟩ := Option.isSome_iff_exists.mp htag
  refine ⟨n, ?_⟩
  rw [← Option.some.inj hstep, process_reply hn hreply]
  simp [Client.deliveryReply, hpending]

/-- From a state in step, the replies of a run are matched exactly when the run is timely. -/
theorem InStep.run_matched_iff (acts : List Action) : ∀ {st : System}, InStep st →
    st.run objects acts = some st' → (Matched st' ↔ timelyRun objects st acts = true) := by
  induction acts with
  | nil =>
      intro st h hrun
      rw [← Option.some.inj hrun]
      exact iff_of_true h.matched rfl
  | cons a rest ih =>
      intro st h hrun
      obtain ⟨mid, hstep, hrest⟩ := Option.bind_eq_some_iff.mp hrun
      unfold timelyRun
      rw [hstep, Bool.and_eq_true]
      cases htimely : timely st a with
      | true => rw [ih (h.step htimely hstep) hrest, eq_self, true_and]
      | false =>
          refine iff_of_false (fun hmatched => ?_) fun hall => Bool.noConfusion hall.1
          obtain ⟨n, hdropped⟩ := untimely_drops h hstep htimely
          obtain ⟨handler, -, hnone⟩ := hmatched n none ((run_log_kept rest hrest).subset hdropped)
          cases hnone

end Runs

/-- In every run of the client, for every order of the steps of its threads and the broker: each
reply is handed to the handler whose request it answers, and none is dropped, exactly when no reply
is processed while its handler is about to be put into an empty `pendingReply`. -/
theorem replies_matched_iff {objects : Objects} {acts : List Action} {st : System}
    (hrun : System.init.run objects acts = some st) :
    Matched st ↔ timelyRun objects .init acts = true :=
  InStep.init.run_matched_iff acts hrun

/-- Handlers for the topic `a`. -/
def someObjects : Objects := ⟨fun _ => [97], fun _ => [97], fun s => [95, s.toUInt16]⟩

/-- An OK frame. -/
def okFrame : Frame := ⟨0, Operation.ok.getCode, 0, 0, [], .empty, true⟩

/-- A reply that comes after its handler was enqueued is handed to it. -/
theorem replies_matched_late : ∃ st, System.init.run someObjects
      [.call (.pub 0) true, .answer okFrame, .receive, .enqueue, .process, .record] = some st ∧
    st.log = [(0, some (.publisher 0))] ∧ Matched st := by
  have hmatched : ∀ {st}, System.init.run someObjects
      [.call (.pub 0) true, .answer okFrame, .receive, .enqueue, .process, .record] = some st →
      Matched st := by
    intro st hrun
    exact (replies_matched_iff hrun).mpr (by decide)
  exact ⟨_, rfl, rfl, hmatched rfl⟩

/-- A reply that is processed before its handler was enqueued is dropped, and the next one goes to
the handler of the first request. -/
theorem replies_matched_fails : ∃ st, System.init.run someObjects
      [.call (.pub 0) true, .answer okFrame, .receive, .process, .enqueue, .record,
        .call (.pub 1) true, .enqueue, .answer okFrame, .receive, .process] = some st ∧
    st.log = [(0, none), (1, some (.publisher 0))] ∧ ¬ Matched st := by
  refine ⟨_, rfl, rfl, fun h => ?_⟩
  obtain ⟨handler, -, hnone⟩ := h 0 none List.mem_cons_self
  cases hnone

end Bpsp.Java
