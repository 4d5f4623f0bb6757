import Bpsp.CLib.Logged
import Bpsp.Frame.Recv
import Bpsp.Net.Transfer
import Bpsp.Server.Reply

/-!
# The trace of opcodes

`client__recv` and `client__send` print the text of the opcode of every frame that went through, from
the table of `lib/frame_op.c`. The functions here are those of `lib/client.c`, `lib/broker.c` and
`server/handle.c` with the opcodes that they look up, and `handle_in_frame_result` takes the log off
again. The frames that the broker makes have opcodes of the table, but a request keeps the byte it came
with, and any byte but 0 is let through (`in_bounds_iff`).
-/

namespace Bpsp

open CLib Topic

/-- `op_text`. -/
def opText : List String :=
  ["NO OP", "INFO", "CONNECT", "PUB", "SUB", "UNSUB", "MSG", "OK", "ERR"]

/-- `frame__get_op_text`. Reading beyond the table is undefined. -/
def getOpText (op : Byte) : Exec String := opText[op.toNat]?

theorem get_op_text_isSome (op : Byte) : (getOpText op).isSome ↔ op.toNat < opText.length := by
  rw [getOpText, Option.isSome_iff_ne_none, Ne, List.getElem?_eq_none_iff, Nat.not_le]

namespace Traced

/-- `client__recv` with the lock, where `closed` is what `client__is_close` returns. `frame__recv`
empties the frame first. -/
def clientRecv (big : Bool) (kernel : Net.Kernel) (now : Timestamp) (closed : Bool)
    (conn : Net.Conn) (frame : Frame) : Logged Byte (Status × Frame × Net.Conn) :=
  if closed then pure (.connectionClosed, frame, conn)
  else do
    let (s, frame, conn) ← .silent (Frame.recv big kernel now conn)
    if s ≠ .ok then pure (s, frame, conn)
    else do
      .emit frame.opcode
      pure (s, frame, conn)

/-- `client__send`. -/
def clientSend (env : Env) (a : Addr) (frame : Frame) (sent : Sent) :
    Logged Byte (Status × Sent) := do
  let (s, sent) ← .silent (Bpsp.clientSend env a frame sent)
  if s ≠ .ok then pure (s, sent)
  else do
    .emit frame.opcode
    pure (s, sent)

/-- `broker__deliver_msg`. -/
def brokerDeliverMsg (env : Env) (b : Broker) (source : Addr) (sub : Subscriber) (frame : Frame)
    (sent : Sent) : Logged Byte (Status × Frame × Sent) := do
  let (s, frame) ← .silent (frame.setVarHeader Frame.xTopic (some sub.getTopic))
  if s ≠ .ok then pure (s, frame, sent)
  else
    match b.clients.find sub.clientId with
    | none => pure (.ok, frame, sent)
    | some target =>
        if target = sub.client then do
          let sourceClient ← .silent (b.heap.get source)
          let (s, frame) ← .silent (frame.setVarHeader Frame.xFrom (some sourceClient.addr.text))
          if s ≠ .ok then pure (s, frame, sent)
          else do
            let (_, sent) ← clientSend env target frame sent
            pure (.ok, frame, sent)
        else pure (.ok, frame, sent)

/-- `handle__reply`. -/
def handleReply (env : Env) (a : Addr) (req : Frame) (s : Status) (msg : CStr) (sent : Sent) :
    Logged Byte (Status × Sent) :=
  if Frame.flagIsSet req.flag Frame.flAck then do
    let (s, out) ← .silent (replyFrame env.replyTime req s msg)
    if s ≠ .ok then pure (s, sent) else clientSend env a out sent
  else pure (.ok, sent)

/-- `handle__ECHO`. -/
def handleEcho (env : Env) (b : Broker) (a : Addr) (req : Frame) : Logged Byte Outcome := do
  let (s, sent) ← clientSend env a req []
  pure ⟨s, b, sent⟩

/-- `handle__CONNECT`. -/
def handleConnect (env : Env) (b : Broker) (a : Addr) : Logged Byte Outcome := do
  let (s, out) ← .silent (Frame.info env.replyTime (.ofString "1.0.0")
    (.ofString "BPSP - Basic Publish Subscribe Broker"))
  if s ≠ .ok then pure ⟨s, b, []⟩
  else do
    let (s, sent) ← clientSend env a out []
    pure ⟨s, b, sent⟩

/-- The body of the loop of `handle__PUB`. -/
def deliverTo (env : Env) (b : Broker) (a : Addr) (topic : CStr) (p : Subscriber) (frame : Frame)
    (sent : Sent) : Logged Byte (Status × Frame × Sent) := do
  let (s, frame) ← .silent (frame.setVarHeader Frame.xSubTag (some p.subTag))
  if s ≠ .ok then pure (s, frame, sent)
  else do
    let (s, frame) ← .silent (frame.setVarHeader Frame.xOriginTopic (some topic))
    if s ≠ .ok then pure (s, frame, sent) else brokerDeliverMsg env b a p frame sent

/-- The loop of `handle__PUB`. -/
def publishLoop (env : Env) (b : Broker) (a : Addr) (req : Frame) (topic : CStr) :
    List Subscriber → Frame → Sent → Logged Byte Sent
  | [], _, sent => pure sent
  | p :: rest, frame, sent =>
      if leftOut a req p then publishLoop env b a req topic rest frame sent
      else do
        let (_, frame, sent) ← deliverTo env b a topic p frame sent
        publishLoop env b a req topic rest frame sent

/-- The delivery part of `handle__PUB`. -/
def publish (env : Env) (b : Broker) (a : Addr) (req : Frame) (topic : CStr) :
    Option (List Subscriber) → Logged Byte (Status × Sent)
  | none => pure (.ok, [])
  | some [] => pure (.ok, [])
  | some (p :: rest) => do
      let (s, frame) ← .silent (Frame.msg env.msgTime req)
      if s = .ok then do
        let sent ← publishLoop env b a req topic (p :: rest) frame []
        pure (.ok, sent)
      else pure (s, [])

/-- The search of `handle__PUB` and the delivery to what it finds. -/
def publishTo (env : Env) (b : Broker) (a : Addr) (req : Frame) :
    Option CStr → Logged Byte (Status × Sent)
  | none => pure (.ok, [])
  | some topic => do
      let subs ← .silent (treeFindSubscribers b.store topic)
      publish env b a req topic subs

/-- `handle__PUB`. -/
def handlePub (env : Env) (b : Broker) (a : Addr) (req : Frame) : Logged Byte Outcome :=
  match req.getVarHeader Frame.xTopic with
  | none => pure ⟨.invalidTopic, b, []⟩
  | some topic => do
      let (s, sent) ← publishTo env b a req topic
      if s ≠ .ok then pure ⟨s, b, sent⟩
      else do
        let (s, sent) ← handleReply env a req .ok (.ofString "PUB OK.") sent
        pure ⟨s, b, sent⟩

/-- `handle__SUB`. -/
def handleSub (env : Env) (b : Broker) (a : Addr) (req : Frame) : Logged Byte Outcome := do
  let topic := headerValue req Frame.xTopic
  let subTag := headerValue req Frame.xSubTag
  let msg := if subTag.isNone then
      CStr.ofString "SUB OK. WARNING: You need specify sub_tag, default to `_0`."
    else .ofString "SUB OK."
  match topic with
  | some topic => do
      let client ← .silent (b.heap.get a)
      let (b, p) := b.allocSub (subscriberNew topic subTag a client)
      let (s, b) ← .silent (clientSub0 b a p)
      let msg := if s ≠ .ok then .ofString "Cannot add subsciber into Tree." else msg
      let (s, sent) ← handleReply env a req .ok msg []
      pure ⟨s, b, sent⟩
  | none => do
      let (s, sent) ← handleReply env a req .invalidTopic (.ofString "Missing header `x-topic`.") []
      pure ⟨s, b, sent⟩

/-- `handle__UNSUB`. -/
def handleUnsub (env : Env) (b : Broker) (a : Addr) (req : Frame) : Logged Byte Outcome := do
  let topic := headerValue req Frame.xTopic
  let subTag := headerValue req Frame.xSubTag
  let msg := if subTag.isNone then
      CStr.ofString "UNSUB OK. WARNING: You need specify sub_tag, default to `_0`."
    else .ofString "UNSUB OK."
  match topic with
  | some topic => do
      let (s, b) ← .silent (clientUnsub0 b a topic subTag)
      let msg := if s ≠ .ok then .ofString "Cannot remove subsciber from Tree." else msg
      let (s, sent) ← handleReply env a req s msg []
      pure ⟨s, b, sent⟩
  | none => do
      let (s, sent) ← handleReply env a req .invalidTopic (.ofString "Missing header `x-topic`.") []
      pure ⟨s, b, sent⟩

/-- `handle__in_frame`. -/
def handleInFrame (env : Env) (b : Broker) (a : Addr) (req : Frame) : Logged Byte Outcome :=
  if req.isCompleted = false then pure ⟨.notCompletedFrame, b, []⟩
  else if req.opcode = Frame.opConnect then handleConnect env b a
  else if req.opcode = Frame.opPub then handlePub env b a req
  else if req.opcode = Frame.opSub then handleSub env b a req
  else if req.opcode = Frame.opUnsub then handleUnsub env b a req
  else handleEcho env b a req

/-- A turn of the loop of `handle__client_loop`: `client__read`, and `handle__in_frame` for what was
received. -/
def clientTurn (big : Bool) (kernel : Net.Kernel) (now : Timestamp) (closed : Bool)
    (conn : Net.Conn) (frame : Frame) (env : Env) (b : Broker) (a : Addr) : Logged Byte Outcome := do
  let (s, req, _) ← clientRecv big kernel now closed conn frame
  if s ≠ .ok then pure ⟨s, b, []⟩ else handleInFrame env b a req

section Result

variable {env : Env} {b : Broker} {a : Addr} {req : Frame}

@[simp] theorem client_send_result (a : Addr) (frame : Frame) (sent : Sent) :
    (clientSend env a frame sent).result = Bpsp.clientSend env a frame sent := by
  unfold clientSend
  rw [Logged.result_bind, Logged.result_silent]
  cases h : Bpsp.clientSend env a frame sent with
  | none => rfl
  | some r => simp

@[simp] theorem deliver_msg_result (p : Subscriber) (frame : Frame) (sent : Sent) :
    (brokerDeliverMsg env b a p frame sent).result =
      Bpsp.brokerDeliverMsg env b a p frame sent := by
  unfold brokerDeliverMsg Bpsp.brokerDeliverMsg
  cases b.clients.find p.clientId with
  | none => simp
  | some target => simp

@[simp] theorem deliver_to_result (topic : CStr) (p : Subscriber) (frame : Frame) (sent : Sent) :
    (deliverTo env b a topic p frame sent).result =
      Bpsp.deliverTo env b a topic p frame sent := by
  simp [deliverTo, Bpsp.deliverTo]

@[simp] theorem publish_loop_result (topic : CStr) (subs : List Subscriber) :
    ∀ (frame : Frame) (sent : Sent), (publishLoop env b a req topic subs frame sent).result =
      Bpsp.publishLoop env b a req topic subs frame sent := by
  induction subs with
  | nil => exact fun _ _ => rfl
  | cons p rest ih => simp [publishLoop, Bpsp.publishLoop, ih]

@[simp] theorem publish_result (topic : CStr) (subs : Option (List Subscriber)) :
    (publish env b a req topic subs).result = Bpsp.publish env b a req topic subs := by
  match subs with
  | none => rfl
  | some [] => rfl
  | some (p :: rest) => simp [publish, Bpsp.publish, Option.map_eq_bind]

@[simp] theorem publish_to_result (topic : Option CStr) :
    (publishTo env b a req topic).result = Bpsp.publishTo env b a req topic := by
  cases topic with
  | none => rfl
  | some topic => simp [publishTo, Bpsp.publishTo]

@[simp] theorem reply_result (s : Status) (msg : CStr) (sent : Sent) :
    (handleReply env a req s msg sent).result = Bpsp.handleReply env a req s msg sent := by
  simp [handleReply, Bpsp.handleReply]

/-- Without its log the traced handler is the handler. -/
theorem handle_in_frame_result :
    (handleInFrame env b a req).result = Bpsp.handleInFrame env b a req := by
  have hpub : (handlePub env b a req).result = Bpsp.handlePub env b a req := by
    unfold handlePub Bpsp.handlePub
    cases req.getVarHeader Frame.xTopic with
    | none => rfl
    | some topic => simp
  have hsub : (handleSub env b a req).result = Bpsp.handleSub env b a req := by
    unfold handleSub Bpsp.handleSub
    cases headerValue req Frame.xTopic with
    | none => simp
    | some topic => simp
  have hunsub : (handleUnsub env b a req).result = Bpsp.handleUnsub env b a req := by
    unfold handleUnsub Bpsp.handleUnsub
    cases headerValue req Frame.xTopic with
    | none => simp
    | some topic => simp
  simp [handleInFrame, Bpsp.handleInFrame, handleConnect, Bpsp.handleConnect, handleEcho,
    Bpsp.handleEcho, hpub, hsub, hunsub]

end Result

section Logs

open Bpsp.Frame

variable {env : Env} {b : Broker} {a : Addr} {req fr : Frame} {sent : Sent}

theorem send_logs {p : Byte → Prop} (h : p fr.opcode) : (clientSend env a fr sent).Logs p := by
  refine .silent_bind fun r _ => ?_
  dsimp only
  split_ifs
  · exact .pure _
  · exact .bind (.emit h) fun _ _ => .pure _

theorem deliver_msg_logs (q : Subscriber) (h : fr.opcode = opMsg) :
    (brokerDeliverMsg env b a q fr sent).Logs (· = opMsg) := by
  refine .silent_bind fun r hset => ?_
  obtain ⟨s, fr₁⟩ := r
  have h₁ : fr₁.opcode = opMsg := opcode_kept opMsg h hset
  dsimp only
  split_ifs
  · exact .pure _
  · cases b.clients.find q.clientId with
    | none => exact .pure _
    | some target =>
        dsimp only
        split_ifs
        · refine .silent_bind fun c _ => .silent_bind fun r hset' => ?_
          obtain ⟨s', fr₂⟩ := r
          have h₂ : fr₂.opcode = opMsg := opcode_kept opMsg h₁ hset'
          dsimp only
          split_ifs
          · exact .pure _
          · exact .bind (send_logs h₂) fun _ _ => .pure _
        · exact .pure _

theorem deliver_to_logs (topic : CStr) (q : Subscriber) (h : fr.opcode = opMsg) :
    (deliverTo env b a topic q fr sent).Logs (· = opMsg) := by
  refine .silent_bind fun r hset => ?_
  obtain ⟨s, fr₁⟩ := r
  have h₁ : fr₁.opcode = opMsg := opcode_kept opMsg h hset
  dsimp only
  split_ifs
  · exact .pure _
  · refine .silent_bind fun r hset' => ?_
    obtain ⟨s', fr₂⟩ := r
    have h₂ : fr₂.opcode = opMsg := opcode_kept opMsg h₁ hset'
    dsimp only
    split_ifs
    · exact .pure _
    · exact deliver_msg_logs q h₂

/-- Every turn sends the frame with the opcode of a message. -/
theorem publish_loop_logs (topic : CStr) (subs : List Subscriber) : ∀ {fr : Frame} {sent : Sent},
    fr.opcode = opMsg → (publishLoop env b a req topic subs fr sent).Logs (· = opMsg) := by
  induction subs with
  | nil => exact fun _ => .pure _
  | cons q rest ih =>
      intro fr sent h
      unfold publishLoop
      split_ifs
      · exact ih h
      · refine .bind (deliver_to_logs topic q h) fun ⟨s, fr', sent'⟩ hdeliver => ?_
        rw [deliver_to_result] at hdeliver
        exact ih (deliver_to_keeps (opcode_kept opMsg) h hdeliver).1

theorem publish_to_logs (topic : Option CStr) :
    (publishTo env b a req topic).Logs (· = opMsg) := by
  cases topic with
  | none => exact .pure _
  | some topic =>
      refine .silent_bind fun subs _ => ?_
      match subs with
      | none => exact .pure _
      | some [] => exact .pure _
      | some (q :: rest) =>
          refine .silent_bind fun ⟨s, fr⟩ hmsg => ?_
          dsimp only
          split_ifs with hs
          · subst hs
            exact .bind (publish_loop_logs topic _ (msg_opcode hmsg)) fun _ _ => .pure _
          · exact .pure _

theorem set_opcode_ok {fr' : Frame} {opcode : Byte} (h : fr.setOpcode opcode = (.ok, fr')) :
    fr'.opcode = opcode := by
  unfold setOpcode validateOpcode at h
  split_ifs at h
  · cases h
  · rw [← (Prod.mk.inj h).2]

theorem build_opcode {now : Timestamp} {fr' : Frame} (h : fr.build now = some (.ok, fr')) :
    fr'.opcode = fr.opcode := by
  rw [(build_frame h).2]

/-- A reply is an OK or an ERR. -/
theorem reply_frame_opcode {s : Status} {msg : CStr}
    (hrun : replyFrame env.replyTime req s msg = some (.ok, fr)) :
    fr.opcode = if s = .ok then opOk else opErr := by
  obtain ⟨opcode, setPayload, code, hcalls, hopcode, -, -, hpayload⟩ := reply_calls env req s msg
  rw [hcalls] at hrun
  obtain ⟨fr₁, -, hrun⟩ := assert_ok_some hrun
  obtain ⟨fr₂, hop, hrun⟩ := assert_ok_some hrun
  obtain ⟨fr₃, hput, hrun⟩ := assert_ok_some hrun
  obtain ⟨fr₄, hset, hbuild⟩ := assert_ok_some hrun
  have h₂ : fr₂.opcode = opcode := set_opcode_ok (Option.some.inj hop)
  have h₃ : fr₃.opcode = opcode := by
    rw [← h₂, ← hpayload.opcode fr₂, Option.some.inj hput]
  have h₄ : fr₄.opcode = opcode := opcode_kept opcode h₃ hset
  rw [build_opcode hbuild, h₄, hopcode]

theorem reply_logs (s : Status) (msg : CStr) :
    (handleReply env a req s msg sent).Logs fun op => op = opOk ∨ op = opErr := by
  unfold handleReply
  split_ifs
  · refine .silent_bind fun ⟨s', out⟩ hframe => ?_
    dsimp only
    split_ifs with hs
    · exact .pure _
    · rw [not_not.mp hs] at hframe
      refine send_logs ?_
      rw [reply_frame_opcode hframe]
      split_ifs
      · exact Or.inl rfl
      · exact Or.inr rfl
  · exact .pure _

/-- `frame__INFO` makes an INFO frame. -/
theorem info_opcode {now : Timestamp} {version name : CStr}
    (hrun : Frame.info now version name = some (.ok, fr)) : fr.opcode = opInfo := by
  obtain ⟨fr₁, hcontrol, hrun⟩ := assert_ok_some hrun
  obtain ⟨fr₂, hput, hbuild⟩ := assert_ok_some hrun
  rw [set_frame_control_eq new 0 (by decide)] at hcontrol
  obtain rfl := (Prod.mk.inj (Option.some.inj hcontrol)).2
  rw [put_payload_eq] at hput
  obtain rfl := (Prod.mk.inj (Option.some.inj hput)).2
  rw [build_opcode hbuild]

/-- Handling a request looks up opcodes of the table, and that of the request. -/
theorem handle_in_frame_logs (h : req.opcode.toNat < opText.length) :
    (handleInFrame env b a req).Logs fun op => op.toNat < opText.length := by
  have hreply : ∀ {s msg sent}, (handleReply env a req s msg sent).Logs
      fun op => op.toNat < opText.length := by
    intro s msg sent op hop
    rcases reply_logs s msg op hop with rfl | rfl
    · decide
    · decide
  unfold handleInFrame
  split_ifs
  · exact .pure _
  · refine .silent_bind fun ⟨s, out⟩ hinfo => ?_
    dsimp only
    split_ifs with hs
    · exact .pure _
    · rw [not_not.mp hs] at hinfo
      refine .bind (send_logs ?_) fun _ _ => .pure _
      rw [info_opcode hinfo]
      decide
  · unfold handlePub
    cases req.getVarHeader xTopic with
    | none => exact .pure _
    | some topic =>
        refine .bind (fun op hop => ?_) fun r _ => ?_
        · rw [publish_to_logs topic op hop]
          decide
        · dsimp only
          split_ifs
          · exact .pure _
          · exact .bind hreply fun _ _ => .pure _
  · unfold handleSub
    cases headerValue req xTopic with
    | none => exact .bind hreply fun _ _ => .pure _
    | some topic =>
        exact .silent_bind fun c _ => .silent_bind fun r _ => .bind hreply fun _ _ => .pure _
  · unfold handleUnsub
    cases headerValue req xTopic with
    | none => exact .bind hreply fun _ _ => .pure _
    | some topic => exact .silent_bind fun r _ => .bind hreply fun _ _ => .pure _
  · exact .bind (send_logs h) fun _ _ => .pure _

/-- A frame that was received has the third byte of the stream as its opcode. -/
theorem recv_opcode {big : Bool} {kernel : Net.Kernel} {now : Timestamp} {conn conn' : Net.Conn}
    (hrun : Frame.recv big kernel now conn = some (.ok, fr, conn')) :
    conn.inbox[2]? = some fr.opcode := by
  obtain ⟨s, k, conn₁, hread, hk, hin, -, -, hs⟩ :=
    @Net.read_loop_takes kernel 8 8 conn [] (Nat.zero_le _) (Nat.le_refl _)
  unfold Frame.recv at hrun
  rw [Net.read, hread, List.nil_append] at hrun
  by_cases hok : s = .ok
  swap
  · dsimp only at hrun
    rw [if_pos hok] at hrun
    exact absurd (Prod.mk.inj (Option.some.inj hrun)).1 hok
  obtain rfl : k = 8 := by simpa using hs.mp hok
  have hcontrol := ok_of_guard hrun
  -- the third byte goes into the frame
  have hbyte : conn.inbox[2]? = some ((conn.inbox.take 8).drop 2 |>.headD 0) := by
    obtain ⟨b₀, b₁, b₂, b₃, b₄, b₅, b₆, b₇, body, hbytes⟩ := eight_bytes hin
    rw [hbytes]
    rfl
  rw [hbyte]
  generalize ((conn.inbox.take 8).drop 2).headD 0 = op at hcontrol ⊢
  dsimp only at hcontrol
  by_cases hop : op = 0
  · rw [hop, show new.setFrameControl 0 _ = some (.invalidOpcode, new) from rfl] at hcontrol
    cases hcontrol
  rw [set_frame_control_eq new _ hop, Option.bind_eq_bind, Option.bind_some] at hcontrol
  have hblock := ok_of_guard (ok_of_guard hcontrol)
  obtain ⟨⟨s₁, fr₁⟩, hparse, hblock⟩ := Option.bind_eq_some_iff.mp hblock
  have h₁ : fr₁.opcode = op := congrArg Frame.opcode (parse_frame hparse)
  have hdata := ok_of_guard (ok_of_guard (ok_of_guard hblock))
  obtain ⟨⟨s₂, fr₂⟩, hbuild, heq⟩ := Option.bind_eq_some_iff.mp hdata
  obtain ⟨rfl, heq⟩ := Prod.mk.inj (Option.some.inj heq)
  obtain ⟨rfl, -⟩ := Prod.mk.inj heq
  have hmalloc : ∀ n, (fr₁.mallocPayload n).2.opcode = op := by
    intro n
    unfold mallocPayload
    split_ifs <;> exact h₁
  rw [build_opcode hbuild]
  split_ifs <;> rw [hmalloc]

end Logs

section Turn

variable {big : Bool} {kernel : Net.Kernel} {now : Timestamp} {conn conn' : Net.Conn} {frame fr : Frame}

/-- What is not accepted is not traced. -/
theorem client_turn_silent (env : Env) (b : Broker) (a : Addr) {closed : Bool}
    (h : closed = true ∨ ∀ fr conn', Frame.recv big kernel now conn ≠ some (.ok, fr, conn')) :
    (clientTurn big kernel now closed conn frame env b a).log = [] := by
  unfold clientTurn clientRecv
  by_cases hclosed : closed = true
  · rw [if_pos hclosed]
    rfl
  rw [if_neg hclosed]
  have hno := h.resolve_left hclosed
  cases hrecv : Frame.recv big kernel now conn with
  | none => rfl
  | some r =>
      obtain ⟨s, fr, conn'⟩ := r
      have hs : s ≠ .ok := fun hs => hno fr conn' (hs ▸ hrecv)
      rw [Logged.log_bind_some (a := (s, fr, conn')) (by simp)]
      simp only [if_pos hs]
      rw [Logged.log_bind_some rfl]
      simp only [if_pos hs]
      rfl

/-- The opcode of an accepted frame is looked up, and then those of its handling. -/
theorem client_turn_accepted (env : Env) (b : Broker) (a : Addr)
    (h : Frame.recv big kernel now conn = some (.ok, fr, conn')) :
    (clientTurn big kernel now false conn frame env b a).log =
      fr.opcode :: (handleInFrame env b a fr).log := by
  unfold clientTurn clientRecv
  rw [if_neg Bool.false_ne_true, h]
  rfl

end Turn

/-- Whatever a peer sends and however it arrives, in any state of the broker: receiving and handling a
frame looks up opcodes within the table, unless the client is open and a frame whose opcode is
beyond the table is accepted. -/
theorem in_bounds_iff (big : Bool) (kernel : Net.Kernel) (now : Timestamp) (closed : Bool)
    (conn : Net.Conn) (frame : Frame) (env : Env) (b : Broker) (a : Addr) :
    (∀ op ∈ (clientTurn big kernel now closed conn frame env b a).log, (getOpText op).isSome) ↔
      closed = true ∨ (∀ op, conn.inbox[2]? = some op → op.toNat ≤ 8) ∨
        ∀ fr conn', Frame.recv big kernel now conn ≠ some (.ok, fr, conn') := by
  simp only [get_op_text_isSome]
  by_cases h : closed = true ∨ ∀ fr conn', Frame.recv big kernel now conn ≠ some (.ok, fr, conn')
  · rw [client_turn_silent env b a h]
    refine iff_of_true (fun op hop => by cases hop) ?_
    exact h.imp_right Or.inr
  · rw [not_or, not_forall] at h
    obtain ⟨hopen, fr, haccepted⟩ := h
    obtain ⟨conn', hrecv⟩ := not_forall.mp haccepted
    rw [not_not] at hrecv
    obtain rfl : closed = false := Bool.eq_false_of_not_eq_true hopen
    have hbyte := recv_opcode hrecv
    rw [client_turn_accepted env b a hrecv, hbyte]
    constructor
    · intro hall
      refine Or.inr (Or.inl fun op hop => ?_)
      obtain rfl := Option.some.inj hop
      exact Nat.le_of_lt_succ (hall _ List.mem_cons_self)
    · rintro (hclosed | hle | hnone)
      · cases hclosed
      · have hop : fr.opcode.toNat < opText.length := Nat.lt_succ_of_le (hle _ rfl)
        exact fun op hmem => (List.mem_cons.mp hmem).elim (fun h => h ▸ hop)
          (handle_in_frame_logs hop op)
      · exact absurd hrecv (hnone fr conn')

/-- The frame of eight bytes with the opcode 9 is accepted, traced and echoed, and there is no text for
its opcode. -/
theorem in_bounds_fails : ∃ op ∈ (clientTurn true ⟨fun _ => some 8, fun _ => some 8⟩ Frame.newYear false
    ⟨[0, 0, 9, 0, 0, 0, 0, 0], [], 0, 0⟩ Frame.new calm Broker.init 0).log, getOpText op = none :=
  ⟨9, by decide, rfl⟩

end Traced

end Bpsp
