import Bpsp.Java.Size
import Bpsp.Java.Wire
import Bpsp.Server.Request

/-!
# A request of the client and the reply of the broker

`Subscriber.buildSubFrame` and `Subscriber.buildUnsubFrame` put the topic and the tag into headers.
When the texts are `Sendable` the broker receives what the client asked (`request_received`), and the
client receives the OK of the broker (`reply_carried`).
-/

namespace Bpsp.Java

open CLib JLib Net Bpsp.Frame

/-- The body of `buildSubFrame` and of `buildUnsubFrame`. -/
def subscriberFrame (operation : Operation) (now : Instant) (topic subTag : JString) : Frame :=
  ((((Frame.newFrame operation).setFlag .ack).setVarHeader (JLib.ascii xTopic.bytes) topic).setVarHeader
    (JLib.ascii xSubTag.bytes) subTag).build now

/-- `Subscriber.buildSubFrame`. -/
def buildSubFrame (now : Instant) (topic subTag : JString) : Frame :=
  subscriberFrame .sub now topic subTag

/-- `Subscriber.buildUnsubFrame`. -/
def buildUnsubFrame (now : Instant) (topic subTag : JString) : Frame :=
  subscriberFrame .unsub now topic subTag

/-- A topic and a tag that requests and their replies carry as they are: ASCII texts that can stand
between quotes, and that leave room for the other headers of a reply. -/
structure Sendable (topic subTag : CStr) : Prop where
  ascii : Ascii topic.bytes ∧ Ascii subTag.bytes
  plain : Plain topic ∧ Plain subTag
  nonempty : topic.length ≠ 0 ∧ subTag.length ≠ 0
  room : topic.length + subTag.length ≤ 65450

/-- The headers of a frame to which the broker can reply. -/
structure Answerable (t : Table) : Prop where
  wellFormed : WellFormed t
  fits : encSize t ≤ 65535
  room : encSize (put t xStatusCode (.ofString "200")) ≤ 65535
  plain : ∀ e ∈ t, Plain e.1 ∧ Plain e.2
  ascii : ∀ e ∈ t, e.1 ≠ xTime → Ascii e.1.bytes ∧ Ascii e.2.bytes

/-- The frame asks for this topic and this tag, and wants a reply. -/
structure Asks (req : Bpsp.Frame) (operation : Operation) (topic subTag : CStr) : Prop where
  received : Received req
  opcode : req.opcode = operation.getCode
  ack : flagIsSet req.flag flAck = true
  topic : headerValue req xTopic = some topic
  subTag : headerValue req xSubTag = some subTag
  answerable : ∃ t, req.varHeaders = stored t ∧ Answerable t

section Request

variable {operation : Operation} {topic subTag : CStr}

/-- The calls that make a request. -/
def requestCalls (operation : Operation) (topic subTag : CStr) (now : Instant) : Calls :=
  ⟨operation, [.ack], [(xTopic.bytes, topic.bytes), (xSubTag.bytes, subTag.bytes)], .empty, false, now⟩

theorem run_request (operation : Operation) (topic subTag : CStr) (now : Instant) :
    (requestCalls operation topic subTag now).run =
      some (subscriberFrame operation now (ascii topic.bytes) (ascii subTag.bytes)) := by
  have hput : ∀ {frame : Frame}, frame.data = .empty → frame.dataSize = 0 →
      frame.putData .empty false = some frame := by
    rintro ⟨varHeaderSize, opcode, flag, dataSize, varHeaders, data, isCompleted⟩ rfl rfl
    rfl
  unfold Calls.run
  rw [show (requestCalls operation topic subTag now).data = .empty from rfl,
    show (requestCalls operation topic subTag now).append = false from rfl, hput rfl rfl]
  rfl

theorem Sendable.allowed (h : Sendable topic subTag) (operation : Operation) (now : Instant) :
    (requestCalls operation topic subTag now).Allowed := by
  have hboth : ∀ {P : List Byte × List Byte → Prop}, P (xTopic.bytes, topic.bytes) →
      P (xSubTag.bytes, subTag.bytes) → ∀ e ∈ (requestCalls operation topic subTag now).headers, P e := by
    intro P htopic htag e he
    rcases List.mem_pair.mp he with rfl | rfl
    · exact htopic
    · exact htag
  have hne : ∀ {s : CStr}, s.length ≠ 0 → s.bytes ≠ [] :=
    fun hs h0 => hs (List.length_eq_zero_iff.mpr h0)
  refine ⟨?_, hboth ⟨?_, h.ascii.1⟩ ⟨?_, h.ascii.2⟩, hboth ⟨?_, hne h.nonempty.1⟩ ⟨?_, hne h.nonempty.2⟩,
    hboth ⟨?_, h.plain.1⟩ ⟨?_, h.plain.2⟩⟩
  · show [xTopic.bytes, xSubTag.bytes].Nodup
    decide
  · show Ascii xTopic.bytes
    decide +kernel
  · show Ascii xSubTag.bytes
    decide +kernel
  · show xTopic.bytes ≠ []
    decide
  · show xSubTag.bytes ≠ []
    decide
  · show Plain xTopic
    decide
  · show Plain xSubTag
    decide

theorem size_request (topic subTag : CStr) :
    fieldSize [(xTopic.bytes, topic.bytes), (xSubTag.bytes, subTag.bytes)] =
      topic.length + subTag.length + 26 := by
  have htopic : xTopic.bytes.length = 7 := by decide
  have htag : xSubTag.bytes.length = 9 := by decide
  simp only [fieldSize, List.map_cons, List.map_nil, List.sum_cons, List.sum_nil, htopic, htag,
    CStr.length]
  omega

theorem Sendable.fits (h : Sendable topic subTag) (operation : Operation) (now : Instant) :
    (requestCalls operation topic subTag now).Fits := by
  have hcount := (requestCalls operation topic subTag now).counted_eq
  have hsize := size_request topic subTag
  obtain ⟨-, hhigh⟩ := now.length_bounds
  have hroom := h.room
  simp only [requestCalls] at hcount
  refine ⟨?_, fun e he => ?_, ?_, ?_, .inl rfl⟩
  · show decide (xTime.bytes ∈ [xTopic.bytes, xSubTag.bytes]) = false
    decide
  · rcases List.mem_pair.mp he with rfl | rfl
    · exact ⟨xTopic.nul_free, topic.nul_free⟩
    · exact ⟨xSubTag.nul_free, subTag.nul_free⟩
  · rw [requestCalls, hcount, hsize]
    omega
  · rw [requestCalls, hcount, hsize]
    show _ ≤ 65535 + now.text.length
    omega

/-- The headers of a request, with the time of the receiver, leave room for a reply. -/
theorem Readable.answerable {hs : Fields} (hr : Readable hs) {sent : Instant}
    (hmem : (xTime.bytes, sent.text.bytes) ∈ hs) (hascii : ∀ e ∈ hs, Ascii e.1 ∧ Ascii e.2)
    (hroom : fieldSize hs + 48 ≤ 65535 + sent.text.length) (now : Timestamp) :
    Answerable (put (tableOf hs) xTime now.text) := by
  have hwf := hr.wellFormed
  have hput := hr.encSize_put hmem now
  have hstatus := encSize_put_le (nodup_put hwf.nodup xTime now.text) xStatusCode (.ofString "200")
  have hlen : xStatusCode.length + (CStr.ofString "200").length + 5 = 21 := by decide
  have htable : ∀ e ∈ tableOf hs, e.1 ≠ xTime → Ascii e.1.bytes ∧ Ascii e.2.bytes := by
    intro e he _
    obtain ⟨e', he', rfl⟩ := List.mem_map.mp he
    rw [(hr.bytes he').1, (hr.bytes he').2]
    exact hascii e' he'
  exact ⟨hwf.put (by decide) (Timestamp.length_ne now), by omega, by omega,
    forall_put hwf.nodup hr.table_plain ⟨show Plain xTime by decide, time_plain now⟩,
    forall_put hwf.nodup htable fun hne => absurd rfl hne⟩

/-- The frame that is received is a request with the headers that were sent. -/
theorem built_request (operation : Operation) (topic subTag : CStr) (sent : Instant) (hs : Fields)
    (now : Timestamp) : builtFrame (requestCalls operation topic subTag sent) hs now =
      request operation.getCode Flag.ack.getValue (put (tableOf hs) xTime now.text) := by
  have hflag : (requestCalls operation topic subTag sent).made.flag = Flag.ack.getValue := by
    show 0 ||| Flag.ack.getValue = _
    decide
  have hdata : (requestCalls operation topic subTag sent).made.data.bytes = [] := by
    show (if false then JLib.ByteArray.empty else .empty).bytes = []
    rw [ite_self]
    rfl
  unfold builtFrame
  rw [hflag, hdata]
  rfl

/-- What is written for a sendable topic and tag is received as the request that it is. -/
theorem request_received (h : Sendable topic subTag) (operation : Operation) (sent : Instant)
    (order : HashMap.Iteration JString VarHeader) :
    let written := (subscriberFrame operation sent (ascii topic.bytes) (ascii subTag.bytes)).writeTo order
    written.2 = true ∧ ∀ (now : Timestamp) (rest : List Byte), ∃ req,
      decode now (written.1 ++ rest) = some (.ok, req, rest) ∧ Asks req operation topic subTag := by
  have hallowed := h.allowed operation sent
  have hfits := h.fits operation sent
  have hmade := Option.some.inj
    ((run_request operation topic subTag sent).symm.trans (Calls.run_eq hallowed))
  obtain ⟨hdone, hs, hperm, hr, hdecode⟩ := hfits.received hallowed order
  rw [hmade]
  refine ⟨hdone, fun now rest => ⟨_, hdecode now rest, ?_⟩⟩
  have hmem := Calls.mem_time hfits.time hperm
  have hheader : ∀ e ∈ [(xTopic.bytes, topic.bytes), (xSubTag.bytes, subTag.bytes)], e ∈ hs := by
    intro e he
    rw [hperm.mem_iff, Calls.fields_eq hfits.time]
    exact List.mem_append_left _ he
  -- the receiver puts its own time in the place of the one that was sent
  have hanswerable : Answerable (put (tableOf hs) xTime now.text) := by
    refine hr.answerable hmem (fun e he => ?_) ?_ now
    · exact Calls.fields_ascii hallowed e (hperm.mem_iff.mp he)
    · have hcount := (requestCalls operation topic subTag sent).counted_eq
      have hsize : fieldSize hs = (requestCalls operation topic subTag sent).counted := by
        rw [fieldSize_perm hperm, Calls.fields_eq hfits.time]
        rfl
      have hroom := h.room
      simp only [requestCalls, size_request] at hcount hsize ⊢
      omega
  have hvalue : ∀ {k v : CStr}, (k.bytes, v.bytes) ∈ hs → xTime ≠ k →
      (HashTable.find (stored (put (tableOf hs) xTime now.text)) k).join = some v := by
    intro k v hkv hne
    rw [find_stored, find_put hr.wellFormed.nodup, if_neg hne, hr.find hkv]
    rfl
  have htime : (put (tableOf hs) xTime now.text).find xTime = some now.text := by
    rw [find_put hr.wellFormed.nodup, if_pos rfl]
  have hop : operation.getCode ≠ 0 := Calls.opcode_ne (requestCalls operation topic subTag sent)
  rw [built_request]
  exact ⟨received_request hop hanswerable.wellFormed hanswerable.fits htime, rfl,
    show flagIsSet Flag.ack.getValue flAck = true by decide,
    hvalue (hheader _ (by simp)) (by decide), hvalue (hheader _ (by simp)) (by decide), _, rfl,
    hanswerable⟩

end Request

/-- What the client makes of a frame of the broker: `frame__send`, then `Frame.readFrom`. -/
def carried (charset : List Byte → JString) (big : Bool) (kernel : Kernel) (now : Instant)
    (reply : Bpsp.Frame) : Option Frame := do
  let (_, conn) ← send big kernel ⟨[], [], 0, 0⟩ reply
  let (frame, _) ← Frame.readFrom charset now conn.outbox
  some frame

section Reply

variable {operation : Operation} {topic subTag msg : CStr} {req : Bpsp.Frame} {env : Env} {a : Addr}

/-- The OK reply to a request is a frame with ASCII headers that fit. -/
theorem reply_completed (h : Asks req operation topic subTag) (hio : env.io 0 = .ok)
    (hascii : Ascii env.replyTime.text.bytes) (hmsg : msg.length ≤ 100) :
    ∃ m : Message, handleReply env a req .ok msg [] = some (.ok, [(a, completed env.replyTime m)]) ∧
      m.opcode = opOk ∧ m.payload.length ≤ 100 ∧
      encSize (put m.headers xTime env.replyTime.text) ≤ 65535 ∧
      ∀ e ∈ put m.headers xTime env.replyTime.text, Ascii e.1.bytes ∧ Ascii e.2.bytes := by
  obtain ⟨t, hheaders, hans⟩ := h.answerable
  have hnodup := hans.wellFormed.nodup
  have htext : (replyText msg).length ≤ 100 := by
    unfold replyText
    split_ifs
    · decide
    · exact hmsg
  obtain ⟨m, hok, hop, hpayload, hm⟩ := ok_completed env.replyTime h.received hheaders
    hans.wellFormed hans.plain hans.fits hans.room (Nat.lt_of_le_of_lt htext (by decide))
  refine ⟨m, ?_, hop, ?_, ?_, fun e he => ?_⟩
  · have hsend := @client_send_stored env a [] (completed env.replyTime m) _ rfl rfl
    unfold handleReply replyFrame
    rw [if_pos h.ack, if_neg (not_not.mpr rfl), hok, Option.bind_eq_bind, Option.bind_some]
    dsimp only
    rw [if_neg (not_not.mpr rfl), hsend, List.length_nil, hio, List.nil_append]
  · rw [hpayload]
    exact htext
  · obtain ⟨old, hold⟩ := h.received.time
    rw [hheaders, find_stored] at hold
    have hfind : (put t xStatusCode (.ofString "200")).find xTime = some old.text := by
      rw [find_put hnodup, if_neg (by decide)]
      simpa using hold
    rw [hm, encSize_put_same (nodup_put hnodup _ _) hfind
      (env.replyTime.length_eq.trans old.length_eq.symm)]
    exact hans.room
  · rw [hm] at he
    rcases (mem_put_iff (nodup_put hnodup _ _)).mp he with ⟨hk, hv⟩ | ⟨hne, hmem⟩
    · rw [hk, hv]
      exact ⟨show Ascii xTime.bytes by decide +kernel, hascii⟩
    · have hstatus : ∀ e ∈ put t xStatusCode (.ofString "200"),
          e.1 ≠ xTime → Ascii e.1.bytes ∧ Ascii e.2.bytes :=
        forall_put hnodup hans.ascii fun _ => ⟨show Ascii xStatusCode.bytes by decide +kernel,
          show Ascii (CStr.ofString "200").bytes by decide +kernel⟩
      exact hstatus e hmem hne

/-- The OK reply to a request reaches the client as an OK. -/
theorem reply_carried (h : Asks req operation topic subTag) (hio : env.io 0 = .ok)
    (hascii : Ascii env.replyTime.text.bytes) (hmsg : msg.length ≤ 100)
    {charset : List Byte → JString} (hcharset : ∀ bytes, Ascii bytes → charset bytes = ascii bytes)
    (big : Bool) {kernel : Kernel} (hkernel : kernel.Reliable) (now : Instant) :
    ∃ reply frame, handleReply env a req .ok msg [] = some (.ok, [(a, reply)]) ∧
      carried charset big kernel now reply = some frame ∧ frame.opcode = Operation.ok.getCode := by
  obtain ⟨m, hreply, hop, hpayload, hfits, hall⟩ := @reply_completed _ _ _ _ _ _ a h hio hascii hmsg
  obtain ⟨n, hsend⟩ := send_spec hkernel big env.replyTime m hfits ⟨[], [], 0, 0⟩
  obtain ⟨frame, hread, hopcode, -⟩ := read_from_broker hcharset inserted now big env.replyTime m
    (Nat.lt_of_le_of_lt hpayload (by decide)) hfits hall []
  rw [List.append_nil] at hread
  refine ⟨_, frame, hreply, ?_, hopcode.trans hop⟩
  simp [carried, hsend, hread]

end Reply

end Bpsp.Java
