import Bpsp.Java.Request
import Bpsp.Java.Subscriptions
import Bpsp.Server.Registered

/-!
# A conversation of the Java client with the broker

The two threads of the client (`System`), the bytes of its requests under way, and the broker, which
other clients use as well. The map `subs`, the flags `running` and the broker's tree each follow the
requests that were made, at their own speed; `conversation_agrees` says that they agree when nothing
is under way, in every conversation whose turns are all `Careful`.
-/

namespace Bpsp.Java

open CLib JLib Net Bpsp.Frame

/-- What is given: the subscribers, whose tags have no slash, the order in which a `HashMap` is
passed, the default charset of the client, the byte order of the broker's host, and the client's
connection. -/
structure Setting where
  objects : Objects
  tag_plain : ∀ s, 47 ∉ objects.subTagOf s
  order : HashMap.Iteration JString VarHeader
  charset : List Byte → JString
  decodes : ∀ bytes, Ascii bytes → charset bytes = ascii bytes
  big : Bool
  connection : Addr

/-- The client, the bytes that it sent and the broker has not read, and the broker. -/
structure Conversation where
  system : System
  wire : List Byte
  broker : Broker

/-- What the environment does while the broker serves a request. The times that `strftime` writes are
ASCII. -/
structure Service where
  env : Env
  kernel : Kernel
  received : Timestamp
  read : Instant
  ascii : Ascii env.replyTime.text.bytes

/-- A turn: of the client's caller (`sub` and `unsub`, which take three turns each) or its main loop, of
the broker (it serves the client, does something for another client, or sends the client a frame that
is no reply). -/
inductive Turn where
  | sub (s : Nat) (now : Instant)
  | unsub (s : Nat) (now : Instant)
  | enqueue
  | record
  | receive
  | process
  | serve (service : Service)
  | other (ev : Event)
  | push (frame : Frame)

/-- A frame of the broker is on its way to the client. -/
def System.arrive (objects : Objects) (st : System) (frame : Frame) : Option System :=
  st.step objects (if isReply frame then .answer frame else .push frame)

namespace Conversation

variable (setting : Setting) (cv : Conversation)

/-- A step of the client. -/
def act (a : Action) : Option Conversation :=
  (cv.system.step setting.objects a).map fun system => { cv with system := system }

/-- `sub` or `unsub` up to `sendFrame`, for the frame that it has built. -/
def call (c : Call) (frame : Frame) : Option Conversation :=
  match cv.system.client.prepare setting.objects c with
  | .sends =>
      let (bytes, done) := frame.writeTo setting.order
      (cv.system.step setting.objects (.call c done)).map fun system =>
        { cv with system := system, wire := cv.wire ++ bytes }
  | _ => cv.act setting (.call c false)

/-- What the broker has sent, as far as it is for this client. -/
def deliver (service : Service) : System → Sent → Option System
  | st, [] => some st
  | st, (a, reply) :: rest =>
      if a = setting.connection then do
        let frame ← carried setting.charset setting.big service.kernel service.read reply
        let st ← st.arrive setting.objects frame
        deliver service st rest
      else deliver service st rest

/-- One turn of `handle__client_loop` for this client, which has to wait when the stream does not
have a whole frame. -/
def serve (service : Service) : Option Conversation := do
  let (s, req, rest) ← outcome
    (recv setting.big service.kernel service.received ⟨cv.wire, [], 0, 0⟩)
  match s with
  | .ok =>
      let out ← handleInFrame service.env cv.broker setting.connection req
      let broker ← Bpsp.step cv.broker (.request service.env setting.connection req)
      let system ← deliver setting service cv.system out.sent
      some ⟨system, rest, broker⟩
  | .connectionClosed => none -- the rest of the frame is still to come
  | _ =>
      let broker ← Bpsp.step cv.broker (.disconnect setting.connection)
      some { cv with wire := rest, broker := broker }

/-- One turn, when it can be taken. -/
def step : Turn → Option Conversation
  | .sub s now => cv.call setting (.sub s)
      (buildSubFrame now (setting.objects.subTopicOf s) (setting.objects.subTagOf s))
  | .unsub s now => cv.call setting (.unsub s)
      (buildUnsubFrame now (setting.objects.subTopicOf s) (setting.objects.subTagOf s))
  | .enqueue => cv.act setting .enqueue
  | .record => cv.act setting .record
  | .receive => cv.act setting .receive
  | .process => cv.act setting .process
  | .serve service => cv.serve setting service
  | .other ev =>
      if ev.client cv.broker = setting.connection then none
      else (Bpsp.step cv.broker ev).map fun broker => { cv with broker := broker }
  | .push frame => cv.act setting (.push frame)

end Conversation

/-- The conversations that start here, when every turn meets the condition. -/
inductive Talk (setting : Setting) (P : Conversation → Turn → Prop) (start : Conversation) :
    Conversation → Prop
  | refl : Talk setting P start start
  | step {cv cv' : Conversation} {t : Turn} (talk : Talk setting P start cv) (meets : P cv t)
      (turn : cv.step setting t = some cv') : Talk setting P start cv'

/-- The client has just been accepted by a broker, and has called nothing. -/
structure Connected (setting : Setting) (cv : Conversation) : Prop where
  system : cv.system = .init
  wire : cv.wire = []
  broker : ∃ b draws addr, Reachable b ∧
    brokerAccept b draws addr = some (cv.broker, setting.connection)

/-- All requests and replies have been processed. -/
structure Quiet (cv : Conversation) : Prop where
  caller : cv.system.caller = .idle
  requests : cv.system.toBroker = []
  replies : ∀ x ∈ cv.system.arriving, isReply x.frame = false

section Agreement

variable (setting : Setting) (cv : Conversation)

/-- These are the topic and the tag of the subscriber, in UTF-8. -/
def PairOf (objects : Objects) (s : Nat) (topic subTag : CStr) : Prop :=
  topic.bytes = utf8 (objects.subTopicOf s) ∧ subTag.bytes = utf8 (objects.subTagOf s)

/-- The subscription of the subscriber is registered at the broker. -/
def RegisteredFor (s : Nat) : Prop :=
  ∃ topic subTag, PairOf setting.objects s topic subTag ∧
    Registered cv.broker setting.connection topic subTag

/-- The map has the pairs that are registered, and a flag says that the subscriber is in the map and
its pair registered, which is the latter alone when no other subscriber has this pair. -/
structure Agrees : Prop where
  pairs : ∀ topic subTag, Registered cv.broker setting.connection topic subTag ↔
    ∃ e ∈ cv.system.client.subs, PairOf setting.objects e.2 topic subTag
  running : ∀ s, cv.system.client.running (.subscriber s) = true ↔
    cv.system.client.subs.find (setting.objects.identifier s) = some s ∧ RegisteredFor setting cv s
  alone : ∀ s, (∀ s' topic subTag, PairOf setting.objects s topic subTag →
      PairOf setting.objects s' topic subTag → s' = s) →
    (cv.system.client.running (.subscriber s) = true ↔ RegisteredFor setting cv s)

end Agreement

/-- The topic of a subscriber as the broker gets it. -/
def Objects.topicText (objects : Objects) (s : Nat) : CStr := CStr.ofBytes (utf8 (objects.subTopicOf s))

/-- The tag of a subscriber as the broker gets it. -/
def Objects.tagText (objects : Objects) (s : Nat) : CStr := CStr.ofBytes (utf8 (objects.subTagOf s))

/-- Requests carry the topic and the tag as they are, and the tree accepts the topic. -/
structure Accepted (objects : Objects) (s : Nat) : Prop where
  topic : objects.subTopicOf s = ascii (objects.topicText s).bytes
  subTag : objects.subTagOf s = ascii (objects.tagText s).bytes
  sendable : Sendable (objects.topicText s) (objects.tagText s)
  levels : (Topic.levels (objects.topicText s)).isSome

/-- The turn keeps to what works: `sub` for texts that are accepted, `unsub` for the subscriber that
is in the map and not for another one with the same topic and tag, a connection that does not fail,
and replies that are processed after their handler waits for them. -/
def Careful (setting : Setting) (cv : Conversation) : Turn → Prop
  | .sub s _ => Accepted setting.objects s
  | .unsub s _ => ∀ s', cv.system.client.subs.find (setting.objects.identifier s) = some s' → s' = s
  | .process => timely cv.system .process = true
  | .serve service => service.kernel.Reliable ∧ service.env.io 0 = .ok
  | _ => True

/-- The key of a subscription in the broker's table of the client. -/
def Objects.tableKey (objects : Objects) (s : Nat) : CStr :=
  subscriberMakeIdentifier (objects.topicText s) (objects.tagText s)

/-- The frame asks what the call asks. -/
def AsksFor (objects : Objects) (req : Bpsp.Frame) : Call → Prop
  | .pub _ => False
  | .sub s => Asks req .sub (objects.topicText s) (objects.tagText s)
  | .unsub s => Asks req .unsub (objects.topicText s) (objects.tagText s)

/-- The bytes are received as the request. -/
def Written (objects : Objects) (r : Request) (bytes : List Byte) : Prop :=
  ∀ (now : Timestamp) (rest : List Byte), ∃ req,
    decode now (bytes ++ rest) = some (.ok, req, rest) ∧ AsksFor objects req r.call

/-- What holds in a careful conversation: the client follows the requests, the broker follows those
that it has served, and the bytes under way are the other requests. -/
structure InTouch (setting : Setting) (cv : Conversation) (toggles : List Nat) : Prop where
  follows : Follows setting.objects cv.system toggles
  accepted : ∀ s ∈ toggles, Accepted setting.objects s
  serving : ∃ held, Shows held toggles (toggles.length - cv.system.toBroker.length) ∧
    Serving cv.broker setting.connection fun i => ∃ s, held s ∧ i = setting.objects.tableKey s
  wire : ∃ pieces, cv.wire = pieces.flatten ∧
    List.Forall₂ (Written setting.objects) cv.system.toBroker pieces

section Texts

variable {setting : Setting} {s s' : Nat}

theorem Accepted.tag_plain (h : Accepted setting.objects s) :
    47 ∉ (setting.objects.tagText s).bytes := by
  intro hmem
  refine setting.tag_plain s ?_
  rw [h.subTag]
  exact List.mem_map_of_mem hmem

/-- Subscribers with the same key have the same identifier. -/
theorem identifier_of_tableKey (h : Accepted setting.objects s) (h' : Accepted setting.objects s')
    (heq : setting.objects.tableKey s = setting.objects.tableKey s') :
    setting.objects.identifier s = setting.objects.identifier s' := by
  obtain ⟨htopic, htag⟩ := make_identifier_injective h.tag_plain h'.tag_plain heq
  unfold Objects.identifier
  rw [h.topic, h.subTag, h'.topic, h'.subTag, htopic, htag]

/-- The pair of an accepted subscriber. -/
theorem Accepted.pair_iff (h : Accepted setting.objects s) {topic subTag : CStr} :
    PairOf setting.objects s topic subTag ↔
      topic = setting.objects.topicText s ∧ subTag = setting.objects.tagText s := by
  unfold PairOf
  rw [h.topic, h.subTag, utf8_ascii h.sendable.ascii.1, utf8_ascii h.sendable.ascii.2, CStr.ext_iff,
    CStr.ext_iff]

end Texts

section Steps

variable {setting : Setting} {cv cv' : Conversation} {toggles : List Nat} {s : Nat}

theorem InTouch.init (h : Connected setting cv) : InTouch setting cv [] := by
  obtain ⟨b, draws, addr, hb, hacc⟩ := h.broker
  refine ⟨?_, by simp, ⟨fun _ => False, fun s => by simp, ?_⟩, [], h.wire, ?_⟩
  · rw [h.system]
    exact Follows.init
  · exact (Serving.accept hb hacc).congr fun i => by simp
  · rw [h.system]
    exact .nil

/-- A step of the client that sends nothing. -/
theorem InTouch.act (h : InTouch setting cv toggles) {a : Action}
    (hcall : ∀ c sends, a ≠ .call c sends) (hanswer : ∀ frame, a ≠ .answer frame)
    (hstep : cv.act setting a = some cv') (htimely : timely cv.system a = true) :
    InTouch setting cv' toggles := by
  obtain ⟨st', hst, rfl⟩ := Option.map_eq_some_iff.mp hstep
  obtain ⟨hfollows, hsame⟩ := h.follows.act hcall hanswer hst htimely
  refine ⟨hfollows, h.accepted, ?_, ?_⟩
  · show ∃ held, Shows held toggles (toggles.length - st'.toBroker.length) ∧ _
    rw [hsame]
    exact h.serving
  · show ∃ pieces, cv.wire = _ ∧ List.Forall₂ _ st'.toBroker pieces
    rw [hsame]
    exact h.wire

/-- The requests under way are not more than all requests. -/
theorem InTouch.length_le (h : InTouch setting cv toggles) :
    cv.system.toBroker.length ≤ toggles.length := by
  have hlen := congrArg List.length h.follows.inStep.order
  rw [List.length_append, List.length_map, List.length_drop, List.length_range, h.follows.sent,
    List.length_map] at hlen
  omega

/-- A request that is written and received as what it is. -/
theorem InTouch.request (h : InTouch setting cv toggles) {c : Call} {bytes : List Byte}
    (hprepare : cv.system.client.prepare setting.objects c = .sends)
    (hfollows : Follows setting.objects (cv.system.call setting.objects c true) (toggles ++ [s]))
    (haccepted : Accepted setting.objects s)
    (hwritten : ∀ n, Written setting.objects ⟨n, c⟩ bytes) :
    InTouch setting ⟨cv.system.call setting.objects c true, cv.wire ++ bytes, cv.broker⟩
      (toggles ++ [s]) := by
  have hbroker : (cv.system.call setting.objects c true).toBroker =
      cv.system.toBroker ++ [⟨cv.system.sent.length, c⟩] := by
    simp [System.call, hprepare]
  refine ⟨hfollows, ?_, ?_, ?_⟩
  · intro x hx
    rcases List.mem_append.mp hx with hx | hx
    · exact h.accepted x hx
    · rw [List.mem_singleton.mp hx]
      exact haccepted
  · obtain ⟨held, hshown, hserving⟩ := h.serving
    have hcount : (toggles ++ [s]).length -
        (cv.system.call setting.objects c true).toBroker.length =
        toggles.length - cv.system.toBroker.length := by
      rw [hbroker, List.length_append, List.length_append]
      exact Nat.add_sub_add_right _ 1 _
    refine ⟨held, ?_, hserving⟩
    show Shows held (toggles ++ [s]) (_ - (cv.system.call setting.objects c true).toBroker.length)
    rw [hcount]
    exact hshown.append (Nat.sub_le _ _) [s]
  · obtain ⟨pieces, hwire, hpieces⟩ := h.wire
    refine ⟨pieces ++ [bytes], ?_, ?_⟩
    · show cv.wire ++ bytes = _
      rw [hwire]
      simp
    · show List.Forall₂ _ (cv.system.call setting.objects c true).toBroker _
      rw [hbroker]
      exact List.rel_append hpieces (.cons (hwritten _) .nil)

/-- A call does nothing, or writes its frame and makes its request when that returns. -/
theorem call_cases {c : Call} {frame : Frame} (hstep : cv.call setting c frame = some cv') :
    cv' = cv ∨ cv.system.caller = .idle ∧ cv.system.client.prepare setting.objects c = .sends ∧
      cv' = ⟨cv.system.call setting.objects c (frame.writeTo setting.order).2,
        cv.wire ++ (frame.writeTo setting.order).1, cv.broker⟩ := by
  have hidle : ∀ {done st'}, cv.system.step setting.objects (.call c done) = some st' →
      cv.system.caller = .idle ∧ st' = cv.system.call setting.objects c done := by
    intro done st' hst
    cases step_cases hst with
    | call _ _ hcaller => exact ⟨hcaller, rfl⟩
  unfold Conversation.call at hstep
  cases hprepare : cv.system.client.prepare setting.objects c with
  | sends =>
      rw [hprepare] at hstep
      obtain ⟨st', hst, rfl⟩ := Option.map_eq_some_iff.mp hstep
      obtain ⟨hcaller, rfl⟩ := hidle hst
      exact .inr ⟨hcaller, rfl, rfl⟩
  | throws =>
      rw [hprepare] at hstep
      obtain ⟨st', hst, rfl⟩ := Option.map_eq_some_iff.mp hstep
      obtain ⟨-, rfl⟩ := hidle hst
      simp [System.call, hprepare]
  | returns =>
      rw [hprepare] at hstep
      obtain ⟨st', hst, rfl⟩ := Option.map_eq_some_iff.mp hstep
      obtain ⟨-, rfl⟩ := hidle hst
      simp [System.call, hprepare]

/-- The frame of an accepted subscriber is written and received. -/
theorem Accepted.written (h : Accepted setting.objects s) (operation : Operation) (now : Instant) :
    let written := (subscriberFrame operation now (setting.objects.subTopicOf s)
      (setting.objects.subTagOf s)).writeTo setting.order
    written.2 = true ∧ ∀ (now : Timestamp) (rest : List Byte), ∃ req,
      decode now (written.1 ++ rest) = some (.ok, req, rest) ∧
        Asks req operation (setting.objects.topicText s) (setting.objects.tagText s) := by
  rw [h.topic, h.subTag]
  exact request_received h.sendable operation now setting.order

theorem InTouch.sub (h : InTouch setting cv toggles) {now : Instant}
    (hstep : cv.call setting (.sub s) (buildSubFrame now (setting.objects.subTopicOf s)
      (setting.objects.subTagOf s)) = some cv') (haccepted : Accepted setting.objects s) :
    ∃ toggles', InTouch setting cv' toggles' := by
  rcases call_cases hstep with rfl | ⟨hidle, hprepare, rfl⟩
  · exact ⟨toggles, h⟩
  · obtain ⟨hdone, hwritten⟩ := haccepted.written .sub now
    unfold buildSubFrame
    rw [hdone]
    exact ⟨_, h.request hprepare (h.follows.sub hidle hprepare) haccepted fun _ => hwritten⟩

theorem InTouch.unsub (h : InTouch setting cv toggles) {now : Instant}
    (hstep : cv.call setting (.unsub s) (buildUnsubFrame now (setting.objects.subTopicOf s)
      (setting.objects.subTagOf s)) = some cv')
    (hown : ∀ s', cv.system.client.subs.find (setting.objects.identifier s) = some s' → s' = s) :
    ∃ toggles', InTouch setting cv' toggles' := by
  rcases call_cases hstep with rfl | ⟨hidle, hprepare, rfl⟩
  · exact ⟨toggles, h⟩
  · have hon := h.follows.unsub_on hidle hprepare hown
    have haccepted := h.accepted s (mem_of_isOn hon)
    obtain ⟨hdone, hwritten⟩ := haccepted.written .unsub now
    unfold buildUnsubFrame
    rw [hdone]
    exact ⟨_, h.request hprepare (h.follows.unsub hidle hprepare hon) haccepted fun _ => hwritten⟩

theorem AsksFor.asks {objects : Objects} {req : Bpsp.Frame} {c : Call} (h : AsksFor objects req c) :
    ∃ operation topic subTag, Asks req operation topic subTag := by
  cases c with
  | pub p => exact h.elim
  | sub s => exact ⟨_, _, _, h⟩
  | unsub s => exact ⟨_, _, _, h⟩

/-- The keys of what is on are as different as the identifiers. -/
theorem InTouch.separated (h : InTouch setting cv toggles) :
    Separated setting.objects.tableKey toggles := by
  have haccepted : ∀ {n x}, isOn (toggles.take n) x = true → Accepted setting.objects x :=
    fun hx => h.accepted _ (List.mem_of_mem_take (mem_of_isOn hx))
  intro n x y hx hy hkey
  exact h.follows.separated n x y hx hy (identifier_of_tableKey (haccepted hx) (haccepted hy) hkey)

/-- The broker that serves the next request applies the next toggle. -/
theorem serving_toggle {b : Broker} {held : Nat → Prop} {n : Nat} {c : Call} {req : Bpsp.Frame}
    (hserving : Serving b setting.connection fun i => ∃ s, held s ∧ i = setting.objects.tableKey s)
    (hshown : Shows held toggles n) (haccepted : ∀ s ∈ toggles, Accepted setting.objects s)
    (hseparated : Separated setting.objects.tableKey toggles) (hissued : Issued toggles n c)
    (hasks : AsksFor setting.objects req c) (env : Env) :
    ∃ b' msg, handleInFrame env b setting.connection req =
        (handleReply env setting.connection req .ok msg []).map (fun r => ⟨r.1, b', r.2⟩) ∧
      msg.length ≤ 100 ∧ ∃ held', Shows held' toggles (n + 1) ∧
        Serving b' setting.connection fun i => ∃ s, held' s ∧ i = setting.objects.tableKey s := by
  cases hissued with
  | @sub s hs hoff =>
      have hs' := haccepted s (List.mem_of_getElem? hs)
      have hasks' : Asks req .sub _ _ := hasks
      have hnew : ¬ ∃ x, held x ∧ setting.objects.tableKey s = setting.objects.tableKey x := by
        rintro ⟨x, hx, heq⟩
        exact hseparated.ne hs hoff ((hshown x).mp hx) heq.symm
      obtain ⟨b', msg, hrun, hmsg, hserving'⟩ := hserving.sub hasks'.received hasks'.topic
        hasks'.subTag hasks'.opcode hs'.levels hs'.tag_plain hnew env
      refine ⟨b', msg, hrun, hmsg, _, hshown.switch_on hs hoff, hserving'.congr fun i => ?_⟩
      constructor
      · rintro (⟨x, hx, rfl⟩ | rfl)
        · exact ⟨x, .inl hx, rfl⟩
        · exact ⟨s, .inr rfl, rfl⟩
      · rintro ⟨x, hx | rfl, rfl⟩
        · exact .inl ⟨x, hx, rfl⟩
        · exact .inr rfl
  | @unsub s hs hon =>
      have hasks' : Asks req .unsub _ _ := hasks
      have hold : ∃ x, held x ∧ setting.objects.tableKey s = setting.objects.tableKey x :=
        ⟨s, (hshown s).mpr hon, rfl⟩
      obtain ⟨b', msg, hrun, hmsg, hserving'⟩ := hserving.unsub hasks'.received hasks'.topic
        hasks'.subTag hasks'.opcode hold env
      refine ⟨b', msg, hrun, hmsg, _, hshown.switch_off hs hon, hserving'.congr fun i => ?_⟩
      constructor
      · rintro ⟨⟨x, hx, rfl⟩, hne⟩
        exact ⟨x, ⟨hx, fun heq => hne (congrArg _ heq)⟩, rfl⟩
      · rintro ⟨x, ⟨hx, hne⟩, rfl⟩
        exact ⟨⟨x, hx, rfl⟩, fun heq => hne (hseparated n x s ((hshown x).mp hx) hon heq)⟩

/-- The stream starts with the oldest request, which makes the next toggle. -/
theorem InTouch.next_request (h : InTouch setting cv toggles) {r : Request} {rest : List Request}
    (hbroker : cv.system.toBroker = r :: rest) :
    Issued toggles (toggles.length - (rest.length + 1)) r.call ∧
      ∃ pieces, List.Forall₂ (Written setting.objects) rest pieces ∧ ∀ now, ∃ req,
        decode now cv.wire = some (.ok, req, pieces.flatten) ∧ AsksFor setting.objects req r.call := by
  obtain ⟨pieces, hwire, hpieces⟩ := h.wire
  have hnumber := h.follows.inStep.number_eq hbroker
  rw [h.follows.sent, List.length_map, hbroker, List.length_cons] at hnumber
  refine ⟨hnumber ▸ h.follows.requests r (hbroker ▸ List.mem_cons_self), ?_⟩
  rw [hbroker] at hpieces
  cases hpieces with
  | @cons _ piece _ pieces hpiece hpieces =>
      refine ⟨pieces, hpieces, fun now => ?_⟩
      rw [hwire]
      exact hpiece now pieces.flatten

/-- A turn of the broker in which a request is answered by one frame. -/
theorem serve_answered {service : Service} (hkernel : service.kernel.Reliable) {req reply : Bpsp.Frame}
    {rest : List Byte} {frame : Frame} {b' : Broker} {client : Bpsp.Client} {st' : System}
    (hdecode : decode service.received cv.wire = some (.ok, req, rest))
    (hclient : cv.broker.heap.get setting.connection = some client)
    (hout : handleInFrame service.env cv.broker setting.connection req =
      some ⟨.ok, b', [(setting.connection, reply)]⟩)
    (hcarried : carried setting.charset setting.big service.kernel service.read reply = some frame)
    (hst : cv.system.arrive setting.objects frame = some st') :
    cv.serve setting service = some ⟨st', rest, b'⟩ := by
  have hrecv : outcome (recv setting.big service.kernel service.received ⟨cv.wire, [], 0, 0⟩) =
      some (.ok, req, rest) := (outcome_eq hkernel.recv _ _ _).trans hdecode
  have hstep : Bpsp.step cv.broker (.request service.env setting.connection req) = some b' := by
    simp [Bpsp.step, hclient, hout]
  have hdeliver : Conversation.deliver setting service cv.system [(setting.connection, reply)] =
      some st' := by
    simp [Conversation.deliver, hcarried, hst]
  simp [Conversation.serve, hrecv, hout, hstep, hdeliver]

/-- The broker serves the oldest request, and its OK is on the way. -/
theorem InTouch.serve (h : InTouch setting cv toggles) {service : Service}
    (hkernel : service.kernel.Reliable) (hio : service.env.io 0 = .ok)
    (hrequests : cv.system.toBroker ≠ []) :
    ∃ cv', cv.serve setting service = some cv' ∧ InTouch setting cv' toggles := by
  obtain ⟨r, rest, hbroker⟩ := List.exists_cons_of_ne_nil hrequests
  obtain ⟨hissued, pieces, hpieces, hreceives⟩ := h.next_request hbroker
  obtain ⟨req, hdecode, hasks⟩ := hreceives service.received
  obtain ⟨held, hshown, hserving⟩ := h.serving
  have hlen := h.length_le
  rw [hbroker, List.length_cons] at hshown hlen
  -- the broker does what the request asks
  obtain ⟨b', msg, hrun, hmsg, held', hshown', hserving'⟩ :=
    serving_toggle hserving hshown h.accepted h.separated hissued hasks service.env
  -- and its reply reaches the client
  obtain ⟨operation, topic, subTag, hasks'⟩ := hasks.asks
  obtain ⟨reply, frame, hreply, hcarried, hok⟩ := @reply_carried _ _ _ _ _ _ setting.connection
    hasks' hio service.ascii hmsg _ setting.decodes setting.big _ hkernel service.read
  obtain ⟨st', hst, hrest, hfollows⟩ := h.follows.answer hbroker hok
  have hout : handleInFrame service.env cv.broker setting.connection req =
      some ⟨.ok, b', [(setting.connection, reply)]⟩ := by
    rw [hrun, hreply]
    rfl
  have harrive : cv.system.arrive setting.objects frame = some st' := by
    rw [System.arrive, if_pos (by simp [isReply, hok]), hst]
  obtain ⟨client, hclient, -⟩ := hserving.table
  refine ⟨_, serve_answered hkernel hdecode hclient hout hcarried harrive, hfollows, h.accepted,
    ⟨held', ?_, hserving'⟩, pieces, rfl, ?_⟩
  · show Shows held' toggles (toggles.length - st'.toBroker.length)
    rw [hrest]
    rwa [show toggles.length - rest.length = toggles.length - (rest.length + 1) + 1 by omega]
  · show List.Forall₂ _ st'.toBroker pieces
    rw [hrest]
    exact hpieces

/-- Without a request the broker waits. -/
theorem InTouch.serve_none (h : InTouch setting cv toggles) {service : Service}
    (hkernel : service.kernel.Reliable) (hrequests : cv.system.toBroker = []) :
    cv.serve setting service = none := by
  obtain ⟨pieces, hwire, hpieces⟩ := h.wire
  rw [hrequests, List.forall₂_nil_left_iff] at hpieces
  have hrecv : outcome (recv setting.big service.kernel service.received ⟨cv.wire, [], 0, 0⟩) =
      some (.connectionClosed, new, []) := by
    rw [outcome_eq hkernel.recv, hwire, hpieces]
    rfl
  simp [Conversation.serve, hrecv]

/-- What the broker does for others. -/
theorem InTouch.other (h : InTouch setting cv toggles) {ev : Event} {b' : Broker}
    (hstep : Bpsp.step cv.broker ev = some b') (hne : ev.client cv.broker ≠ setting.connection) :
    InTouch setting { cv with broker := b' } toggles := by
  obtain ⟨held, hshown, hserving⟩ := h.serving
  exact ⟨h.follows, h.accepted, ⟨held, hshown, hserving.other hstep hne⟩, h.wire⟩

/-- A careful turn keeps client and broker in touch. -/
theorem InTouch.step (h : InTouch setting cv toggles) {t : Turn} (hcareful : Careful setting cv t)
    (hstep : cv.step setting t = some cv') : ∃ toggles', InTouch setting cv' toggles' := by
  have hact : ∀ {a}, (∀ c sends, a ≠ .call c sends) → (∀ frame, a ≠ .answer frame) →
      timely cv.system a = true → cv.act setting a = some cv' → InTouch setting cv' toggles :=
    fun hcall hanswer htimely hact => h.act hcall hanswer hact htimely
  cases t with
  | sub s now => exact h.sub hstep hcareful
  | unsub s now => exact h.unsub hstep hcareful
  | enqueue => exact ⟨toggles, hact (by simp) (by simp) rfl hstep⟩
  | record => exact ⟨toggles, hact (by simp) (by simp) rfl hstep⟩
  | receive => exact ⟨toggles, hact (by simp) (by simp) rfl hstep⟩
  | process => exact ⟨toggles, hact (by simp) (by simp) hcareful hstep⟩
  | push frame => exact ⟨toggles, hact (by simp) (by simp) rfl hstep⟩
  | serve service =>
      obtain ⟨hkernel, hio⟩ := hcareful
      have hserve : cv.serve setting service = some cv' := hstep
      by_cases hrequests : cv.system.toBroker = []
      · rw [h.serve_none hkernel hrequests] at hserve
        cases hserve
      · obtain ⟨cv'', hserve', h'⟩ := h.serve hkernel hio hrequests
        rw [hserve'] at hserve
        exact ⟨toggles, Option.some.inj hserve ▸ h'⟩
  | other ev =>
      simp only [Conversation.step] at hstep
      split_ifs at hstep with hne
      obtain ⟨b', hb', rfl⟩ := Option.map_eq_some_iff.mp hstep
      exact ⟨toggles, h.other hb' hne⟩

/-- In a careful conversation client and broker stay in touch. -/
theorem Talk.inTouch {start : Conversation} (hstart : Connected setting start)
    (htalk : Talk setting (Careful setting) start cv) : ∃ toggles, InTouch setting cv toggles := by
  induction htalk with
  | refl => exact ⟨[], InTouch.init hstart⟩
  | step talk meets turn ih =>
      obtain ⟨toggles, h⟩ := ih
      exact h.step meets turn

/-- What is registered when nothing is under way. -/
theorem InTouch.registered_iff (h : InTouch setting cv toggles) (hquiet : Quiet cv)
    {topic subTag : CStr} : Registered cv.broker setting.connection topic subTag ↔
      ∃ s, isOn toggles s = true ∧ PairOf setting.objects s topic subTag := by
  obtain ⟨held, hshown, hserving⟩ := h.serving
  rw [hquiet.requests, List.length_nil, Nat.sub_zero] at hshown
  have hheld : ∀ s, held s ↔ isOn toggles s = true := by
    intro s
    rw [hshown s, List.take_length]
  have haccepted : ∀ {s}, isOn toggles s = true → Accepted setting.objects s :=
    fun hs => h.accepted _ (mem_of_isOn hs)
  constructor
  · intro hreg
    have hplain := hserving.tag_plain hreg
    obtain ⟨s, hs, heq⟩ := (hserving.registered_iff hplain).mp hreg
    have hs' := (hheld s).mp hs
    have hpair := make_identifier_injective hplain (haccepted hs').tag_plain heq
    exact ⟨s, hs', (haccepted hs').pair_iff.mpr hpair⟩
  · rintro ⟨s, hs, hpair⟩
    obtain ⟨rfl, rfl⟩ := (haccepted hs).pair_iff.mp hpair
    exact (hserving.registered_iff (haccepted hs).tag_plain).mpr ⟨s, (hheld s).mpr hs, rfl⟩

theorem InTouch.agrees (h : InTouch setting cv toggles) (hquiet : Quiet cv) : Agrees setting cv := by
  obtain ⟨hmap, hrunning⟩ := h.follows.quiet hquiet.caller hquiet.requests hquiet.replies
  have hregistered : ∀ {s}, isOn toggles s = true → RegisteredFor setting cv s := by
    intro s hs
    have hpair := (h.accepted s (mem_of_isOn hs)).pair_iff.mpr ⟨rfl, rfl⟩
    exact ⟨_, _, hpair, (h.registered_iff hquiet).mpr ⟨s, hs, hpair⟩⟩
  refine ⟨fun topic subTag => ?_, fun s => ?_, fun s halone => ?_⟩
  · rw [h.registered_iff hquiet]
    constructor
    · rintro ⟨s, hs, hpair⟩
      exact ⟨_, (hmap.mem_iff (setting.objects.identifier s, s)).mpr ⟨rfl, hs⟩, hpair⟩
    · rintro ⟨e, he, hpair⟩
      exact ⟨e.2, ((hmap.mem_iff e).mp he).2, hpair⟩
  · rw [hrunning, hmap.find_iff]
    exact ⟨fun hs => ⟨hs, hregistered hs⟩, fun hs => hs.1⟩
  · rw [hrunning]
    refine ⟨hregistered, ?_⟩
    rintro ⟨topic, subTag, hpair, hreg⟩
    obtain ⟨s', hs', hpair'⟩ := (h.registered_iff hquiet).mp hreg
    exact halone s' topic subTag hpair hpair' ▸ hs'

end Steps

/-- In every conversation whose turns are all careful, the map, the flags and the broker agree when
all requests and replies have been processed. -/
theorem conversation_agrees {setting : Setting} {start cv : Conversation}
    (hstart : Connected setting start) (htalk : Talk setting (Careful setting) start cv)
    (hquiet : Quiet cv) : Agrees setting cv := by
  obtain ⟨toggles, h⟩ := htalk.inTouch hstart
  exact h.agrees hquiet

section Runs

variable (setting : Setting) (P : Conversation → Turn → Prop)

/-- Takes turns one after another. -/
def Conversation.run (cv : Conversation) : List Turn → Option Conversation
  | [] => some cv
  | t :: rest => (cv.step setting t).bind fun cv => cv.run rest

/-- Every turn meets the condition when it is taken. -/
def Meets (cv : Conversation) : List Turn → Prop
  | [] => True
  | t :: rest => P cv t ∧ ∀ cv', cv.step setting t = some cv' → Meets cv' rest

variable {setting P} {start cv cv' : Conversation}

theorem Talk.trans (h : Talk setting P start cv) (h' : Talk setting P cv cv') :
    Talk setting P start cv' := by
  induction h' with
  | refl => exact h
  | step _ meets turn ih => exact ih.step meets turn

theorem talk_of_run {turns : List Turn} : ∀ {cv : Conversation}, cv.run setting turns = some cv' →
    Meets setting P cv turns → Talk setting P cv cv' := by
  induction turns with
  | nil =>
      intro cv hrun _
      obtain rfl := Option.some.inj hrun
      exact .refl
  | cons t turns ih =>
      intro cv hrun hmeets
      obtain ⟨cv₁, hstep, hrun⟩ := Option.bind_eq_some_iff.mp hrun
      exact (Talk.refl.step hmeets.1 hstep).trans (ih hrun (hmeets.2 cv₁ hstep))

end Runs

/-- Every subscriber has this topic and the tag `t`. -/
def subscribersTo (topic : String) : Objects :=
  ⟨fun _ => [], fun _ => ascii (CStr.ofString topic).bytes, fun _ => ascii [116]⟩

/-- The first client of a broker, with these subscribers. -/
def firstClient (topic : String) : Setting :=
  ⟨subscribersTo topic, fun _ => show 47 ∉ ascii [116] by decide, inserted, ascii, fun _ _ => rfl, false, 0⟩

/-- A broker that has accepted its first client. -/
def firstBroker : Broker :=
  ((brokerAccept Broker.init [firstId] firstAddr).map Prod.fst).getD Broker.init

/-- Nothing fails while the broker serves a request. -/
def calmly : Service :=
  ⟨calm, ⟨fun _ => some 100, fun _ => some 100⟩, newYear, firstSecond, by decide +kernel⟩

/-- A call of `sub` up to the reply. -/
def subscribed : List Turn :=
  [.sub 0 firstSecond, .enqueue, .record, .serve calmly, .receive, .process]

theorem connected_first (topic : String) : Connected (firstClient topic) ⟨.init, [], firstBroker⟩ :=
  ⟨rfl, rfl, Broker.init, [firstId], firstAddr, Run.refl, rfl⟩

/-- The conversation about a subscription to `a/b`. -/
theorem conversation_agrees_accepted : ∃ cv,
    (⟨.init, [], firstBroker⟩ : Conversation).run (firstClient "a/b") subscribed = some cv ∧
    cv.system.client.running (.subscriber 0) = true ∧ Agrees (firstClient "a/b") cv := by
  have hrun : ((⟨.init, [], firstBroker⟩ : Conversation).run (firstClient "a/b") subscribed).any
      (fun cv => decide (cv.system.caller = .idle ∧ cv.system.toBroker = [] ∧
        cv.system.arriving = [] ∧ cv.system.client.running (.subscriber 0) = true)) = true := by
    decide +kernel
  have htimely : ((⟨.init, [], firstBroker⟩ : Conversation).run (firstClient "a/b")
      (subscribed.take 5)).all (fun cv => timely cv.system .process) = true := by
    decide +kernel
  obtain ⟨cv, hcv, hseen⟩ := (Option.any_eq_true _ _).mp hrun
  obtain ⟨hcaller, hrequests, harriving, hrunning⟩ := of_decide_eq_true hseen
  have haccepted : Accepted (subscribersTo "a/b") 0 :=
    ⟨by decide +kernel, by decide +kernel, ⟨by decide +kernel, by decide +kernel, by decide +kernel,
      by decide +kernel⟩, by decide +kernel⟩
  have hreliable : calmly.kernel.Reliable := ⟨fun _ => ⟨99, rfl⟩, fun _ => ⟨99, rfl⟩⟩
  have hmeets : Meets (firstClient "a/b") (Careful (firstClient "a/b")) ⟨.init, [], firstBroker⟩
      subscribed := by
    -- only the condition of `process` depends on what the turns before it did
    refine ⟨haccepted, fun cv₁ h₁ => ⟨trivial, fun cv₂ h₂ => ⟨trivial, fun cv₃ h₃ =>
      ⟨⟨hreliable, rfl⟩, fun cv₄ h₄ => ⟨trivial, fun cv₅ h₅ => ⟨?_, fun _ _ => trivial⟩⟩⟩⟩⟩⟩
    have hfive : (⟨.init, [], firstBroker⟩ : Conversation).run (firstClient "a/b")
        (subscribed.take 5) = some cv₅ := by
      simp [subscribed, Conversation.run, h₁, h₂, h₃, h₄, h₅]
    rw [hfive] at htimely
    exact htimely
  have hquiet : Quiet cv := ⟨hcaller, hrequests, by simp [harriving]⟩
  exact ⟨cv, hcv, hrunning,
    conversation_agrees (connected_first "a/b") (talk_of_run hcv hmeets) hquiet⟩

/-- The conversation about a subscription to `/a`, which the tree refuses: the map has it and the
subscriber is running, although nothing is registered. -/
theorem conversation_agrees_refused : ∃ cv, Connected (firstClient "/a") ⟨.init, [], firstBroker⟩ ∧
    Talk (firstClient "/a") (fun _ _ => True) ⟨.init, [], firstBroker⟩ cv ∧ Quiet cv ∧
    cv.system.client.subs = [((subscribersTo "/a").identifier 0, 0)] ∧
    cv.system.client.running (.subscriber 0) = true ∧ ¬ RegisteredFor (firstClient "/a") cv 0 ∧
    ¬ Agrees (firstClient "/a") cv := by
  have hrun : ((⟨.init, [], firstBroker⟩ : Conversation).run (firstClient "/a") subscribed).any
      (fun cv => decide (cv.system.caller = .idle ∧ cv.system.toBroker = [] ∧
        cv.system.arriving = [] ∧
        cv.system.client.subs = [((subscribersTo "/a").identifier 0, 0)] ∧
        cv.system.client.running (.subscriber 0) = true ∧ cv.broker.store.subs.next = 1 ∧
        (cv.broker.store.subs.get 0).all (fun s => s.pattern.isNone) = true)) = true := by
    decide +kernel
  obtain ⟨cv, hcv, hseen⟩ := (Option.any_eq_true _ _).mp hrun
  obtain ⟨hcaller, hrequests, harriving, hsubs, hrunning, hnext, hpattern⟩ :=
    of_decide_eq_true hseen
  have hnot : ¬ RegisteredFor (firstClient "/a") cv 0 := by
    -- there is one subscriber object, and it has no place in the tree
    rintro ⟨topic, subTag, -, p, s, ⟨s', pat, x, node, hs', hpat, -⟩, -⟩
    have hp : p = 0 := by
      by_contra hne
      have hfree : cv.broker.store.subs.get p = none :=
        cv.broker.store.subs.fresh p (by rw [hnext]; exact Nat.pos_of_ne_zero hne)
      rw [hfree] at hs'
      cases hs'
    rw [← hp, hs'] at hpattern
    simp [hpat] at hpattern
  have hmeets : Meets (firstClient "/a") (fun _ _ => True) ⟨.init, [], firstBroker⟩ subscribed := by
    simp [subscribed, Meets]
  exact ⟨cv, connected_first "/a", talk_of_run hcv hmeets, ⟨hcaller, hrequests, by simp [harriving]⟩,
    hsubs, hrunning, hnot, fun h => hnot ((h.running 0).mp hrunning).2⟩

end Bpsp.Java
