import Bpsp.Publisher
import Bpsp.Server.Publishing
import Bpsp.Server.Skip

/-!
# From the keyboard of a publisher to the screens of the subscribers

The publisher and the subscribers of `tools/bpsp.c` and the broker between them, put together over
their connections. `session_reported` is the result: what is typed at the publisher appears, in
order and as it was typed, on the screen of every subscriber for each of its subscriptions that
accepts the topic, and the publisher is told that it was published.

The broker serves the publisher alone meanwhile; `Bpsp.Server.Publishing` is about other threads.
-/

namespace Bpsp

open CLib Net Topic Bpsp.Frame

/-- What one turn of a client's loop takes from its surroundings: the time at which the frame comes
in, and what its handler takes. -/
structure Round where
  now : Timestamp
  env : Env

/-- Turns of `handle__client_loop`: a frame is read and handled. -/
def clientLoop (big : Bool) (kernel : Kernel) (a : Addr) :
    List Round → Broker → Conn → Exec (Status × Broker × Sent × Conn)
  | [], b, conn => some (.ok, b, [], conn)
  | round :: rounds, b, conn => do
      let (s, req, conn) ← recv big kernel round.now conn
      if s ≠ .ok then some (s, b, [], conn)
      else do
        let out ← handleInFrame round.env b a req
        if out.status ≠ .ok then some (out.status, out.broker, out.sent, conn)
        else do
          let (s, b, sent, conn) ← clientLoop big kernel a rounds out.broker conn
          some (s, b, out.sent ++ sent, conn)

/-- The frames for the client at `x`. -/
def framesTo (x : Addr) (sent : Sent) : List Frame := (sent.filter fun e => e.1 = x).map (·.2)

/-- What a search for the topic finds. -/
def found (b : Broker) (topic : CStr) : List Subscriber :=
  ((treeFindSubscribers b.store topic).join).getD []

/-- What the tool printed of messages. -/
def reports (handled : List Tool.Handled) : List Tool.Report :=
  handled.filterMap fun
    | .reply _ => none
    | .message _ report => some report

/-- What appears on the screen of the client at `x` when the client `c` publishes these entries. -/
def screen (b : Broker) (c : Client) (x : Addr) (es : List Tool.Entry) : List Tool.Report :=
  es.flatMap fun e => ((found b e.topic).filter fun p => p.client = x).map fun p =>
    ⟨c.addr.text, p.getTopic, e.text.length, e.text⟩

/-- A header value that comes through the wire as it is and leaves room for the others. -/
structure Portable (s : CStr) : Prop where
  length_ne : s.length ≠ 0
  plain : Plain s
  length_le : s.length ≤ 16000

/-- Nothing gets in the way of what the client publishes to these topics: they are valid, and what
goes into the headers of a message is portable. -/
structure Ready (b : Broker) (c : Client) (topics : List CStr) : Prop where
  source : Plain c.addr.text
  subscriptions : ∀ {p s}, InTree b p → b.store.subs.get p = some s →
    Portable s.subTag ∧ Portable s.getTopic
  levels : ∀ topic ∈ topics, (levels topic).isSome
  topics : ∀ topic ∈ topics, Portable topic

/-- The frames are handed to the kernel as these bytes. -/
def Carried (big : Bool) (kernel : Kernel) (frames : List Frame) (bytes : List Byte) : Prop :=
  ∃ conn, sendAll big kernel ⟨[], [], 0, 0⟩ frames = some (.ok, conn) ∧ conn.outbox = bytes

/-- A message that was built and fits on the wire. -/
structure Posted where
  now : Timestamp
  message : Message
  fits : encSize (put message.headers xTime now.text) ≤ 65535

/-- The frame that is sent. -/
def Posted.frame (m : Posted) : Frame := completed m.now m.message

/-- Its bytes, from a host with this byte order. -/
def Posted.bytes (big : Bool) (m : Posted) : List Byte := wire big m.now m.message

/-- A message that the tool prints. -/
structure Shown extends Posted where
  report : Tool.Report
  print : ∀ now', Tool.print (completed now' message) = some report

/-- The headers of a request. -/
def requestTable (topic : CStr) (now : Timestamp) : Table := [(xTopic, topic), (xTime, now.text)]

theorem put_topic (topic : CStr) (now : Timestamp) :
    put [(xTopic, topic)] xTime now.text = requestTable topic now :=
  put_of_not_mem _ (show xTime ∉ [xTopic] by decide)

theorem encSize_requestTable (topic : CStr) (now : Timestamp) :
    encSize (requestTable topic now) = topic.length + 50 := by
  simp only [requestTable, encSize_cons, encSize_nil, xTime_length, now.length_eq,
    show xTopic.length = 7 by decide]
  omega

theorem wellFormed_requestTable {topic : CStr} (htopic : topic.length ≠ 0) (now : Timestamp) :
    WellFormed (requestTable topic now) := by
  rw [← put_topic]
  exact (WellFormed.put WellFormed.nil (show xTopic.length ≠ 0 by decide) htopic).put (by decide)
    (Timestamp.length_ne now)

theorem plain_requestTable {topic : CStr} (htopic : Plain topic) (now : Timestamp) :
    ∀ x ∈ requestTable topic now, Plain x.1 ∧ Plain x.2 := by
  simp only [requestTable, List.forall_mem_cons, List.not_mem_nil, false_implies, implies_true,
    and_true]
  exact ⟨⟨by decide, htopic⟩, by decide, time_plain now⟩

/-- The time of a request is replaced. -/
theorem put_requestTable (topic : CStr) (now now' : Timestamp) :
    put (requestTable topic now) xTime now'.text = requestTable topic now' := by
  rw [← put_topic, put_put, put_topic]

/-- A request is a message on the wire. -/
theorem entry_message {e : Tool.Entry} (htopic : Portable e.topic)
    (htext : e.text.length < 2 ^ 32) :
    ∃ m : Message, m.headers = [(xTopic, e.topic)] ∧
      (∀ now, completed now m = e.frame now) ∧ ∀ big now, wire big now m = e.bytes now := by
  have hlen := htopic.length_le
  have hwf : WellFormed [(xTopic, e.topic)] :=
    ⟨by simp [HashTable.keys], by simp [HashTable.keys, show xTopic.length ≠ 0 by decide],
      by simpa using htopic.length_ne⟩
  have hsize : encSize [(xTopic, e.topic)] = e.topic.length + 12 := by
    simp only [encSize_cons, encSize_nil, show xTopic.length = 7 by decide]
    omega
  obtain ⟨m, hm⟩ : ∃ m : Message, m = ⟨opPub, flAck, e.text.bytes, [(xTopic, e.topic)], by decide,
      htext, hwf, by simpa using ⟨show Plain xTopic by decide, htopic.plain⟩, by omega⟩ := ⟨_, rfl⟩
  have hframe : ∀ now, completed now m = e.frame now := by
    intro now
    subst hm
    have hmod : encSize (requestTable e.topic now) = e.topic.length % 65536 + 50 := by
      rw [encSize_requestTable, Nat.mod_eq_of_lt (by omega)]
    simp only [completed, Tool.Entry.frame, put_topic, hmod]
    rfl
  refine ⟨m, by rw [hm], hframe, fun big now => ?_⟩
  rw [wire, hframe]
  subst hm
  -- the byte order of the host makes no difference
  simp [put_topic, requestTable, encode, Tool.Entry.bytes, fixedHeader, Datatype.e16_eq,
    Datatype.e32_eq]

section Publishing

variable {b : Broker} {a : Addr} {c : Client} {topics : List CStr}

theorem found_eq {topic : CStr} {subs : List Subscriber}
    (h : treeFindSubscribers b.store topic = some (some subs)) : found b topic = subs := by
  rw [found, h]
  rfl

/-- What a search finds are the subscribers whose pattern accepts the topic. -/
theorem found_matching (hb : Reachable b) {topic : CStr} (hlevels : (levels topic).isSome) :
    ∃ toks, levels topic = some toks ∧ Matching b toks (found b topic) := by
  obtain ⟨R, h⟩ := hb.inv
  obtain ⟨toks, htoks⟩ := Option.isSome_iff_exists.mp hlevels
  obtain ⟨subs, hfind, hmatch⟩ := matching_found h htoks
  exact ⟨toks, htoks, by rwa [found_eq hfind]⟩

/-- Subscribers that are found have portable tags and topics. -/
theorem Ready.portable (h : Ready b c topics) {toks : List CStr} {subs : List Subscriber}
    (hmatch : Matching b toks subs) {p : Subscriber} (hp : p ∈ subs) :
    Portable p.subTag ∧ Portable p.getTopic := by
  obtain ⟨q, pat, hq, hget, -, -⟩ := (hmatch.mem_iff p).mp hp
  exact h.subscriptions hq hget

/-- There is room for the headers of all subscribers. -/
theorem Ready.roomy (h : Ready b c topics) {topic : CStr} (htopic : topic ∈ topics)
    {now : Timestamp} {toks : List CStr} {subs : List Subscriber} (hmatch : Matching b toks subs) :
    Roomy topic c.addr.text (requestTable topic now) subs := by
  intro p hp q hq
  have h₁ := (h.portable hmatch hp).1.length_le
  have h₂ := (h.portable hmatch hq).2.length_le
  have h₃ := (h.topics topic htopic).length_le
  have h₄ := c.addr.length_le
  simp only [encSize_requestTable, encSize_cons, encSize_nil, show xSubTag.length = 9 by decide,
    show xOriginTopic.length = 14 by decide, show xTopic.length = 7 by decide,
    show xFrom.length = 6 by decide]
  omega

/-- With room for all headers at once, they fit whoever is served before. -/
theorem all_fit {topic addr : CStr} {t : Table} {subs : List Subscriber}
    (hroom : Roomy topic addr t subs) : ∀ {rest : List Subscriber} {u : Table},
      (∀ p ∈ rest, p ∈ subs) → Loaded topic addr t subs u → AllFit topic addr u rest := by
  intro rest
  induction rest with
  | nil => exact fun _ _ => trivial
  | cons p rest ih =>
      intro u hmem hloaded
      rw [List.forall_mem_cons] at hmem
      exact ⟨hloaded.fits hroom hmem.1, ih hmem.2 (hloaded.served hmem.1)⟩

/-- The headers of a message are well formed and plain, and all of them fit. -/
theorem Ready.headers (h : Ready b c topics) {topic : CStr} (htopic : topic ∈ topics)
    {toks : List CStr} {subs : List Subscriber} (hmatch : Matching b toks subs) {p : Subscriber}
    (hp : p ∈ subs) (now : Timestamp) {t : Table}
    (ht : t = addressed topic c.addr.text (requestTable topic now) p) :
    WellFormed t ∧ (∀ x ∈ t, Plain x.1 ∧ Plain x.2) ∧ encSize t ≤ 65535 := by
  obtain ⟨htag, hpattern⟩ := h.portable hmatch hp
  have hportable := h.topics topic htopic
  have hsource : c.addr.text.length ≠ 0 := Nat.ne_of_gt c.addr.length_pos
  have hwf := wellFormed_requestTable hportable.length_ne now
  subst ht
  refine ⟨hwf.putAll fun x hx => ?_, fun x hx => ?_,
    ((loaded_start hwf.nodup hp).served hp).size (h.roomy htopic hmatch)⟩
  · simp only [subscriberHeaders, List.mem_cons, List.not_mem_nil, or_false] at hx
    rcases hx with rfl | rfl | rfl | rfl
    · exact ⟨show xSubTag.length ≠ 0 by decide, htag.length_ne⟩
    · exact ⟨show xOriginTopic.length ≠ 0 by decide, hportable.length_ne⟩
    · exact ⟨show xTopic.length ≠ 0 by decide, hpattern.length_ne⟩
    · exact ⟨show xFrom.length ≠ 0 by decide, hsource⟩
  · rcases mem_putAll hwf.nodup hx with hx | ⟨hx, -⟩
    · simp only [subscriberHeaders, List.mem_cons, List.not_mem_nil, or_false] at hx
      rcases hx with rfl | rfl | rfl | rfl
      · exact ⟨show Plain xSubTag by decide, htag.plain⟩
      · exact ⟨show Plain xOriginTopic by decide, hportable.plain⟩
      · exact ⟨show Plain xTopic by decide, hpattern.plain⟩
      · exact ⟨show Plain xFrom by decide, h.source⟩
    · exact plain_requestTable hportable.plain now x hx

/-- The message that a subscriber is sent, as one that is composed. -/
theorem Ready.message (h : Ready b c topics) {e : Tool.Entry} (htopic : e.topic ∈ topics)
    (htext : e.text.length < 2 ^ 32) {toks : List CStr} {subs : List Subscriber}
    (hmatch : Matching b toks subs) {p : Subscriber} (hp : p ∈ subs) (now now' : Timestamp) :
    ∃ m : Message, encSize (put m.headers xTime now'.text) ≤ 65535 ∧ m.payload = e.text.bytes ∧
      m.headers.find xFrom = some c.addr.text ∧ m.headers.find xTopic = some p.getTopic ∧
      delivered now' c (e.frame now) (requestTable e.topic now) e.topic p = completed now' m := by
  obtain ⟨t, ht⟩ : ∃ t, t = addressed e.topic c.addr.text (requestTable e.topic now') p := ⟨_, rfl⟩
  obtain ⟨hwf, hplain, hfits⟩ := h.headers htopic hmatch hp now' ht
  have hkeys : (subscriberHeaders e.topic c.addr.text p).keys.Nodup :=
    show [xSubTag, xOriginTopic, xTopic, xFrom].Nodup by decide +kernel
  have hnodup := (wellFormed_requestTable (h.topics e.topic htopic).length_ne now').nodup
  have hset : ∀ {k v}, (k, v) ∈ subscriberHeaders e.topic c.addr.text p → t.find k = some v := by
    intro k v hkv
    rw [ht, addressed, find_putAll hnodup, (HashTable.find_eq_some_iff hkeys).mpr hkv]
    rfl
  have htime : t.find xTime = some now'.text := by
    have hnone : HashTable.find (subscriberHeaders e.topic c.addr.text p) xTime = none := by
      rw [HashTable.find_eq_none_iff]
      exact show xTime ∉ [xSubTag, xOriginTopic, xTopic, xFrom] by decide +kernel
    rw [ht, addressed, find_putAll hnodup, hnone, Option.none_or, ← put_topic,
      find_put (by simp [HashTable.keys]), if_pos rfl]
  have hsame : put t xTime now'.text = t := put_self hwf.nodup htime
  refine ⟨⟨opMsg, flAck, e.text.bytes, t, by decide, htext, hwf, hplain, hfits⟩, ?_, rfl,
    hset (by simp [subscriberHeaders]), hset (by simp [subscriberHeaders]), ?_⟩
  · rwa [hsame]
  · rw [delivered, put_requestTable, ← ht]
    simp only [completed, hsame]
    rfl

/-- A request is published to everybody but its sender, and answered. -/
theorem Ready.handled (hb : Reachable b) (hc : b.heap.get a = some c) (h : Ready b c topics)
    {e : Tool.Entry} (htopic : e.topic ∈ topics) {now : Timestamp} (hreq : Received (e.frame now))
    (env : Env) (hio : ∀ i, env.io i = .ok) :
    ∃ reply : Message, encSize (put reply.headers xTime env.replyTime.text) ≤ 65535 ∧
      handleInFrame env b a (e.frame now) = some ⟨.ok, b,
        (((found b e.topic).filter fun p => p.client ≠ a).map fun p => (p.client,
          delivered env.msgTime c (e.frame now) (requestTable e.topic now) e.topic p)) ++
        [(a, completed env.replyTime reply)]⟩ := by
  obtain ⟨R, hinv⟩ := hb.inv
  have hportable := h.topics e.topic htopic
  obtain ⟨toks, htoks⟩ := Option.isSome_iff_exists.mp (h.levels e.topic htopic)
  obtain ⟨subs, hfind, hmatch⟩ := matching_found hinv htoks
  rw [found_eq hfind]
  have hwf := wellFormed_requestTable hportable.length_ne now
  have hlen := hportable.length_le
  have hsize := encSize_requestTable e.topic now
  have hheaders : (e.frame now).varHeaders = stored (requestTable e.topic now) := rfl
  obtain ⟨hmsg, htimed⟩ := msg_fits hreq hheaders hwf (by omega) env.msgTime
  rw [put_requestTable] at hmsg htimed
  -- only the sender is left out
  have hout : ∀ p, leftOut a (e.frame now) p = decide (p.client = a) := by
    intro p
    have hecho : flagIsSet (e.frame now).flag flPubEcho = false :=
      show flagIsSet flAck flPubEcho = false by decide
    rw [leftOut, hecho, Bool.not_false, Bool.and_true]
  have hall : ∀ {rest : List Subscriber}, (∀ p ∈ rest, p ∈ subs) →
      AllFit e.topic c.addr.text (requestTable e.topic env.msgTime) rest := by
    intro rest hmem
    cases rest with
    | nil => trivial
    | cons p rest =>
        exact all_fit (h.roomy htopic hmatch) hmem (loaded_start
          (wellFormed_requestTable hportable.length_ne _).nodup (hmem p List.mem_cons_self))
  have hloop := @publish_loop_fits env b a c (e.frame now) (messageOf (e.frame now)) e.topic
    (requestTable e.topic env.msgTime) (wellFormed_requestTable hportable.length_ne _) htimed rfl hc
    hportable.length_ne subs (fun p hp => found_deliverable hinv hmatch
      (fun hq hget => (h.subscriptions hq hget).1.length_ne) hp)
    (hall fun p hp => List.mem_of_mem_filter hp) []
  simp only [hout, ← decide_not, List.nil_append] at hloop
  obtain ⟨sent, hsent⟩ : ∃ sent, sent = (subs.filter fun p => decide (¬ p.client = a)).map fun p =>
      (p.client, delivered env.msgTime c (e.frame now) (requestTable e.topic now) e.topic p) :=
    ⟨_, rfl⟩
  have hpublish : publish env b a (e.frame now) e.topic (some subs) = some (.ok, sent) := by
    cases subs with
    | nil =>
        rw [hsent]
        rfl
    | cons p rest =>
        unfold publish
        simp only [hmsg, bind, Option.bind_some, if_true, hloop, Option.map_some, hsent]
        simp only [delivered, put_requestTable]
  -- the reply
  have hcode : encSize (put (requestTable e.topic now) xStatusCode (.ofString "200")) ≤
      e.topic.length + 71 := by
    have hput := encSize_put_le hwf.nodup xStatusCode (.ofString "200")
    rw [show xStatusCode.length = 13 by decide,
      show (CStr.ofString "200").length = 3 by decide] at hput
    omega
  obtain ⟨reply, hok, -, -, hreplied⟩ := ok_completed env.replyTime hreq hheaders hwf
    (plain_requestTable hportable.plain now) (by omega) (by omega)
    (show (replyText (.ofString "PUB OK.")).length < 2 ^ 32 by decide)
  have hfits : encSize (put reply.headers xTime env.replyTime.text) ≤ 65535 := by
    have hput := encSize_put_le (nodup_put hwf.nodup xStatusCode (.ofString "200")) xTime
      env.replyTime.text
    rw [xTime_length, env.replyTime.length_eq] at hput
    rw [hreplied]
    omega
  have hsend : handleReply env a (e.frame now) .ok (.ofString "PUB OK.") sent =
      some (.ok, sent ++ [(a, completed env.replyTime reply)]) := by
    have hack : flagIsSet (e.frame now).flag flAck = true :=
      show flagIsSet flAck flAck = true by decide
    have hstored := @client_send_stored env a sent (completed env.replyTime reply)
      (put reply.headers xTime env.replyTime.text) rfl rfl
    rw [hio] at hstored
    unfold handleReply replyFrame
    simp only [hack, if_true, ne_eq, not_true_eq_false, if_false, hok, bind, Option.bind_some,
      hstored]
  have hname : (e.frame now).getVarHeader xTopic = some (some e.topic) := by
    show (e.frame now).varHeaders.find xTopic = _
    rw [hheaders, find_stored]
    rfl
  refine ⟨reply, hfits, ?_⟩
  rw [handle_in_frame_pub hreq rfl, handlePub, hname]
  simp only [publishTo, hfind, hpublish, bind, Option.bind_some, ne_eq, not_true_eq_false, if_false,
    hsend]
  rw [hsent]

theorem frames_to_append (x : Addr) (sent sent' : Sent) :
    framesTo x (sent ++ sent') = framesTo x sent ++ framesTo x sent' := by
  simp [framesTo]

theorem frames_to_map (x : Addr) (subs : List Subscriber) (frame : Subscriber → Frame) :
    framesTo x (subs.map fun p => (p.client, frame p)) =
      (subs.filter fun p => p.client = x).map frame := by
  simp [framesTo, List.filter_map, Function.comp_def]

/-- What the tool prints of a message. -/
theorem print_message {m : Message} {source topic text : CStr} (hpayload : m.payload = text.bytes)
    (hlen : text.length ≤ Tool.maxBuffer) (hsource : m.headers.find xFrom = some source)
    (htopic : m.headers.find xTopic = some topic) (now : Timestamp) :
    Tool.print (completed now m) = some ⟨source, topic, text.length, text⟩ := by
  have hheader : ∀ {k v : CStr}, xTime ≠ k → m.headers.find k = some v →
      (completed now m).getVarHeader k = some (some v) := by
    intro k v hk hfind
    show (stored (put m.headers xTime now.text)).find k = _
    rw [find_stored, find_put m.wf.nodup, if_neg hk, hfind]
    rfl
  have hsize : (completed now m).dataSize = text.length := congrArg List.length hpayload
  have hdata : (completed now m).payload = text.bytes := hpayload
  have hroom : text.length ≤ text.bytes.length := Nat.le_refl _
  unfold Tool.print
  rw [hheader (by decide) hsource, hheader (by decide) htopic, hsize, hdata]
  simp only [Tool.orUnknown, bind, Option.bind_some, hlen, hroom, and_self, if_true]
  rw [CStr.length, List.take_length]
  exact congrArg (fun t => some (Tool.Report.mk source topic text.length t))
    (CStr.ext (CStr.bytes_ofBytes text.nul_free))

/-- What one request comes to: one reply to its sender, and to everybody else a message for each
subscription that was found. -/
theorem Ready.published (hb : Reachable b) (hc : b.heap.get a = some c) (h : Ready b c topics)
    {e : Tool.Entry} (htopic : e.topic ∈ topics) (htext : e.text.length ≤ Tool.maxBuffer)
    {now : Timestamp} (hreq : Received (e.frame now)) (env : Env) (hio : ∀ i, env.io i = .ok) :
    ∃ sent, handleInFrame env b a (e.frame now) = some ⟨.ok, b, sent⟩ ∧
      (∃ reply : Posted, framesTo a sent = [reply.frame]) ∧
      ∀ x ≠ a, ∃ ms : List Shown, framesTo x sent = ms.map (·.frame) ∧
        ms.map Shown.report = screen b c x [e] := by
  obtain ⟨toks, -, hmatch⟩ := found_matching hb (h.levels e.topic htopic)
  obtain ⟨reply, hfits, hrun⟩ := h.handled hb hc htopic hreq env hio
  refine ⟨_, hrun, ⟨⟨env.replyTime, reply, hfits⟩, ?_⟩, fun x hx => ?_⟩
  · -- no message goes back to the sender
    have hnone : ((found b e.topic).filter fun p => p.client ≠ a).filter
        (fun p => p.client = a) = [] := by
      simp [List.filter_eq_nil_iff]
    rw [frames_to_append, frames_to_map, hnone]
    simp [framesTo, Posted.frame]
  · have hfilter : ((found b e.topic).filter fun p => p.client ≠ a).filter
        (fun p => p.client = x) = (found b e.topic).filter fun p => p.client = x := by
      rw [List.filter_filter]
      refine List.filter_congr fun p _ => ?_
      by_cases hp : p.client = x
      · simp [hp, hx]
      · simp [hp]
    have hlist : ∀ subs : List Subscriber, (∀ p ∈ subs, p ∈ found b e.topic) →
        ∃ ms : List Shown, (subs.map fun p => delivered env.msgTime c (e.frame now)
            (requestTable e.topic now) e.topic p) = ms.map (·.frame) ∧
          ms.map Shown.report = subs.map fun p =>
            ⟨c.addr.text, p.getTopic, e.text.length, e.text⟩ := by
      intro subs
      induction subs with
      | nil => exact fun _ => ⟨[], rfl, rfl⟩
      | cons p subs ih =>
          intro hmem
          rw [List.forall_mem_cons] at hmem
          obtain ⟨ms, hms, hreports⟩ := ih hmem.2
          obtain ⟨m, hfits, hpayload, hsource, hpattern, hm⟩ := h.message htopic
            (Nat.lt_of_le_of_lt htext (by decide)) hmatch hmem.1 now env.msgTime
          refine ⟨⟨⟨env.msgTime, m, hfits⟩, _, print_message hpayload htext hsource hpattern⟩ :: ms,
            ?_, ?_⟩
          · rw [List.map_cons, List.map_cons, hms, hm]
            rfl
          · rw [List.map_cons, List.map_cons, hreports]
    obtain ⟨ms, hms, hreports⟩ := hlist ((found b e.topic).filter fun p => p.client = x)
      fun p hp => List.mem_of_mem_filter hp
    refine ⟨ms, ?_, ?_⟩
    · rw [frames_to_append, frames_to_map, hfilter, hms]
      simp [framesTo, hx.symm]
    · rw [hreports, screen, List.flatMap_singleton]

/-- What the broker makes of requests that come one after another on a connection. -/
theorem Ready.served (hb : Reachable b) (hc : b.heap.get a = some c) (h : Ready b c topics)
    (tool : Tool.Host) (big : Bool) {kernel : Kernel} (hkernel : kernel.Reliable)
    {rounds : Nat → Round} (hio : ∀ i j, (rounds i).env.io j = .ok) (es : List Tool.Entry) :
    ∀ {n : Nat} {conn : Conn}, (∀ e ∈ es, e.topic ∈ topics ∧ e.text.length ≤ Tool.maxBuffer) →
      conn.inbox = Tool.bytesFrom tool n es →
      ∃ sent conn', clientLoop big kernel a ((List.range' n es.length).map rounds) b conn =
          some (.ok, b, sent, conn') ∧ conn'.inbox = [] ∧
        (∃ replies : List Posted, replies.length = es.length ∧
          framesTo a sent = replies.map Posted.frame) ∧
        ∀ x ≠ a, ∃ ms : List Shown, framesTo x sent = ms.map (·.frame) ∧
          ms.map Shown.report = screen b c x es := by
  induction es with
  | nil =>
      intro n conn _ hinbox
      exact ⟨[], conn, rfl, hinbox, ⟨[], rfl, rfl⟩, fun x _ => ⟨[], rfl, rfl⟩⟩
  | cons e es ih =>
      intro n conn hes hinbox
      rw [List.forall_mem_cons] at hes
      obtain ⟨⟨htopic, htext⟩, hrest⟩ := hes
      have hportable := h.topics e.topic htopic
      have hlen := hportable.length_le
      obtain ⟨m, hheaders, hframe, hwire⟩ := entry_message hportable
        (Nat.lt_of_le_of_lt htext (by decide))
      have hsize := encSize_requestTable e.topic (tool.built n)
      have hstream : conn.inbox =
          wire true (tool.built n) m ++ Tool.bytesFrom tool (n + 1) es := by
        rw [hwire]
        exact hinbox
      obtain ⟨k, hrecv⟩ := recv_spec hkernel true big (tool.built n) (rounds n).now m
        (by rw [hheaders, put_topic]; omega) hstream
      rw [hframe] at hrecv
      obtain ⟨sent, hrun, ⟨reply, hreply⟩, hothers⟩ := h.published hb hc htopic htext
        (recv_received hrecv) (rounds n).env (hio n)
      obtain ⟨sent', conn', hloop, hempty, ⟨replies, hcount, hreplies⟩, hothers'⟩ :=
        @ih (n + 1) { conn with inbox := Tool.bytesFrom tool (n + 1) es, recvs := k } hrest rfl
      refine ⟨sent ++ sent', conn', ?_, hempty, ⟨reply :: replies, ?_, ?_⟩, fun x hx => ?_⟩
      · rw [List.length_cons, List.range'_succ, List.map_cons, clientLoop, hrecv]
        simp only [bind, Option.bind_some, ne_eq, not_true_eq_false, if_false, hrun, hloop]
      · rw [List.length_cons, List.length_cons, hcount]
      · rw [frames_to_append, hreply, hreplies]
        rfl
      · obtain ⟨ms, hms, hreports⟩ := hothers x hx
        obtain ⟨ms', hms', hreports'⟩ := hothers' x hx
        refine ⟨ms ++ ms', ?_, ?_⟩
        · rw [frames_to_append, hms, hms', List.map_append]
        · rw [List.map_append, hreports, hreports', screen, screen, screen, ← List.flatMap_append]
          rfl

end Publishing

theorem Posted.carried (big : Bool) {kernel : Kernel} (hkernel : kernel.Reliable)
    (ms : List Posted) :
    Carried big kernel (ms.map Posted.frame) (ms.flatMap (Posted.bytes big)) := by
  obtain ⟨n, hrun⟩ := send_all_spec hkernel big (ms.map fun m => (m.now, m.message))
    (fun x hx => by
      obtain ⟨m, -, rfl⟩ := List.mem_map.mp hx
      exact m.fits) ⟨[], [], 0, 0⟩
  rw [List.map_map, List.flatMap_map, List.nil_append] at hrun
  exact ⟨_, hrun, rfl⟩

/-- A message on the wire is a packet that is accepted at any time. -/
theorem Posted.packet (big : Bool) (m : Posted) : ∃ p : Tool.Packet, p.bytes = m.bytes big ∧
    ∀ now, p.Accepted now (completed now m.message) := by
  have hblock := length_encode m.fits
  have hfits := m.fits
  obtain ⟨p, hp⟩ : ∃ p : Tool.Packet, p = ⟨m.message.opcode, m.message.flag,
      encode (put m.message.headers xTime m.now.text), m.message.payload, by omega,
      m.message.payload_lt⟩ := ⟨_, rfl⟩
  have hbytes : p.bytes = m.bytes big := by
    subst hp
    -- the byte order of the host makes no difference
    simp [Tool.Packet.bytes, Tool.Packet.control, Posted.bytes, wire, fixedHeader, completed,
      hblock, Datatype.e16_eq, Datatype.e32_eq]
  refine ⟨p, hbytes, fun now => ?_⟩
  -- what any kernel delivers is what the bytes are decoded to
  have hkernel : Kernel.Reliable ⟨fun _ => some 1, fun _ => some 1⟩ :=
    ⟨fun _ => ⟨0, rfl⟩, fun _ => ⟨0, rfl⟩⟩
  have hstream : (⟨p.bytes, [], 0, 0⟩ : Conn).inbox = wire big m.now m.message ++ [] := by
    rw [List.append_nil]
    exact hbytes
  obtain ⟨k, hrecv⟩ := recv_spec hkernel big true m.now now m.message hfits hstream
  obtain ⟨k', hdecode⟩ := Frame.recv_eq hkernel.recv true now ⟨p.bytes, [], 0, 0⟩
  rw [hrecv] at hdecode
  obtain ⟨⟨s, frame, rest⟩, hrun, hr⟩ := Option.map_eq_some_iff.mp hdecode.symm
  obtain ⟨rfl, hr⟩ := Prod.mk.inj hr
  obtain ⟨rfl, hconn⟩ := Prod.mk.inj hr
  exact Tool.Packet.accepted_of_ok hrun

/-- The second loop of a subscriber prints the messages as they come. -/
theorem receive_loop_prints {host : Tool.Host} (hkernel : host.kernel.Reliable) (big : Bool)
    (ms : List Shown) : ∀ {conn : Conn} {n fuel : Nat},
      conn.inbox = ms.flatMap (fun m => m.bytes big) → ms.length < fuel →
      reports (Tool.receiveLoop host fuel conn n).1 = ms.map Shown.report := by
  induction ms with
  | nil =>
      intro conn n fuel hinbox hfuel
      obtain ⟨fuel, rfl⟩ := Nat.exists_eq_succ_of_ne_zero (Nat.pos_iff_ne_zero.mp hfuel)
      obtain ⟨conn', hclosed⟩ := Tool.recv_closed hkernel.recv n hinbox
      rw [Tool.receive_loop_stops fun frame conn' h => by rw [hclosed] at h; cases h]
      rfl
  | cons m ms ih =>
      intro conn n fuel hinbox hfuel
      obtain ⟨fuel, rfl⟩ := Nat.exists_eq_succ_of_ne_zero (show fuel ≠ 0 by omega)
      rw [List.flatMap_cons] at hinbox
      rw [List.length_cons] at hfuel
      obtain ⟨k, hrecv⟩ := recv_spec hkernel big host.big m.now (host.received n) m.message m.fits
        hinbox
      unfold Tool.receiveLoop
      simp only [hrecv, ne_eq, not_true_eq_false, if_false, m.print]
      exact congrArg (m.report :: ·) (ih rfl (Nat.lt_of_succ_lt_succ hfuel))

/-- The texts that are read are shorter than the buffer. -/
theorem length_of_entered {n : Nat} (hn : 0 < n) {line : List Byte} {text : CStr}
    (h : entered n line = some text) : text.length < n := by
  unfold entered at h
  dsimp only at h
  split_ifs at h with hnul
  rw [← Option.some.inj h, CStr.length, CStr.bytes_ofBytes hnul, List.length_drop,
    ← Nat.mod_eq_sub_div_mul]
  exact Nat.mod_lt _ hn

/-- Entries of a script are for the topics of the tool, and their texts fit in its buffer. -/
theorem mem_script {topics : List CStr} {stdin : List Byte} {e : Tool.Entry}
    (he : e ∈ Tool.script topics stdin) : e.topic ∈ topics ∧ e.text.length ≤ Tool.maxBuffer := by
  unfold Tool.script Tool.plan at he
  obtain ⟨text, htext, he⟩ := List.mem_flatMap.mp he
  obtain ⟨topic, htopic, rfl⟩ := List.mem_map.mp he
  refine ⟨List.mem_of_mem_filter htopic, ?_⟩
  have hread : text ∈ textsOf (Tool.maxBuffer - 1) stdin := by
    refine (List.takeWhile_prefix _).mem (?_ : text ∈ List.takeWhile
      (fun text => !strcasecmp text (.ofString "exit")) (textsOf (Tool.maxBuffer - 1) stdin))
    split_ifs at htext
    · exact htext
    · exact List.mem_of_mem_take htext
  obtain ⟨line, -, hentered⟩ := List.mem_filterMap.mp hread
  have := length_of_entered (show 0 < Tool.maxBuffer - 1 by decide) hentered
  show text.length ≤ Tool.maxBuffer
  omega

/-- In every state that the server reaches, for every connected client and everything that is typed
at its publisher: when nothing gets in the way of its topics, the broker serves all requests, the
publisher is told of each that it was published, and every tool that another client has waiting for
messages prints each text for each of its subscriptions that accepts the topic, in order. -/
theorem session_reported {b : Broker} (hb : Reachable b) {a : Addr} {c : Client}
    (hc : b.heap.get a = some c) {topic : CStr} {topics : List CStr}
    (h : Ready b c (topic :: topics)) (stdin : List Byte) {tool : Tool.Host}
    (htool : tool.kernel.Reliable) (big : Bool) {kernel : Kernel} (hkernel : kernel.Reliable)
    {rounds : Nat → Round} (hio : ∀ i j, (rounds i).env.io j = .ok) {es : List Tool.Entry}
    (hes : es = Tool.script (topic :: topics) stdin) :
    ∃ inbox sent conn,
      clientLoop big kernel a ((List.range es.length).map rounds) b
          ⟨(Tool.handlePub tool topic topics stdin ⟨inbox, [], 0, 0⟩).conn.outbox, [], 0, 0⟩ =
        some (.ok, b, sent, conn) ∧ conn.inbox = [] ∧
      Carried big kernel (framesTo a sent) inbox ∧
      (Tool.handlePub tool topic topics stdin ⟨inbox, [], 0, 0⟩).printed =
        es.map (fun e => ⟨e.text.length, e.topic⟩) ∧
      (∀ e ∈ es, ∃ toks, levels e.topic = some toks ∧ Matching b toks (found b e.topic)) ∧
      ∀ x ≠ a, ∃ bytes, Carried big kernel (framesTo x sent) bytes ∧
        ∀ {host : Tool.Host}, host.kernel.Reliable → ∀ n,
          reports (Tool.receiveLoop host (bytes.length + 1) ⟨bytes, [], 0, 0⟩ n).1 =
            screen b c x es := by
  obtain ⟨sent, conn, hrun, hempty, ⟨replies, hcount, hreplies⟩, hothers⟩ :=
    h.served hb hc tool big hkernel hio es (fun e he => mem_script (hes ▸ he))
      (show (⟨Tool.bytesFrom tool 0 es, [], 0, 0⟩ : Conn).inbox = Tool.bytesFrom tool 0 es from rfl)
  obtain ⟨packet, hpacket⟩ := Classical.axiomOfChoice (Posted.packet big)
  have hpackets : ∀ ms : List Posted,
      ms.flatMap (Posted.bytes big) = (ms.map packet).flatMap Tool.Packet.bytes := by
    intro ms
    rw [List.flatMap_map]
    exact List.flatMap_congr fun m _ => (hpacket m).1.symm
  -- the tool is answered by the replies
  have haccepted : Tool.AcceptedFirst tool (replies.map packet) 0 es.length := by
    intro j hj
    rw [← hcount] at hj
    exact ⟨_, _, by rw [List.getElem?_map, List.getElem?_eq_getElem hj]; rfl, (hpacket _).2 _⟩
  have hrefused : ¬ Tool.AcceptedFirst tool (replies.map packet) 0 (es.length + 1) := by
    intro hmore
    obtain ⟨q, -, hq, -⟩ := hmore es.length (Nat.lt_succ_self _)
    rw [List.getElem?_eq_none (by rw [List.length_map, hcount])] at hq
    cases hq
  obtain ⟨hprinted, houtbox⟩ := Tool.handle_pub_sends htool
    (fun t ht => (h.topics t ht).length_ne) stdin
    (show (⟨replies.flatMap (Posted.bytes big), [], 0, 0⟩ : Conn).inbox = _ from hpackets replies)
    haccepted hrefused
  rw [← hes, List.take_length] at hprinted
  rw [← hes, List.take_of_length_le (Nat.le_succ _), List.nil_append] at houtbox
  refine ⟨replies.flatMap (Posted.bytes big), sent, conn, ?_, hempty, ?_, hprinted, fun e he =>
    found_matching hb (h.levels e.topic (mem_script (hes ▸ he)).1), fun x hx => ?_⟩
  · rw [houtbox, List.range_eq_range']
    exact hrun
  · rw [hreplies]
    exact Posted.carried big hkernel replies
  · obtain ⟨ms, hms, hreports⟩ := hothers x hx
    have hbytes := Posted.carried big hkernel (ms.map Shown.toPosted)
    have hlen := Tool.length_packets ((ms.map Shown.toPosted).map packet)
    rw [← hpackets, List.length_map, List.length_map, List.flatMap_map] at hlen
    rw [List.map_map, List.flatMap_map] at hbytes
    refine ⟨_, by rw [hms]; exact hbytes, fun {host} hhost n => ?_⟩
    rw [← hreports]
    exact receive_loop_prints hhost big ms rfl (Nat.lt_succ_of_le hlen)

/-- The second client types a line for what the first one has subscribed to. -/
theorem session_reported_two_clients : ∃ (b : Broker) (c : Client) (bytes : List Byte),
    Reachable b ∧ b.heap.get 1 = some c ∧
    screen b c 0 [⟨.ofString "a/b", .ofString "hi"⟩] =
      [⟨secondAddr.text, .ofString "a/*", 2, .ofString "hi"⟩] ∧
    reports (Tool.receiveLoop Tool.someHost (bytes.length + 1) ⟨bytes, [], 0, 0⟩ 0).1 =
      [⟨secondAddr.text, .ofString "a/*", 2, .ofString "hi"⟩] := by
  have hreach : ∀ {b b'} ev, Reachable b → step b ev = some b' → Reachable b' :=
    fun _ hb hstep => Run.step hb trivial hstep
  have hall : ∀ {b₁ b₂ b₃ c s}, step Broker.init (.accept [firstId] firstAddr) = some b₁ →
      step b₁ (.accept [firstId, secondId] secondAddr) = some b₂ →
      step b₂ (.request calm 0 (subRequest 0 "a/*" "t")) = some b₃ →
      b₃.heap.get 1 = some c → c.addr = secondAddr →
      treeFindSubscribers b₃.store (.ofString "a/b") = some (some [s]) → b₃.store.subs.next = 1 →
      b₃.store.subs.get 0 = some s → s.client = 0 → s.subTag = .ofString "t" →
      s.getTopic = .ofString "a/*" →
      ∃ (b : Broker) (c : Client) (bytes : List Byte), Reachable b ∧ b.heap.get 1 = some c ∧
        screen b c 0 [⟨.ofString "a/b", .ofString "hi"⟩] =
          [⟨secondAddr.text, .ofString "a/*", 2, .ofString "hi"⟩] ∧
        reports (Tool.receiveLoop Tool.someHost (bytes.length + 1) ⟨bytes, [], 0, 0⟩ 0).1 =
          [⟨secondAddr.text, .ofString "a/*", 2, .ofString "hi"⟩] := by
    intro b₁ b₂ b₃ c s h₁ h₂ h₃ hc haddr hfind hnext hs hclient htag htopic
    have hb₃ : Reachable b₃ := hreach _ (hreach _ (hreach _ Run.refl h₁) h₂) h₃
    have hready : Ready b₃ c [.ofString "a/b"] := by
      refine ⟨by rw [haddr]; decide, fun {p s'} _ hs' => ?_, by decide, ?_⟩
      · obtain rfl : p = 0 := Nat.lt_one_iff.mp (hnext ▸ Heap.lt_next_of_get hs')
        rw [← Option.some.inj (hs.symm.trans hs'), htag, htopic]
        exact ⟨⟨by decide, by decide, by decide⟩, by decide, by decide, by decide⟩
      · intro topic htopic
        rw [List.mem_singleton.mp htopic]
        exact ⟨by decide, by decide, by decide⟩
    have hscreen : screen b₃ c 0 [⟨.ofString "a/b", .ofString "hi"⟩] =
        [⟨secondAddr.text, .ofString "a/*", 2, .ofString "hi"⟩] := by
      have hlen : (CStr.ofString "hi").length = 2 := by decide
      simp [screen, found_eq hfind, hclient, haddr, htopic, hlen]
    have hrel : Tool.someHost.kernel.Reliable := ⟨fun _ => ⟨2, rfl⟩, fun _ => ⟨2, rfl⟩⟩
    obtain ⟨inbox, sent, conn, -, -, -, -, -, hothers⟩ := @session_reported b₃ hb₃ 1 c hc
      (.ofString "a/b") [] hready [104, 105, 10] Tool.someHost hrel true Tool.someHost.kernel hrel
      (fun _ => ⟨newYear, calm⟩) (fun _ _ => rfl) [⟨.ofString "a/b", .ofString "hi"⟩] (by decide)
    obtain ⟨bytes, -, hprinted⟩ := hothers 0 (by decide)
    exact ⟨b₃, c, bytes, hb₃, hc, hscreen, (hprinted hrel 0).trans hscreen⟩
  exact hall rfl rfl rfl rfl rfl rfl rfl rfl rfl rfl rfl

end Bpsp
