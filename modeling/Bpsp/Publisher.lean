import Bpsp.CLib.Stdio
import Bpsp.Tool

/-!
# The command-line publisher

`handle_pub` of `tools/bpsp.c`. For each text that is entered it sends one request to each of its
topics and takes the frame that comes next for the answer, whatever it is. `script` is what it means
to publish; `handle_pub_sends` says how much of it is sent and confirmed, for every input and
everything that the broker answers.

Two things in the loops are easily overlooked. A text is what the end of a long line is read as. And
a request that cannot be built is passed over, but when it is the last one for a text, its status
ends the outer loop.
-/

namespace Bpsp.Tool

open CLib Net Bpsp.Frame Datatype

/-- `get_input`. -/
def getInput (bufSize : Nat) (stdin : List Byte) : Option (CStr × List Byte) :=
  getLine (bufSize - 1) (stdin.length + 1) stdin

/-- What is printed after an answer. -/
structure Published where
  dataSize : Nat
  topic : CStr

/-- Where the loops are: what was printed, the connection, the number of answers, and the status,
which is lost once something undefined has happened. -/
structure Publisher where
  printed : List Published
  conn : Conn
  answers : Nat
  status : Exec Status

section Loops

variable (host : Host)

/-- The inner loop: the requests for one text. -/
def publishTopics (text : CStr) : List CStr → Publisher → Publisher
  | [], p => p
  | topic :: topics, p =>
      match Frame.pub (host.built p.answers) (some topic) flAck [] text.bytes with
      | none => { p with status := none }
      | some (s, out) =>
          -- `continue`, with the status left as it is
          if s ≠ .ok then publishTopics text topics { p with status := some s }
          else
            match send host.big host.kernel p.conn out with
            | none => { p with status := none }
            | some (s, conn) =>
                if s ≠ .ok then { p with conn := conn, status := some s }
                else
                  match recv host.big host.kernel (host.received p.answers) conn with
                  | none => { p with conn := conn, status := none }
                  | some (s, _, conn) =>
                      if s ≠ .ok then { p with conn := conn, status := some s }
                      else publishTopics text topics
                        { printed := p.printed ++ [⟨out.dataSize, topic⟩]
                          conn := conn
                          answers := p.answers + 1
                          status := some .ok }

/-- The outer loop. The tool ends at `exit` and at the end of its input. -/
def publishLoop (topics : List CStr) : Nat → List Byte → Publisher → Publisher
  | 0, _, p => p
  | fuel + 1, stdin, p =>
      if p.status = some .ok then
        match getInput maxBuffer stdin with
        | none => p
        | some (text, stdin) =>
            if strcasecmp text (.ofString "exit") then p
            else publishLoop topics fuel stdin (publishTopics host text topics p)
      else p

/-- `handle_pub` on a connection to the broker. There is at least one topic, and every text takes at
least one byte of the input. -/
def handlePub (topic : CStr) (topics : List CStr) (stdin : List Byte) (conn : Conn) : Publisher :=
  publishLoop host (topic :: topics) (stdin.length + 1) stdin ⟨[], conn, 0, some .ok⟩

end Loops

/-- There is room for the topic, of which 16 bits of the length count, beside the time. -/
def Sendable (topic : CStr) : Prop := topic.length % 65536 + 50 ≤ 65535

instance : DecidablePred Sendable := fun _ => Nat.decLe _ _

/-- The last topic has room. -/
def LastSendable (topics : List CStr) : Prop := ∀ topic ∈ topics.getLast?, Sendable topic

instance (topics : List CStr) : Decidable (LastSendable topics) :=
  inferInstanceAs (Decidable (∀ topic ∈ topics.getLast?, Sendable topic))

/-- A text and the topic that it goes to. -/
structure Entry where
  topic : CStr
  text : CStr
  deriving DecidableEq

/-- The requests for a text. -/
def entries (topics : List CStr) (text : CStr) : List Entry :=
  (topics.filter fun topic => Sendable topic).map fun topic => ⟨topic, text⟩

/-- What is published of some texts: only the first one when the last topic has no room. -/
def plan (topics texts : List CStr) : List Entry :=
  (if LastSendable topics then texts else texts.take 1).flatMap (entries topics)

/-- What the tool means to publish: the texts before `exit`. -/
def script (topics : List CStr) (stdin : List Byte) : List Entry :=
  plan topics ((textsOf (maxBuffer - 1) stdin).takeWhile
    fun text => !strcasecmp text (.ofString "exit"))

/-- The frame of a request. -/
def Entry.frame (now : Timestamp) (e : Entry) : Frame where
  varsSize := e.topic.length % 65536 + 50
  opcode := opPub
  flag := flAck
  dataSize := e.text.length
  varHeaders := stored [(xTopic, e.topic), (xTime, now.text)]
  payload := e.text.bytes
  payloadSize := e.text.length
  pos := e.text.length
  isCompleted := true

/-- The bytes of a request. -/
def Entry.bytes (now : Timestamp) (e : Entry) : List Byte :=
  fixedHeader true (e.frame now) ++
    (headerBytes xTopic e.topic ++ headerBytes xTime now.text ++ e.text.bytes)

/-- The bytes of requests, the `n`-th one first. -/
def bytesFrom (host : Host) : Nat → List Entry → List Byte
  | _, [] => []
  | n, e :: es => e.bytes (host.built n) ++ bytesFrom host (n + 1) es

theorem bytes_from_append (host : Host) (es es' : List Entry) : ∀ n,
    bytesFrom host n (es ++ es') = bytesFrom host n es ++ bytesFrom host (n + es.length) es' := by
  induction es with
  | nil => exact fun _ => rfl
  | cons e es ih =>
      intro n
      rw [List.cons_append, bytesFrom, ih, bytesFrom, List.append_assoc, List.length_cons,
        Nat.add_assoc, Nat.add_comm 1]

theorem plan_cons (topics : List CStr) (text : CStr) (texts : List CStr) :
    plan topics (text :: texts) =
      entries topics text ++ if LastSendable topics then plan topics texts else [] := by
  unfold plan
  split_ifs <;> simp

/-- A header that is set in a request, as an equation. -/
theorem set_counted {fr : Frame} {t : Table} (h : Counts fr t) {k v : CStr} (hk : k.length ≠ 0)
    (hv : v.length ≠ 0) :
    (writtenSize (put t k v) ≤ 65535 → fr.setVarHeader k (some v) = some (.ok, { fr with
      varsSize := writtenSize (put t k v), varHeaders := stored (put t k v) })) ∧
    (¬ writtenSize (put t k v) ≤ 65535 →
      ∃ s fr', fr.setVarHeader k (some v) = some (s, fr') ∧ s ≠ .ok) := by
  obtain ⟨s, fr', hset, hs, hcounts, -⟩ := set_counts h hk hv
  constructor
  · intro hroom
    obtain rfl := hs.mpr hroom
    obtain ⟨hheaders, hsize, -, -⟩ := hcounts rfl
    have hframe := set_var_header_frame hset
    dsimp only at hframe
    rw [hset, ← hheaders, ← hsize, ← hframe]
  · exact fun hroom => ⟨s, fr', hset, fun hok => hroom (hs.mp hok)⟩

/-- `frame__PUB` for a topic that is not empty. -/
theorem pub_counted (now : Timestamp) {e : Entry} (htopic : e.topic.length ≠ 0) :
    (Sendable e.topic →
      Frame.pub now (some e.topic) flAck [] e.text.bytes = some (.ok, e.frame now)) ∧
    (¬ Sendable e.topic →
      ∃ s out, Frame.pub now (some e.topic) flAck [] e.text.bytes = some (s, out) ∧ s ≠ .ok) := by
  have hkey : xTopic.length = 7 := by decide
  have hput₁ : put [] xTopic e.topic = [(xTopic, e.topic)] := rfl
  have hput₂ : put [(xTopic, e.topic)] xTime now.text = [(xTopic, e.topic), (xTime, now.text)] :=
    put_of_not_mem _ (show xTime ∉ [xTopic] by decide)
  have hsize₁ : writtenSize [(xTopic, e.topic)] = e.topic.length % 65536 + 12 := by
    simp [writtenSize, hkey]
    omega
  have hsize₂ : writtenSize [(xTopic, e.topic), (xTime, now.text)] =
      e.topic.length % 65536 + 50 := by
    simp [writtenSize, hkey, xTime_length, now.length_eq]
    omega
  have hnew : Counts { new with opcode := opPub, flag := flAck } [] :=
    ⟨rfl, rfl, by decide, List.nodup_nil⟩
  obtain ⟨hfits₁, hfull₁⟩ := set_counted hnew (show xTopic.length ≠ 0 by omega) htopic
  rw [hput₁, hsize₁] at hfits₁ hfull₁
  unfold Frame.pub Sendable
  rw [set_frame_control_eq new flAck (show opPub ≠ 0 by decide), assert_ok]
  simp only [setVarHeaders, assert_ok]
  by_cases hroom₁ : e.topic.length % 65536 + 12 ≤ 65535
  swap
  · obtain ⟨s, fr, hset, hs⟩ := hfull₁ hroom₁
    rw [hset, assert_fail _ _ hs]
    exact ⟨fun h => absurd h (by omega), fun _ => ⟨s, fr, rfl, hs⟩⟩
  rw [hfits₁ hroom₁, assert_ok, put_payload_eq, assert_ok, build]
  have hcounts : Counts { new with
      opcode := opPub, flag := flAck, varsSize := e.topic.length % 65536 + 12
      varHeaders := stored [(xTopic, e.topic)], payload := e.text.bytes
      pos := e.text.bytes.length, payloadSize := e.text.bytes.length
      dataSize := e.text.bytes.length } [(xTopic, e.topic)] :=
    ⟨rfl, hsize₁.symm, by omega, by simp [HashTable.keys]⟩
  obtain ⟨hfits₂, hfull₂⟩ := set_counted hcounts (show xTime.length ≠ 0 by decide)
    (Timestamp.length_ne now)
  rw [hput₂, hsize₂] at hfits₂ hfull₂
  constructor
  · intro hroom₂
    rw [hfits₂ hroom₂, assert_ok]
    rfl
  · intro hroom₂
    obtain ⟨s, fr, hset, hs⟩ := hfull₂ hroom₂
    rw [hset, assert_fail _ _ hs]
    exact ⟨s, fr, rfl, hs⟩

section Runs

variable {host : Host} {packets : List Packet} {outbox : List Byte} {done : List Entry}
  {p : Publisher}

/-- A request that is built is sent. -/
theorem send_entry (hkernel : host.kernel.Reliable) (now : Timestamp) (e : Entry) (conn : Conn) :
    ∃ n, send host.big host.kernel conn (e.frame now) =
      some (.ok, { conn with outbox := conn.outbox ++ e.bytes now, sends := n }) := by
  obtain ⟨bytes, hbytes, hlen⟩ := to_bytes_length [(xTopic, e.topic), (xTime, now.text)]
  have hsize : bytes.length = e.topic.length % 65536 + 50 := by
    rw [hlen]
    simp [writtenSize, xTime_length, now.length_eq, show xTopic.length = 7 by decide]
    omega
  have hblock : bytes = headerBytes xTopic e.topic ++ headerBytes xTime now.text := by
    have htwo : toBytes (stored [(xTopic, e.topic), (xTime, now.text)]) =
        some (headerBytes xTopic e.topic ++ (headerBytes xTime now.text ++ [])) := rfl
    rw [htwo, List.append_nil] at hbytes
    exact (Option.some.inj hbytes).symm
  have hbuf : (e.frame now).headerBuffer = some bytes := by
    have hstored : toBytes (e.frame now).varHeaders = some bytes := hbytes
    have hvars : (e.frame now).varsSize = bytes.length := hsize.symm
    rw [headerBuffer, hstored, Option.bind_eq_bind, Option.bind_some, hvars,
      if_pos (Nat.le_refl _), Nat.sub_self, List.replicate_zero, List.append_nil]
  obtain ⟨n, hrun⟩ := send_frame hkernel host.big (show (e.frame now).isCompleted = true from rfl)
    hbuf conn
  have hpayload : (e.frame now).payload.take (e.frame now).dataSize = e.text.bytes :=
    List.take_length
  refine ⟨n, ?_⟩
  rw [hrun, hpayload, hblock]
  -- the byte order of the host makes no difference
  simp [Entry.bytes, fixedHeader, e16_eq, e32_eq]

/-- The requests of `done` were sent, and all of them were answered. -/
structure Answered (host : Host) (packets : List Packet) (outbox : List Byte) (done : List Entry)
    (p : Publisher) : Prop where
  printed : p.printed = done.map fun e => ⟨e.text.length, e.topic⟩
  outbox : p.conn.outbox = outbox ++ bytesFrom host 0 done
  inbox : p.conn.inbox = (packets.drop done.length).flatMap Packet.bytes
  answers : p.answers = done.length
  accepted : AcceptedFirst host packets 0 done.length

/-- The requests of `done` were sent and answered, and after them `e` was sent and not answered. -/
structure Unanswered (host : Host) (packets : List Packet) (outbox : List Byte) (done : List Entry)
    (e : Entry) (p : Publisher) : Prop where
  printed : p.printed = done.map fun e => ⟨e.text.length, e.topic⟩
  outbox : p.conn.outbox = outbox ++ bytesFrom host 0 (done ++ [e])
  accepted : AcceptedFirst host packets 0 done.length
  refused : ¬ AcceptedFirst host packets 0 (done.length + 1)
  status : p.status ≠ some .ok

theorem accepted_first_concat {n count : Nat} : AcceptedFirst host packets n (count + 1) ↔
    AcceptedFirst host packets n count ∧ ∃ (q : Packet) (frame : Frame), packets[count]? = some q ∧
      q.Accepted (host.received (n + count)) frame := by
  constructor
  · exact fun h => ⟨fun j hj => h j (Nat.lt_succ_of_lt hj), h count (Nat.lt_succ_self _)⟩
  · rintro ⟨hfirst, hlast⟩ j hj
    rcases Nat.lt_succ_iff_lt_or_eq.mp hj with hlt | rfl
    · exact hfirst j hlt
    · exact hlast

/-- The next packet is accepted and taken from the stream, or nothing that can be accepted comes
next. -/
theorem decode_next (now : Timestamp) (packets : List Packet) (n : Nat) :
    (∃ (q : Packet) (frame : Frame), packets[n]? = some q ∧ q.Accepted now frame ∧
      decode now ((packets.drop n).flatMap Packet.bytes) =
        some (.ok, frame, (packets.drop (n + 1)).flatMap Packet.bytes)) ∨
    (¬ ∃ (q : Packet) (frame : Frame), packets[n]? = some q ∧ q.Accepted now frame) ∧
      ∀ frame rest,
        decode now ((packets.drop n).flatMap Packet.bytes) ≠ some (.ok, frame, rest) := by
  cases hq : packets[n]? with
  | none =>
      have hdrop : packets.drop n = [] :=
        List.drop_eq_nil_of_le (List.getElem?_eq_none_iff.mp hq)
      refine Or.inr ⟨fun ⟨_, _, h, _⟩ => (Option.some_ne_none _ h.symm).elim, ?_⟩
      rw [hdrop]
      exact fun frame rest h => by cases h
  | some q =>
      obtain ⟨hlt, hget⟩ := List.getElem?_eq_some_iff.mp hq
      rw [← List.getElem_cons_drop hlt, hget, List.flatMap_cons, q.decode_append]
      by_cases haccepted : ∃ frame, q.Accepted now frame
      · obtain ⟨frame, h⟩ := haccepted
        refine Or.inl ⟨q, frame, rfl, h, ?_⟩
        rw [show decode now q.bytes = _ from h]
        rfl
      · refine Or.inr ⟨fun ⟨q', frame, hq', h⟩ => ?_, fun frame rest h => ?_⟩
        · obtain rfl := Option.some.inj hq'
          exact haccepted ⟨frame, h⟩
        · obtain ⟨⟨s, frame', rest'⟩, hdecode, hr⟩ := Option.map_eq_some_iff.mp h
          obtain ⟨rfl, -⟩ := Prod.mk.inj hr
          exact haccepted ⟨frame', Packet.accepted_of_ok hdecode⟩

/-- One turn of the inner loop: the topic is passed over, or its request is sent, and the loop goes
on when it is answered. -/
theorem publish_topic (hkernel : host.kernel.Reliable) (h : Answered host packets outbox done p)
    {topic : CStr} (htopic : topic.length ≠ 0) (text : CStr) (topics : List CStr) :
    (¬ Sendable topic ∧ ∃ s : Status, s ≠ .ok ∧
      publishTopics host text (topic :: topics) p =
        publishTopics host text topics { p with status := some s }) ∨
    (Sendable topic ∧ ∃ p', Answered host packets outbox (done ++ [⟨topic, text⟩]) p' ∧
      p'.status = some .ok ∧
      publishTopics host text (topic :: topics) p = publishTopics host text topics p') ∨
    (Sendable topic ∧ Unanswered host packets outbox done ⟨topic, text⟩
      (publishTopics host text (topic :: topics) p)) := by
  obtain ⟨hbuilt, hnotBuilt⟩ := @pub_counted (host.built p.answers) ⟨topic, text⟩ htopic
  rw [publishTopics]
  by_cases hroom : Sendable topic
  swap
  · obtain ⟨s, out, hpub, hs⟩ := hnotBuilt hroom
    dsimp only at hpub
    rw [hpub]
    exact Or.inl ⟨hroom, s, hs, by simp [hs]⟩
  refine Or.inr ?_
  obtain ⟨n, hsend⟩ := send_entry hkernel (host.built p.answers) ⟨topic, text⟩ p.conn
  have hpub := hbuilt hroom
  dsimp only at hpub
  simp only [hpub, hsend, ne_eq, not_true_eq_false, if_false]
  have houtbox : p.conn.outbox ++ Entry.bytes (host.built p.answers) ⟨topic, text⟩ =
      outbox ++ bytesFrom host 0 (done ++ [⟨topic, text⟩]) := by
    rw [h.outbox, bytes_from_append, Nat.zero_add, h.answers, List.append_assoc]
    simp [bytesFrom]
  obtain ⟨k, hrecv⟩ := recv_eq hkernel.recv host.big (host.received p.answers) { p.conn with
    outbox := p.conn.outbox ++ Entry.bytes (host.built p.answers) ⟨topic, text⟩, sends := n }
  have hfirst := @accepted_first_concat host packets 0 done.length
  rw [Nat.zero_add, ← h.answers] at hfirst
  have hinbox : p.conn.inbox = (packets.drop p.answers).flatMap Packet.bytes := by
    rw [h.answers]
    exact h.inbox
  have hnext := decode_next (host.received p.answers) packets p.answers
  rw [← hinbox] at hnext
  rw [hrecv]
  rcases hnext with ⟨q, frame, hq, haccepted, hdecode⟩ | ⟨hnot, hnever⟩
  · dsimp only
    rw [hdecode]
    simp only [Option.map_some, not_true_eq_false, if_false]
    refine Or.inl ⟨hroom, _, ⟨?_, houtbox, ?_, ?_, ?_⟩, rfl, rfl⟩
    · rw [h.printed, List.map_append]
      rfl
    · rw [List.length_append, ← h.answers]
      rfl
    · rw [List.length_append, ← h.answers]
      rfl
    · rw [List.length_append, ← h.answers]
      exact hfirst.mpr ⟨h.answers ▸ h.accepted, q, frame, hq, haccepted⟩
  · -- nothing is accepted, and the loop ends in one way or another
    have hrefused : ¬ AcceptedFirst host packets 0 (done.length + 1) := by
      rw [← h.answers, hfirst]
      exact fun haccepted => hnot haccepted.2
    refine Or.inr ⟨hroom, ?_⟩
    dsimp only
    cases hdecode : decode (host.received p.answers) p.conn.inbox with
    | none => exact ⟨h.printed, houtbox, h.accepted, hrefused, by simp⟩
    | some r =>
        obtain ⟨s, frame, rest⟩ := r
        have hs : s ≠ .ok := by
          rintro rfl
          exact hnever frame rest hdecode
        simp only [Option.map_some, hs, not_false_eq_true, if_true]
        exact ⟨h.printed, houtbox, h.accepted, hrefused, by simpa using hs⟩

/-- The inner loop sends the requests for a text, up to one that is not answered. Its status is that
of the last one. -/
theorem publish_topics_run (hkernel : host.kernel.Reliable) (text : CStr) (topics : List CStr) :
    ∀ {done : List Entry} {p : Publisher}, (∀ topic ∈ topics, topic.length ≠ 0) →
      Answered host packets outbox done p →
      (Answered host packets outbox (done ++ entries topics text)
          (publishTopics host text topics p) ∧
        ((publishTopics host text topics p).status = some .ok ↔
          topics.getLast?.elim (p.status = some .ok) Sendable)) ∨
      ∃ before e after, entries topics text = before ++ e :: after ∧
        Unanswered host packets outbox (done ++ before) e (publishTopics host text topics p) := by
  induction topics with
  | nil => exact fun _ h => Or.inl ⟨by simpa [entries, publishTopics] using h, Iff.rfl⟩
  | cons topic topics ih =>
      intro done p hne h
      rw [List.forall_mem_cons] at hne
      have hlast : ∀ q : Prop, (q ↔ Sendable topic) →
          (topics.getLast?.elim q Sendable ↔
            (topic :: topics).getLast?.elim (p.status = some .ok) Sendable) := by
        intro q hq
        cases htail : topics.getLast? with
        | none =>
            rw [List.getLast?_eq_none_iff.mp htail]
            exact hq
        | some last =>
            rw [List.getLast?_cons, htail]
            exact Iff.rfl
      rcases publish_topic hkernel h hne.1 text topics with
        ⟨hroom, s, hs, hrun⟩ | ⟨hroom, p', h', hs, hrun⟩ | ⟨hroom, hstuck⟩
      · have hentries : entries (topic :: topics) text = entries topics text := by
          simp [entries, hroom]
        have hskipped : Answered host packets outbox done { p with status := some s } :=
          ⟨h.printed, h.outbox, h.inbox, h.answers, h.accepted⟩
        rw [hrun, hentries, ← hlast (some s = some .ok) (iff_of_false (by simpa using hs) hroom)]
        exact ih hne.2 hskipped
      · have hentries : entries (topic :: topics) text = ⟨topic, text⟩ :: entries topics text := by
          simp [entries, hroom]
        rw [hrun, hentries, ← hlast _ (iff_of_true hs hroom)]
        rcases ih hne.2 h' with ⟨hall, hstatus⟩ | ⟨before, e, after, hsplit, hstuck⟩
        · rw [List.append_assoc] at hall
          exact Or.inl ⟨hall, hstatus⟩
        · rw [List.append_assoc] at hstuck
          exact Or.inr ⟨⟨topic, text⟩ :: before, e, after, by rw [hsplit, List.cons_append], hstuck⟩
      · refine Or.inr ⟨[], ⟨topic, text⟩, entries topics text, by simp [entries, hroom], ?_⟩
        rwa [List.append_nil]

/-- The outer loop sends what is planned, up to a request that is not answered. -/
theorem publish_loop_run (hkernel : host.kernel.Reliable) {topics : List CStr} (hsome : topics ≠ [])
    (hne : ∀ topic ∈ topics, topic.length ≠ 0) (fuel : Nat) :
    ∀ {stdin : List Byte} {done : List Entry} {p : Publisher}, stdin.length < fuel →
      Answered host packets outbox done p → p.status = some .ok →
      Answered host packets outbox (done ++ script topics stdin)
        (publishLoop host topics fuel stdin p) ∨
      ∃ before e after, script topics stdin = before ++ e :: after ∧
        Unanswered host packets outbox (done ++ before) e
          (publishLoop host topics fuel stdin p) := by
  induction fuel with
  | zero => exact fun h => absurd h (Nat.not_lt_zero _)
  | succ fuel ih =>
      intro stdin done p hfuel h hs
      rw [publishLoop, if_pos hs, getInput]
      -- nothing more is sent
      have hend : ∀ {stdin : List Byte}, script topics stdin = [] →
          Answered host packets outbox (done ++ script topics stdin) p := by
        intro stdin hnil
        rwa [hnil, List.append_nil]
      have hplanNil : plan topics [] = [] := by simp [plan]
      rcases get_line_cases (show 0 < maxBuffer - 1 by decide) (Nat.lt_succ_self stdin.length) with
        ⟨hrun, htexts⟩ | ⟨text, rest, hrun, htexts, hlt⟩
      · rw [hrun]
        exact Or.inl (hend (by rw [script, htexts, List.takeWhile_nil, hplanNil]))
      rw [hrun]
      by_cases hexit : strcasecmp text (.ofString "exit") = true
      · simp only [hexit, if_true]
        refine Or.inl (hend ?_)
        rw [script, htexts, List.takeWhile_cons_of_neg (by simp [hexit]), hplanNil]
      simp only [hexit]
      have hscript : script topics stdin =
          entries topics text ++ if LastSendable topics then script topics rest else [] := by
        rw [script, htexts, List.takeWhile_cons_of_pos (by simpa using hexit), plan_cons]
        rfl
      have hlast : topics.getLast?.elim (p.status = some .ok) Sendable ↔ LastSendable topics := by
        unfold LastSendable
        cases htail : topics.getLast? with
        | none => exact absurd (List.getLast?_eq_none_iff.mp htail) hsome
        | some last => simp
      rw [hscript]
      rcases publish_topics_run hkernel text topics hne h with
        ⟨hall, hstatus⟩ | ⟨before, e, after, hsplit, hstuck⟩
      · rw [hlast] at hstatus
        by_cases hgo : LastSendable topics
        · rw [if_pos hgo, ← List.append_assoc]
          have hshort : rest.length < fuel := by omega
          rcases ih hshort hall (hstatus.mpr hgo) with hmore | ⟨before, e, after, hsplit, hstuck⟩
          · exact Or.inl hmore
          · rw [List.append_assoc] at hstuck
            exact Or.inr ⟨entries topics text ++ before, e, after,
              by rw [hsplit, List.append_assoc], hstuck⟩
        · have hstop : publishLoop host topics fuel rest (publishTopics host text topics p) =
              publishTopics host text topics p := by
            cases fuel with
            | zero => rfl
            | succ fuel => rw [publishLoop, if_neg (mt hstatus.mp hgo)]
          rw [if_neg hgo, List.append_nil]
          simp only [Bool.false_eq_true, if_false]
          rw [hstop]
          exact Or.inl hall
      · have hstop : publishLoop host topics fuel rest (publishTopics host text topics p) =
            publishTopics host text topics p := by
          cases fuel with
          | zero => rfl
          | succ fuel => rw [publishLoop, if_neg hstuck.status]
        refine Or.inr ⟨before, e, after ++ if LastSendable topics then script topics rest else [],
          by rw [hsplit, List.append_assoc, List.cons_append], ?_⟩
        simp only [Bool.false_eq_true, if_false]
        rwa [hstop]

end Runs

/-- For every list of topics with a name, every input, every machine of the tool and everything the
broker answers: when the first `k` packets are accepted and no more, the tool sends the first
`k + 1` requests of its script and confirms the first `k`. -/
theorem handle_pub_sends {host : Host} (hkernel : host.kernel.Reliable) {topic : CStr}
    {topics : List CStr} (hne : ∀ t ∈ topic :: topics, t.length ≠ 0) (stdin : List Byte)
    {packets : List Packet} {conn : Conn} (hinbox : conn.inbox = packets.flatMap Packet.bytes)
    {k : Nat} (haccepted : AcceptedFirst host packets 0 k)
    (hrefused : ¬ AcceptedFirst host packets 0 (k + 1)) :
    (handlePub host topic topics stdin conn).printed =
        ((script (topic :: topics) stdin).take k).map (fun e => ⟨e.text.length, e.topic⟩) ∧
      (handlePub host topic topics stdin conn).conn.outbox = conn.outbox ++
        bytesFrom host 0 ((script (topic :: topics) stdin).take (k + 1)) := by
  have hmono : ∀ {m n}, m ≤ n → AcceptedFirst host packets 0 n → AcceptedFirst host packets 0 m :=
    fun hle h j hj => h j (Nat.lt_of_lt_of_le hj hle)
  have hstart : Answered host packets conn.outbox [] ⟨[], conn, 0, some .ok⟩ :=
    ⟨rfl, by simp [bytesFrom], by simpa using hinbox, rfl,
      fun j hj => absurd hj (Nat.not_lt_zero j)⟩
  rcases publish_loop_run hkernel (List.cons_ne_nil topic topics) hne (stdin.length + 1)
    (Nat.lt_succ_self stdin.length) hstart rfl with hall | ⟨before, e, after, hsplit, hstuck⟩
  · rw [List.nil_append] at hall
    have hle : (script (topic :: topics) stdin).length ≤ k := by
      by_contra hlt
      exact hrefused (hmono (Nat.lt_of_not_le hlt) hall.accepted)
    rw [List.take_of_length_le hle, List.take_of_length_le (Nat.le_succ_of_le hle)]
    exact ⟨hall.printed, hall.outbox⟩
  · rw [List.nil_append] at hstuck
    have hk : before.length = k := by
      refine Nat.le_antisymm ?_ ?_
      · by_contra hlt
        exact hrefused (hmono (Nat.lt_of_not_le hlt) hstuck.accepted)
      · by_contra hlt
        exact hstuck.refused (hmono (Nat.lt_of_not_le hlt) haccepted)
    have htake : (script (topic :: topics) stdin).take (k + 1) = before ++ [e] := by
      rw [hsplit, ← hk, List.take_append, List.take_of_length_le (Nat.le_succ _),
        Nat.add_sub_cancel_left]
      rfl
    rw [htake, hsplit, ← hk, List.take_left]
    exact ⟨hstuck.printed, hstuck.outbox⟩

/-- The first of two requests is answered; the second one is sent and not confirmed. -/
theorem handle_pub_sends_two :
    (handlePub someHost (.ofString "a") [.ofString "b"] [104, 105, 10, 69, 88, 73, 84, 10]
      ⟨okPacket.bytes, [], 0, 0⟩).printed = [⟨2, .ofString "a"⟩] ∧
    (handlePub someHost (.ofString "a") [.ofString "b"] [104, 105, 10, 69, 88, 73, 84, 10]
      ⟨okPacket.bytes, [], 0, 0⟩).conn.outbox =
        Entry.bytes newYear ⟨.ofString "a", .ofString "hi"⟩ ++
          Entry.bytes newYear ⟨.ofString "b", .ofString "hi"⟩ := by
  have hok : okPacket.Accepted newYear
      ⟨38, opOk, 0, 2, [(xTime, some newYear.text)], [79, 75], 2, 2, true⟩ := by
    unfold Packet.Accepted
    decide
  have hrun := @handle_pub_sends someHost ⟨fun _ => ⟨2, rfl⟩, fun _ => ⟨2, rfl⟩⟩ (.ofString "a")
    [.ofString "b"] (by decide) [104, 105, 10, 69, 88, 73, 84, 10] [okPacket]
    ⟨okPacket.bytes, [], 0, 0⟩ (by simp) 1 (fun j hj => by
      obtain rfl := Nat.lt_one_iff.mp hj
      exact ⟨okPacket, _, rfl, hok⟩) (fun h => by
      obtain ⟨q, frame, hq, -⟩ := h 1 (Nat.lt_succ_self 1)
      cases hq)
  have hscript : script [.ofString "a", .ofString "b"] [104, 105, 10, 69, 88, 73, 84, 10] =
      [⟨.ofString "a", .ofString "hi"⟩, ⟨.ofString "b", .ofString "hi"⟩] := by
    decide
  rw [hscript] at hrun
  have hlen : (CStr.ofString "hi").length = 2 := by decide
  simpa [bytesFrom, hlen, someHost] using hrun

end Bpsp.Tool
