import Bpsp.Server.Isolation

/-!
# Delivering a published message

`handle__PUB` sets four headers of one frame again for each subscriber. As long as all of them fit,
the headers that a subscriber gets are those of the published message with the four set for it,
whoever was served before (`addressed_addressed`, `publish_loop_fits`), and each matching subscriber
is sent one such message (`publish_delivers`).
-/

namespace Bpsp

open CLib Topic Wildcard Bpsp.Frame

/-- The headers that are set for a subscriber. -/
def subscriberHeaders (topic addr : CStr) (p : Subscriber) : Table :=
  [(xSubTag, p.subTag), (xOriginTopic, topic), (xTopic, p.getTopic), (xFrom, addr)]

/-- The headers of the message to a subscriber, made from those of the delivery frame. -/
def addressed (topic addr : CStr) (t : Table) (p : Subscriber) : Table :=
  putAll t (subscriberHeaders topic addr p)

/-- The four headers fit when they are set one after another. -/
structure Fits (topic addr : CStr) (t : Table) (p : Subscriber) : Prop where
  tag : encSize (put t xSubTag p.subTag) ≤ 65535
  origin : encSize (put (put t xSubTag p.subTag) xOriginTopic topic) ≤ 65535
  pattern : encSize (put (put (put t xSubTag p.subTag) xOriginTopic topic) xTopic p.getTopic) ≤ 65535
  source : encSize (addressed topic addr t p) ≤ 65535

/-- All headers that are set on the way fit. -/
def AllFit (topic addr : CStr) : Table → List Subscriber → Prop
  | _, [] => True
  | t, p :: rest => Fits topic addr t p ∧ AllFit topic addr (addressed topic addr t p) rest

/-- A subscriber of a connected client whose tag and topic can be header values. -/
structure Deliverable (b : Broker) (p : Subscriber) : Prop where
  connected : b.clients.find p.clientId = some p.client
  tag_ne : p.subTag.length ≠ 0
  topic_ne : p.getTopic.length ≠ 0

/-- Serving a subscriber leaves no trace in what the next one gets. -/
theorem addressed_addressed {topic addr : CStr} {t : Table} (h : t.keys.Nodup)
    (p q : Subscriber) :
    addressed topic addr (addressed topic addr t p) q = addressed topic addr t q :=
  putAll_putAll h rfl

theorem wellFormed_addressed {b : Broker} {topic addr : CStr} {t : Table} {p : Subscriber}
    (h : WellFormed t) (hp : Deliverable b p) (htopic : topic.length ≠ 0)
    (haddr : addr.length ≠ 0) : WellFormed (addressed topic addr t p) := by
  refine h.putAll fun e he => ?_
  simp only [subscriberHeaders, List.mem_cons, List.not_mem_nil, or_false] at he
  rcases he with rfl | rfl | rfl | rfl
  · exact ⟨show xSubTag.length ≠ 0 by decide, hp.tag_ne⟩
  · exact ⟨show xOriginTopic.length ≠ 0 by decide, htopic⟩
  · exact ⟨show xTopic.length ≠ 0 by decide, hp.topic_ne⟩
  · exact ⟨show xFrom.length ≠ 0 by decide, haddr⟩

section Loop

variable {env : Env} {b : Broker} {a : Addr} {c : Client} {req fr : Frame} {topic : CStr}
  {t : Table} {p : Subscriber} {sent : Sent}

/-- A subscriber whose headers fit is sent the frame with its headers. -/
theorem deliver_to_fits (h : Accounts fr t) (hdone : fr.isCompleted = true)
    (hc : b.heap.get a = some c) (hconnected : b.clients.find p.clientId = some p.client)
    (htag : p.subTag.length ≠ 0 ∨ xSubTag ∈ t.keys) (hpattern : p.getTopic.length ≠ 0)
    (htopic : topic.length ≠ 0) (hfits : Fits topic c.addr.text t p) :
    deliverTo env b a topic p fr sent = some (.ok,
      fr.withHeaders (addressed topic c.addr.text t p),
      sent ++ [(p.client, fr.withHeaders (addressed topic c.addr.text t p))]) := by
  have haddr : c.addr.text.length ≠ 0 := Nat.ne_of_gt c.addr.length_pos
  have h₁ := accounts_withHeaders fr hfits.tag (nodup_put h.nodup _ _)
  have h₂ := accounts_withHeaders fr hfits.origin (nodup_put h₁.nodup _ _)
  have h₃ := accounts_withHeaders fr hfits.pattern (nodup_put h₂.nodup _ _)
  have hset₁ := set_var_header_accounts h (by decide) htag hfits.tag
  have hset₂ := set_var_header_accounts h₁ (by decide) (Or.inl htopic) hfits.origin
  have hset₃ := set_var_header_accounts h₂ (by decide) (Or.inl hpattern) hfits.pattern
  have hset₄ := set_var_header_accounts h₃ (show xFrom.length ≠ 0 by decide) (Or.inl haddr)
    hfits.source
  have hsend := @client_send_stored env p.client sent
    (fr.withHeaders (addressed topic c.addr.text t p)) (addressed topic c.addr.text t p) hdone rfl
  unfold deliverTo brokerDeliverMsg
  simp only [hset₁, hset₂, hset₃, withHeaders_withHeaders, bind, Option.bind_some, ne_eq,
    not_true_eq_false, if_false, hconnected, if_true, hc]
  rw [withHeaders_withHeaders] at hset₄
  simp only [hset₄, Option.bind_some, not_true_eq_false, if_false]
  exact hsend ▸ rfl

/-- The loop sends every subscriber that is not left out the frame with its headers. -/
theorem publish_loop_fits (hwf : WellFormed t) (hfit : encSize t ≤ 65535)
    (hdone : fr.isCompleted = true) (hc : b.heap.get a = some c) (htopic : topic.length ≠ 0)
    (subs : List Subscriber) (hsubs : ∀ p ∈ subs, Deliverable b p)
    (hall : AllFit topic c.addr.text t (subs.filter fun p => !leftOut a req p)) (sent : Sent) :
    publishLoop env b a req topic subs (fr.withHeaders t) sent =
      some (sent ++ (subs.filter fun p => !leftOut a req p).map fun p =>
        (p.client, fr.withHeaders (addressed topic c.addr.text t p))) := by
  have haddr : c.addr.text.length ≠ 0 := Nat.ne_of_gt c.addr.length_pos
  -- the table at the head of the loop changes, what it is set to for a subscriber does not
  have hgen : ∀ (subs : List Subscriber) {u : Table} {sent : Sent}, WellFormed u →
      encSize u ≤ 65535 → (∀ p ∈ subs, Deliverable b p) →
      (∀ q, addressed topic c.addr.text u q = addressed topic c.addr.text t q) →
      AllFit topic c.addr.text u (subs.filter fun p => !leftOut a req p) →
      publishLoop env b a req topic subs (fr.withHeaders u) sent =
        some (sent ++ (subs.filter fun p => !leftOut a req p).map fun p =>
          (p.client, fr.withHeaders (addressed topic c.addr.text t p))) := by
    intro subs
    induction subs with
    | nil => exact fun _ _ _ _ _ => by simp [publishLoop]
    | cons p subs ih =>
        intro u sent hu hfits hsubs hsame hall
        have hrest : ∀ q ∈ subs, Deliverable b q := fun q hq => hsubs q (List.mem_cons_of_mem _ hq)
        have hhead := hsubs p List.mem_cons_self
        unfold publishLoop
        by_cases hout : leftOut a req p = true
        · rw [if_pos hout]
          simp only [List.filter_cons, hout, Bool.not_true, Bool.false_eq_true, if_false] at hall ⊢
          exact ih hu hfits hrest hsame hall
        · rw [if_neg hout]
          simp only [Bool.not_eq_true] at hout
          simp only [List.filter_cons, hout, Bool.not_false, if_true, List.map_cons] at hall ⊢
          obtain ⟨hp, hnext⟩ := hall
          have hstep := @deliver_to_fits env b a c (fr.withHeaders u) topic u p sent
            (accounts_withHeaders fr hfits hu.nodup) hdone hc hhead.connected (Or.inl hhead.tag_ne)
            hhead.topic_ne htopic hp
          rw [hstep, Option.bind_eq_bind, Option.bind_some, withHeaders_withHeaders]
          refine (ih (wellFormed_addressed hu hhead htopic haddr) hp.source hrest (fun q => ?_)
            hnext).trans ?_
          · rw [addressed_addressed hu.nodup, hsame]
          · rw [hsame, List.append_assoc, List.singleton_append]
  exact hgen subs hwf hfit hsubs (fun _ => rfl) hall

end Loop

/-- The message made from a request, without its headers. -/
def messageOf (req : Frame) : Frame where
  varsSize := 0
  opcode := opMsg
  flag := req.flag
  dataSize := req.payload.length
  varHeaders := []
  payload := req.payload
  payloadSize := req.payload.length
  pos := req.payload.length
  isCompleted := true

/-- `frame__MSG` copies the request and refreshes its time. -/
theorem msg_fits {req : Frame} (hreq : Received req) {t : Table}
    (hheaders : req.varHeaders = stored t) (hwf : WellFormed t) (hfits : encSize t ≤ 65535)
    (now : Timestamp) :
    Frame.msg now req = some (.ok, (messageOf req).withHeaders (put t xTime now.text)) ∧
      encSize (put t xTime now.text) ≤ 65535 := by
  obtain ⟨old, hold⟩ := hreq.time
  have hfind : t.find xTime = some old.text := by
    rw [hheaders, find_stored] at hold
    simpa using hold
  have hsame := encSize_put_same hwf.nodup hfind (now.length_eq.trans old.length_eq.symm)
  refine ⟨?_, by rw [hsame]; exact hfits⟩
  have hset : ∀ fr : Frame, fr.setOpcode opMsg = (.ok, { fr with opcode := opMsg }) := fun _ => rfl
  have hcarries : Carries { (messageOf req).withHeaders t with isCompleted := false } t :=
    ⟨rfl, rfl, hfits, hwf⟩
  rw [Frame.msg, Frame.copy, if_pos hreq.done, copy_header_fits hreq.opcode_ne hheaders hwf hfits,
    assert_ok, put_payload_eq, assert_ok, hset, assert_ok]
  exact build_fits hcarries now (show opMsg ≠ 0 by decide) (by rw [hsame]; exact hfits)

/-- The message frames among those that were sent. -/
def messages (sent : Sent) : Sent := sent.filter fun x => x.2.opcode = opMsg

/-- The frame that the subscriber `p` is sent. It depends on the request, its sender and the
subscriber only. -/
def delivered (now : Timestamp) (c : Client) (req : Frame) (t : Table) (topic : CStr)
    (p : Subscriber) : Frame :=
  (messageOf req).withHeaders (addressed topic c.addr.text (put t xTime now.text) p)

/-- What is promised of the frame for a subscriber. -/
structure MessageFor (now : Timestamp) (c : Client) (req : Frame) (topic : CStr) (p : Subscriber)
    (fr : Frame) : Prop where
  opcode : fr.opcode = opMsg
  flag : fr.flag = req.flag
  payload : fr.payload = req.payload
  tag : fr.getVarHeader xSubTag = some (some p.subTag)
  pattern : fr.getVarHeader xTopic = some (some p.getTopic)
  origin : fr.getVarHeader xOriginTopic = some (some topic)
  source : fr.getVarHeader xFrom = some (some c.addr.text)
  time : fr.getVarHeader xTime = some (some now.text)
  others : ∀ k ∉ [xSubTag, xTopic, xOriginTopic, xFrom, xTime],
    fr.getVarHeader k = req.getVarHeader k

/-- The registered subscribers whose pattern accepts the levels, each once. -/
structure Matching (b : Broker) (toks : List CStr) (found : List Subscriber) : Prop where
  nodup : (found.map (·.id)).Nodup
  mem_iff : ∀ s, s ∈ found ↔ ∃ p pat, InTree b p ∧ b.store.subs.get p = some s ∧
    s.pattern = some pat ∧ Accepts pat toks

theorem delivered_message {req : Frame} {t : Table} (hheaders : req.varHeaders = stored t)
    (hnodup : t.keys.Nodup) (now : Timestamp) (c : Client) (topic : CStr) (p : Subscriber) :
    MessageFor now c req topic p (delivered now c req t topic p) := by
  have hget : ∀ k, (delivered now c req t topic p).getVarHeader k =
      ((HashTable.find (subscriberHeaders topic c.addr.text p) k).or
        (if xTime = k then some now.text else t.find k)).map some := by
    intro k
    unfold getVarHeader delivered
    rw [withHeaders_varHeaders, find_stored, addressed, find_putAll (nodup_put hnodup _ _),
      find_put hnodup]
  have hkeys : (subscriberHeaders topic c.addr.text p).keys.Nodup :=
    show [xSubTag, xOriginTopic, xTopic, xFrom].Nodup by decide +kernel
  have hset : ∀ {k v}, (k, v) ∈ subscriberHeaders topic c.addr.text p →
      (delivered now c req t topic p).getVarHeader k = some (some v) := by
    intro k v hkv
    rw [hget, (HashTable.find_eq_some_iff hkeys).mpr hkv]
    rfl
  refine ⟨withHeaders_opcode _ _, withHeaders_flag _ _, withHeaders_payload _ _,
    hset (by simp [subscriberHeaders]), hset (by simp [subscriberHeaders]),
    hset (by simp [subscriberHeaders]), hset (by simp [subscriberHeaders]), ?_, fun k hk => ?_⟩
  · have hnone : HashTable.find (subscriberHeaders topic c.addr.text p) xTime = none := by
      rw [HashTable.find_eq_none_iff]
      exact show xTime ∉ [xSubTag, xOriginTopic, xTopic, xFrom] by decide +kernel
    rw [hget, hnone, if_pos rfl]
    rfl
  · simp only [List.mem_cons, List.not_mem_nil, or_false, not_or] at hk
    obtain ⟨h₁, h₂, h₃, h₄, h₅⟩ := hk
    have hnone : HashTable.find (subscriberHeaders topic c.addr.text p) k = none := by
      rw [HashTable.find_eq_none_iff]
      simp [HashTable.keys, subscriberHeaders, h₁, h₂, h₃, h₄]
    rw [hget, hnone, if_neg fun h => h₅ h.symm, Option.none_or]
    unfold getVarHeader
    rw [hheaders, find_stored]

theorem matching_found {b : Broker} {R : List Registration} (h : Inv b R) {topic : CStr}
    {toks : List CStr} (hlevels : levels topic = some toks) :
    ∃ found, treeFindSubscribers b.store topic = some (some found) ∧ Matching b toks found := by
  refine ⟨(lookup R toks).map fun e => b.store.sub e.sub, ?_, ?_, fun s => ?_⟩
  · rw [find_spec h, hlevels]
    rfl
  · have hids : ∀ e ∈ lookup R toks, (b.store.sub e.sub).id = e.id := by
      intro e he
      obtain ⟨s, hget, hid, -⟩ := h.topic.live (mem_lookup.mp he).1
      simpa [Store.sub, hget] using hid
    rw [List.map_map, show (lookup R toks).map ((·.id) ∘ fun e => b.store.sub e.sub) =
      (lookup R toks).map (·.id) from List.map_congr_left hids]
    refine (List.nodup_map_iff_inj_on (nodup_lookup h.topic.ids.of_map toks)).mpr ?_
    exact fun e he e' he' => h.topic.eq_of_id (mem_lookup.mp he).1 (mem_lookup.mp he').1
  · rw [List.mem_map]
    constructor
    · rintro ⟨e, he, rfl⟩
      obtain ⟨heR, hacc⟩ := mem_lookup.mp he
      obtain ⟨s, hget, -, hpat, -⟩ := h.topic.live heR
      have hs : b.store.sub e.sub = s := by simp [Store.sub, hget]
      exact ⟨e.sub, e.pattern, (in_tree_iff h).mpr (List.mem_map_of_mem heR), hs ▸ hget, hs ▸ hpat,
        hacc⟩
    · rintro ⟨p, pat, hp, hget, hpat, hacc⟩
      obtain ⟨e, he, rfl⟩ := List.mem_map.mp ((in_tree_iff h).mp hp)
      obtain ⟨s', hget', -, hpat', -⟩ := h.topic.live he
      obtain rfl : s = s' := Option.some.inj (hget.symm.trans hget')
      obtain rfl : pat = e.pattern := Option.some.inj (hpat.symm.trans hpat')
      exact ⟨e, mem_lookup.mpr ⟨he, hacc⟩, by simp [Store.sub, hget]⟩

theorem levels_length_ne {topic : CStr} {toks : List CStr} (h : levels topic = some toks) :
    topic.length ≠ 0 := by
  intro hlen
  obtain rfl : topic = default := CStr.ext (CStr.length_eq_zero_iff.mp hlen)
  exact absurd h (by rw [show levels default = none by decide]; simp)

/-- Subscribers that a search finds are objects of connected clients with a topic. -/
theorem found_connected {b : Broker} {R : List Registration} (h : Inv b R) {toks : List CStr}
    {found : List Subscriber} (hm : Matching b toks found) {s : Subscriber} (hs : s ∈ found) :
    ∃ p, InTree b p ∧ b.store.subs.get p = some s ∧
      b.clients.find s.clientId = some s.client ∧ s.getTopic.length ≠ 0 := by
  obtain ⟨p, pat, hp, hget, hpat, -⟩ := (hm.mem_iff s).mp hs
  obtain ⟨e, he, rfl⟩ := List.mem_map.mp ((in_tree_iff h).mp hp)
  obtain ⟨x, c, i, s', hc, -, hget', hclient, hcid, -⟩ := h.of_registered he
  obtain rfl : s = s' := Option.some.inj (hget.symm.trans hget')
  refine ⟨e.sub, hp, hget, ?_, ?_⟩
  · rw [hcid, hclient]
    exact h.find_client hc
  · simp only [Subscriber.pattern, Option.map_eq_some_iff] at hpat
    obtain ⟨toks', hlevels, -⟩ := hpat
    exact levels_length_ne hlevels

/-- With a tag, they can be delivered to. -/
theorem found_deliverable {b : Broker} {R : List Registration} (h : Inv b R)
    {toks : List CStr} {found : List Subscriber} (hm : Matching b toks found)
    (htags : ∀ {p s}, InTree b p → b.store.subs.get p = some s → s.subTag.length ≠ 0)
    {s : Subscriber} (hs : s ∈ found) : Deliverable b s := by
  obtain ⟨p, hp, hget, hconnected, htopic⟩ := found_connected h hm hs
  exact ⟨hconnected, htags hp hget, htopic⟩

/-- A PUB request of a connected client to a valid topic, with headers that have values and all of
which fit when they are set: each registered subscriber whose pattern accepts the topic, but for the
publisher's own when it asks for no echo, is sent one message with its headers, and nobody else is
sent a message. -/
theorem publish_delivers {b : Broker} (hb : Reachable b) {a : Addr} {c : Client}
    (hc : b.heap.get a = some c) {req : Frame} (hreq : Received req) {t : Table}
    (hheaders : req.varHeaders = stored t) (hvalues : ∀ e ∈ t, e.2.length ≠ 0) {topic : CStr}
    {toks : List CStr} (htopic : t.find xTopic = some topic) (hlevels : levels topic = some toks)
    (htags : ∀ {p s}, InTree b p → b.store.subs.get p = some s → s.subTag.length ≠ 0)
    (env : Env) (hcopy : encSize t ≤ 65535)
    (hfit : ∀ {found}, treeFindSubscribers b.store topic = some (some found) →
      AllFit topic c.addr.text (put t xTime env.msgTime.text)
        (found.filter fun p => !leftOut a req p)) :
    ∃ found out, treeFindSubscribers b.store topic = some (some found) ∧ Matching b toks found ∧
      handlePub env b a req = some out ∧ out.broker = b ∧
      messages out.sent = ((found.filter fun p => !leftOut a req p).map fun p =>
        (p.client, delivered env.msgTime c req t topic p)) ∧
      ∀ p, MessageFor env.msgTime c req topic p (delivered env.msgTime c req t topic p) := by
  obtain ⟨R, h⟩ := hb.inv
  have hfilled : Filled req.varHeaders := by
    intro e he
    rw [hheaders] at he
    obtain ⟨e', he', rfl⟩ := List.mem_map.mp he
    exact ⟨e'.2, rfl, hvalues e' he'⟩
  obtain ⟨t', hheaders', hwf, -⟩ := filled_table hreq.keyed hfilled
  obtain rfl : t = t' := stored_inj (hheaders.symm.trans hheaders')
  obtain ⟨found, hfind, hmatch⟩ := matching_found h hlevels
  obtain ⟨hmsg, htimed⟩ := msg_fits hreq hheaders hwf hcopy env.msgTime
  have hwf' : WellFormed (put t xTime env.msgTime.text) :=
    hwf.put (by decide) (Timestamp.length_ne _)
  have hloop := @publish_loop_fits env b a c req (messageOf req) topic
    (put t xTime env.msgTime.text) hwf' htimed rfl hc (levels_length_ne hlevels) found
    (fun p hp => found_deliverable h hmatch htags hp) (hfit hfind) []
  rw [List.nil_append] at hloop
  have hpublish : publish env b a req topic (some found) =
      some (.ok, (found.filter fun p => !leftOut a req p).map fun p =>
        (p.client, delivered env.msgTime c req t topic p)) := by
    cases found with
    | nil => rfl
    | cons p rest =>
        unfold publish
        simp only [hmsg, bind, Option.bind_some, if_true, hloop, Option.map_some]
        rfl
  obtain ⟨s, sent, hreply, hsent⟩ := @reply_cases env a req
    ((found.filter fun p => !leftOut a req p).map fun p =>
      (p.client, delivered env.msgTime c req t topic p)) hreq hfilled .ok (.ofString "PUB OK.")
  have hheader : req.getVarHeader xTopic = some (some topic) := by
    show req.varHeaders.find xTopic = _
    rw [hheaders, find_stored, htopic]
    rfl
  refine ⟨found, ⟨s, b, sent⟩, hfind, hmatch, ?_, rfl, ?_, fun p =>
    delivered_message hheaders hwf.nodup _ c topic p⟩
  · unfold handlePub publishTo
    simp only [hheader, bind, Option.bind_some, hfind, hpublish, ne_eq, not_true_eq_false, if_false,
      hreply]
  · have hall : messages ((found.filter fun p => !leftOut a req p).map fun p =>
        (p.client, delivered env.msgTime c req t topic p)) =
        (found.filter fun p => !leftOut a req p).map fun p =>
          (p.client, delivered env.msgTime c req t topic p) := by
      refine List.filter_eq_self.mpr fun x hx => ?_
      obtain ⟨p, -, rfl⟩ := List.mem_map.mp hx
      rfl
    rcases hsent with rfl | ⟨fr, rfl, hop⟩
    · exact hall
    · have hnot : messages [(a, fr)] = [] := by
        have hne : fr.opcode ≠ opMsg := by
          rw [hop]
          decide
        simp [messages, hne]
      show messages (_ ++ [(a, fr)]) = _
      unfold messages at hall hnot ⊢
      rw [List.filter_append, hall, hnot, List.append_nil]

/-- The headers of a message to a topic. -/
def pubHeaders (topic : String) : Table := [(xTime, newYear.text), (xTopic, .ofString topic)]

/-- The second client publishes what the first one has subscribed to. -/
theorem publish_delivers_two_clients : ∃ b₁ b₂ b₃ out,
    step Broker.init (.accept [firstId] firstAddr) = some b₁ ∧
    step b₁ (.accept [firstId, secondId] secondAddr) = some b₂ ∧
    step b₂ (.request calm 0 (subRequest 0 "a/*" "t")) = some b₃ ∧
    handlePub calm b₃ 1 (request opPub 0 (pubHeaders "a/b")) = some out ∧
    (messages out.sent).map (·.1) = [0] := by
  have hwf : WellFormed (pubHeaders "a/b") :=
    (WellFormed.nil.put (show xTime.length ≠ 0 by decide) (Timestamp.length_ne newYear)).put
      (show xTopic.length ≠ 0 by decide) (show (CStr.ofString "a/b").length ≠ 0 by decide)
  have hreq : Received (request opPub 0 (pubHeaders "a/b")) :=
    received_request (by decide) hwf (by decide +kernel)
      (show (pubHeaders "a/b").find xTime = some newYear.text by decide +kernel)
  have hreach : ∀ {b b'} ev, Reachable b → step b ev = some b' → Reachable b' :=
    fun _ hb hstep => Run.step hb trivial hstep
  have hall : ∀ {b₁ b₂ b₃ c s}, step Broker.init (.accept [firstId] firstAddr) = some b₁ →
      step b₁ (.accept [firstId, secondId] secondAddr) = some b₂ →
      step b₂ (.request calm 0 (subRequest 0 "a/*" "t")) = some b₃ →
      b₃.heap.get 1 = some c → c.addr = secondAddr →
      treeFindSubscribers b₃.store (.ofString "a/b") = some (some [s]) → b₃.store.subs.next = 1 →
      b₃.store.subs.get 0 = some s → s.client = 0 → s.subTag = .ofString "t" →
      s.getTopic = .ofString "a/*" →
      ∃ out, handlePub calm b₃ 1 (request opPub 0 (pubHeaders "a/b")) = some out ∧
        (messages out.sent).map (·.1) = [0] := by
    intro b₁ b₂ b₃ c s h₁ h₂ h₃ hc haddr hfind hnext hs hclient htag htopic
    have hb₃ : Reachable b₃ := hreach _ (hreach _ (hreach _ Run.refl h₁) h₂) h₃
    have hout : leftOut 1 (request opPub 0 (pubHeaders "a/b")) s = false := by
      unfold leftOut
      rw [hclient]
      rfl
    have hfits : Fits (.ofString "a/b") c.addr.text (put (pubHeaders "a/b") xTime newYear.text)
        s := by
      rw [haddr]
      constructor <;> simp only [addressed, subscriberHeaders, htag, htopic] <;> decide +kernel
    have htags : ∀ {p s'}, InTree b₃ p → b₃.store.subs.get p = some s' → s'.subTag.length ≠ 0 := by
      intro p s' _ hs'
      obtain rfl : p = 0 := Nat.lt_one_iff.mp (hnext ▸ Heap.lt_next_of_get hs')
      rw [← Option.some.inj (hs.symm.trans hs'), htag]
      decide
    obtain ⟨found, out, hfound, -, hpub, -, hsent, -⟩ := publish_delivers hb₃ hc hreq rfl
      (by decide +kernel) (show (pubHeaders "a/b").find xTopic = some (.ofString "a/b")
        by decide +kernel) (show levels (.ofString "a/b") = some [.ofString "a", .ofString "b"]
        by decide +kernel) htags calm (by decide +kernel) (fun {found} hfound => by
          obtain rfl : [s] = found := Option.some.inj (Option.some.inj (hfind.symm.trans hfound))
          rw [List.filter_cons, hout]
          exact ⟨hfits, trivial⟩)
    obtain rfl : [s] = found := Option.some.inj (Option.some.inj (hfind.symm.trans hfound))
    refine ⟨out, hpub, ?_⟩
    rw [hsent, List.filter_cons, hout]
    exact congrArg (fun x => [x]) hclient
  obtain ⟨out, hpub, hsent⟩ := hall rfl rfl rfl rfl rfl rfl rfl rfl rfl rfl rfl
  exact ⟨_, _, _, out, rfl, rfl, rfl, hpub, hsent⟩

end Bpsp
