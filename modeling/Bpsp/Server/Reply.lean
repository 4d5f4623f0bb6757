import Bpsp.Server.PublishLoop

/-!
# What a reply tells

A request with the ACK flag should be answered by one frame, an OK when the request took effect and
an ERR otherwise. `answered_iff` says when `handle__SUB`, `handle__UNSUB` and `handle__PUB` do so: the
reply needs room for the headers that it copies, `handle__SUB` reports success for a subscription
that was refused, and `handle__PUB` says nothing when the topic is missing and reports success when
it is invalid.
-/

namespace Bpsp

open CLib Topic Bpsp.Frame

/-- Every request of a run came from `frame__recv`. -/
def FromWire (_ : Broker) : Event → Prop
  | .request _ _ req => Received req
  | _ => True

/-- The tag and the topic of the subscriber have 16-bit lengths. -/
def Short (s : Subscriber) : Prop := s.subTag.length < 65536 ∧ s.getTopic.length < 65536

theorem Received.header_short {req : Frame} (h : Received req) {k v : CStr}
    (hv : headerValue req k = some v) : v.length < 65536 := by
  have hfind : req.varHeaders.find k = some (some v) := Option.join_eq_some_iff.mp hv
  exact h.keyed.values_short (HashTable.mem_of_find hfind)

/-- The subscribers that requests from the wire make are short. -/
theorem from_wire_short {b : Broker} {ev : Event} (h : FromWire b ev) : MakesOnly Short ev := by
  cases ev with
  | request env a req =>
      intro c topic htopic
      refine ⟨?_, by rw [new_sub_topic]; exact Received.header_short h htopic⟩
      show ((headerValue req xSubTag).getD defaultTag).length < 65536
      cases htag : headerValue req xSubTag with
      | none => decide
      | some tag => exact Received.header_short h htag
  | _ => trivial

/-- The replies among the frames that were sent. -/
def replies (sent : Sent) : Sent := sent.filter fun x => x.2.opcode = opOk || x.2.opcode = opErr

/-- The request took effect: a new subscription is in the tree, the client has one less, or the
message has a valid topic. -/
def TookEffect (b b' : Broker) (a : Addr) (req : Frame) : Prop :=
  (req.opcode = opSub ∧ ∃ p, ¬ InTree b p ∧ InTree b' p) ∨
  (req.opcode = opUnsub ∧ ∃ identifier p, Holds b a identifier p ∧ ¬ Holds b' a identifier p) ∨
  (req.opcode = opPub ∧ ∃ topic, headerValue req xTopic = some topic ∧ (levels topic).isSome)

/-- With the ACK flag one reply is sent, which tells whether the request took effect, and without it
none. -/
structure Answered (env : Env) (b : Broker) (a : Addr) (req : Frame) : Prop where
  acked : flagIsSet req.flag flAck = true → ∃ out reply, handleInFrame env b a req = some out ∧
    replies out.sent = [(a, reply)] ∧ (reply.opcode = opOk ↔ TookEffect b out.broker a req) ∧
    (reply.opcode = opErr ↔ ¬ TookEffect b out.broker a req)
  silent : flagIsSet req.flag flAck = false → ∀ {out}, handleInFrame env b a req = some out →
    replies out.sent = []

/-- A SUB request names a topic that the tree accepts and a subscription that the client does not have,
if it names a topic. -/
def SubTold (c : Client) (req : Frame) : Prop :=
  ∀ topic, headerValue req xTopic = some topic → (levels topic).isSome ∧
    c.subs.find (subscriberMakeIdentifier topic ((headerValue req xSubTag).getD defaultTag)) = none

/-- A PUB request names a valid topic, and no empty tag gets in the way of its messages. -/
def PubTold (env : Env) (b : Broker) (a : Addr) (c : Client) (req : Frame) : Prop :=
  ∃ topic, headerValue req xTopic = some topic ∧ (levels topic).isSome ∧
    ∀ {found}, treeFindSubscribers b.store topic = some (some found) →
      (req.getVarHeader xSubTag).isSome ∨
        TagsValued topic c.addr.text (put (texts req.varHeaders) xTime env.msgTime.text)
          (found.filter fun p => !leftOut a req p)

/-- The reply has room, and it tells whether the request took effect. -/
structure Told (env : Env) (b : Broker) (a : Addr) (c : Client) (req : Frame) : Prop where
  room : ReplyRoom req.varHeaders
  sub : req.opcode = opSub → SubTold c req
  pub : req.opcode = opPub → PubTold env b a c req

section

variable {env : Env} {b b' : Broker} {a : Addr} {c : Client} {req : Frame} {sent : Sent}

theorem replies_append (sent sent' : Sent) : replies (sent ++ sent') = replies sent ++ replies sent' :=
  List.filter_append ..

theorem replies_messages {sent' : Sent} (h : SentMore (fun fr => fr.opcode = opMsg) sent sent') :
    replies sent' = replies sent := by
  obtain ⟨more, rfl, hmore⟩ := h
  have hnone : replies more = [] := by
    refine List.filter_eq_nil_iff.mpr fun x hx => ?_
    rw [hmore x hx]
    decide
  rw [replies_append, hnone, List.append_nil]

/-- A handler that ends with a reply for the status `s`. -/
theorem answered_by_reply (hreq : Received req) {s : Status} {msg : CStr}
    (hrun : handleInFrame env b a req =
      (handleReply env a req s msg sent).map fun r => ⟨r.1, b', r.2⟩)
    (hsent : replies sent = []) : Answered env b a req ↔ (flagIsSet req.flag flAck = true →
      ReplyRoom req.varHeaders ∧ (s = .ok ↔ TookEffect b b' a req)) := by
  have hsilent : flagIsSet req.flag flAck = false → ∀ {out}, handleInFrame env b a req = some out →
      replies out.sent = [] := by
    intro hack out hout
    rw [hrun, reply_no_ack hack, Option.map_some] at hout
    rw [← Option.some.inj hout]
    exact hsent
  -- the reply that is sent when there is room
  have hreply : flagIsSet req.flag flAck = true → ReplyRoom req.varHeaders →
      ∃ st fr, handleInFrame env b a req = some ⟨st, b', sent ++ [(a, fr)]⟩ ∧
        fr.opcode = (if s = .ok then opOk else opErr) ∧
        replies (sent ++ [(a, fr)]) = [(a, fr)] := by
    intro hack hroom
    obtain ⟨fr, hreply, hop⟩ := @reply_sent env a req sent hreq hack hroom s msg
    refine ⟨_, fr, by rw [hrun, hreply]; rfl, hop, ?_⟩
    rw [replies_append, hsent, List.nil_append]
    refine List.filter_eq_self.mpr fun x hx => ?_
    rw [List.mem_singleton.mp hx, hop]
    split_ifs <;> decide
  constructor
  · intro h hack
    obtain ⟨out, reply, hout, hone, hok, -⟩ := h.acked hack
    have hroom : ReplyRoom req.varHeaders := by
      by_contra hno
      rw [hrun] at hout
      obtain ⟨r, hr, rfl⟩ := Option.map_eq_some_iff.mp hout
      rw [reply_no_room hreq hack hno hr, hsent] at hone
      cases hone
    obtain ⟨st, fr, hout', hop, hone'⟩ := hreply hack hroom
    obtain rfl := Option.some.inj (hout'.symm.trans hout)
    rw [hone'] at hone
    obtain rfl : fr = reply := (Prod.mk.inj (List.cons.inj hone).1).2
    refine ⟨hroom, ?_⟩
    rw [← hok, hop]
    by_cases hs : s = .ok
    · simp [hs]
    · simp only [hs]
      decide
  · intro h
    refine ⟨fun hack => ?_, hsilent⟩
    obtain ⟨hroom, hiff⟩ := h hack
    obtain ⟨st, fr, hout, hop, hone⟩ := hreply hack hroom
    refine ⟨_, fr, hout, hone, ?_⟩
    rw [← hiff, hop]
    by_cases hs : s = .ok
    · simp only [hs, if_true]
      decide
    · simp only [hs, if_false]
      decide

/-- The handler of a request, by its opcode. -/
theorem handle_in_frame_sub (hreq : Received req) (hop : req.opcode = opSub) :
    handleInFrame env b a req = handleSub env b a req := by
  unfold handleInFrame
  rw [if_neg (by simp [hreq.done]), hop, if_neg (by decide), if_neg (by decide), if_pos rfl]

theorem handle_in_frame_unsub (hreq : Received req) (hop : req.opcode = opUnsub) :
    handleInFrame env b a req = handleUnsub env b a req := by
  unfold handleInFrame
  rw [if_neg (by simp [hreq.done]), hop, if_neg (by decide), if_neg (by decide), if_neg (by decide),
    if_pos rfl]

theorem handle_in_frame_pub (hreq : Received req) (hop : req.opcode = opPub) :
    handleInFrame env b a req = handlePub env b a req := by
  unfold handleInFrame
  rw [if_neg (by simp [hreq.done]), hop, if_neg (by decide), if_pos rfl]

theorem took_effect_sub (hop : req.opcode = opSub) :
    TookEffect b b' a req ↔ ∃ p, ¬ InTree b p ∧ InTree b' p := by
  simp [TookEffect, hop, show opSub ≠ opUnsub by decide, show opSub ≠ opPub by decide]

theorem took_effect_unsub (hop : req.opcode = opUnsub) :
    TookEffect b b' a req ↔ ∃ identifier p, Holds b a identifier p ∧ ¬ Holds b' a identifier p := by
  simp [TookEffect, hop, show opUnsub ≠ opSub by decide, show opUnsub ≠ opPub by decide]

theorem took_effect_pub (hop : req.opcode = opPub) : TookEffect b b' a req ↔
    ∃ topic, headerValue req xTopic = some topic ∧ (levels topic).isSome := by
  simp [TookEffect, hop, show opPub ≠ opSub by decide, show opPub ≠ opUnsub by decide]

variable {R : List Registration}

/-- A subscription is new in the tree exactly when the tree accepts its topic and the client does not
have it. -/
theorem sub0_registers_iff (h : Inv b R) (hc : b.heap.get a = some c) (topic : CStr)
    (subTag : Option CStr) :
    ∃ s b', clientSub0 (b.allocSub (subscriberNew topic subTag a c)).1 a b.store.subs.next =
        some (s, b') ∧
      ((∃ p, ¬ InTree b p ∧ InTree b' p) ↔ (levels topic).isSome ∧
        c.subs.find (subscriberMakeIdentifier topic (subTag.getD defaultTag)) = none) := by
  have hsame : ∀ {b'}, Inv b' R → ¬ ∃ p, ¬ InTree b p ∧ InTree b' p := by
    rintro b' h' ⟨p, hnot, hp⟩
    exact hnot ((in_tree_iff h).mpr ((in_tree_iff h').mp hp))
  cases hfind : c.subs.find (subscriberMakeIdentifier topic (subTag.getD defaultTag)) with
  | some q =>
      obtain ⟨hinv, -⟩ := alloc_sub_spec h (subscriberNew topic subTag a c) rfl
      exact ⟨_, _, sub0_dup h hc hfind, iff_of_false (hsame hinv) (by simp)⟩
  | none =>
      cases hlevels : levels topic with
      | none =>
          obtain ⟨b', hsub, -, -, -, hinv, -⟩ := sub0_invalid h hc hfind hlevels
          exact ⟨_, b', hsub, iff_of_false (hsame hinv) (by simp)⟩
      | some toks =>
          obtain ⟨b', hsub, -, -, hinv, -⟩ := sub0_ok h hc hfind hlevels
          refine ⟨_, b', hsub, iff_of_true ⟨b.store.subs.next, fun hin => ?_, ?_⟩ (by simp)⟩
          · obtain ⟨e, he, heq⟩ := List.mem_map.mp ((in_tree_iff h).mp hin)
            exact Heap.ne_next_of_get (h.topic.get_sub he) heq
          · exact (in_tree_iff hinv).mpr (by simp)

theorem answered_sub_iff (h : Inv b R) (hc : b.heap.get a = some c) (hreq : Received req)
    (hop : req.opcode = opSub) : Answered env b a req ↔
      (flagIsSet req.flag flAck = true → ReplyRoom req.varHeaders ∧ SubTold c req) := by
  have hhandler := @handle_in_frame_sub env b a req hreq hop
  cases htopic : headerValue req xTopic with
  | none =>
      obtain ⟨msg, hrun⟩ := @handle_sub_missing b a req htopic env
      rw [answered_by_reply hreq (hhandler.trans hrun) rfl, took_effect_sub hop]
      simp [SubTold, htopic]
  | some topic =>
      obtain ⟨s, b', hsub, hiff⟩ := sub0_registers_iff h hc topic (headerValue req xSubTag)
      obtain ⟨msg, hrun, -⟩ := handle_sub_eq htopic rfl hc hsub env
      rw [answered_by_reply hreq (hhandler.trans hrun) rfl, took_effect_sub hop, hiff]
      simp [SubTold, htopic]

theorem answered_unsub_iff (h : Inv b R) (hc : b.heap.get a = some c) (hreq : Received req)
    (hop : req.opcode = opUnsub) : Answered env b a req ↔
      (flagIsSet req.flag flAck = true → ReplyRoom req.varHeaders) := by
  have hhandler := @handle_in_frame_unsub env b a req hreq hop
  have hsame : ¬ ∃ identifier p, Holds b a identifier p ∧ ¬ Holds b a identifier p :=
    fun ⟨i, p, hp, hnot⟩ => hnot hp
  cases htopic : headerValue req xTopic with
  | none =>
      obtain ⟨msg, hrun⟩ := @handle_unsub_missing b a req htopic env
      rw [answered_by_reply hreq (hhandler.trans hrun) rfl, took_effect_unsub hop]
      simp
  | some topic =>
      have hunsub : ∃ s b', clientUnsub0 b a topic (headerValue req xSubTag) = some (s, b') ∧
          (s = .ok ↔ ∃ identifier p, Holds b a identifier p ∧ ¬ Holds b' a identifier p) := by
        rcases unsub0_spec h hc topic (headerValue req xSubTag) with ⟨-, hrun⟩ | ⟨tag, -, -, hrun⟩ |
          ⟨tag, p, b', -, hfind, hrun, -, hheap, -⟩
        · exact ⟨_, _, hrun, iff_of_false (by decide) hsame⟩
        · exact ⟨_, _, hrun, iff_of_false (by decide) hsame⟩
        · refine ⟨_, b', hrun, iff_of_true rfl ⟨_, p, ⟨c, hc, HashTable.mem_of_find hfind⟩, ?_⟩⟩
          rintro ⟨c', hc', hmem⟩
          rw [hheap, get_del_entry hc, if_pos rfl] at hc'
          rw [← Option.some.inj hc'] at hmem
          exact ((HashTable.mem_del_iff (h.keys hc)).mp hmem).2 rfl
      obtain ⟨s, b', hunsub, hiff⟩ := hunsub
      obtain ⟨msg, hrun, -⟩ := handle_unsub_eq htopic rfl hunsub env
      rw [answered_by_reply hreq (hhandler.trans hrun) rfl, took_effect_unsub hop]
      simp [hiff]

theorem msg_opcode {now : Timestamp} {fr : Frame} (hrun : Frame.msg now req = some (.ok, fr)) :
    fr.opcode = opMsg := by
  obtain ⟨fr₁, -, hrun₁⟩ := assert_ok_some hrun
  obtain ⟨fr₂, hop, hbuild⟩ := assert_ok_some hrun₁
  obtain ⟨fr₃, hset, hdone⟩ := assert_ok_some hbuild
  have h₂ : fr₂.opcode = opMsg := by
    rw [← (Prod.mk.inj (Option.some.inj hop)).2]
  have h₃ : fr₃.opcode = opMsg := by
    rw [show fr₃ = _ from set_var_header_frame hset]
    exact h₂
  rw [h₃] at hdone
  rw [← (Prod.mk.inj (Option.some.inj hdone)).2]

theorem opcode_kept (opcode : Byte) : KeptBySet fun fr => fr.opcode = opcode := by
  intro fr k v r h hset
  rw [set_var_header_frame hset]
  exact h

/-- What `handle__PUB` sends before the reply are messages. -/
theorem publish_to_messages {topic : Option CStr} {s : Status}
    (hrun : publishTo env b a req topic = some (s, sent)) :
    SentMore (fun fr => fr.opcode = opMsg) [] sent := by
  have hnil : ∀ {s₀ : Status}, some (s₀, ([] : Sent)) = some (s, sent) →
      SentMore (fun fr => fr.opcode = opMsg) [] sent := by
    intro s₀ heq
    rw [← (Prod.mk.inj (Option.some.inj heq)).2]
    exact SentMore.refl []
  cases topic with
  | none => exact hnil hrun
  | some topic =>
      simp only [publishTo, bind, Option.bind_eq_some_iff] at hrun
      obtain ⟨subs, -, hrun⟩ := hrun
      match subs, hrun with
      | none, hrun => exact hnil hrun
      | some [], hrun => exact hnil hrun
      | some (p :: rest), hrun =>
          simp only [publish, bind, Option.bind_eq_some_iff] at hrun
          obtain ⟨⟨s₁, fr⟩, hmsg, hrun⟩ := hrun
          dsimp only at hrun
          split_ifs at hrun with hs
          · obtain ⟨sent', hloop, heq⟩ := Option.map_eq_some_iff.mp hrun
            obtain ⟨-, rfl⟩ := Prod.mk.inj heq
            exact publish_loop_keeps (opcode_kept opMsg) _ (msg_opcode (hs ▸ hmsg)) hloop
          · exact hnil hrun

/-- Without the ACK flag, and when there is no room for the reply, `handle__PUB` sends none. -/
theorem handle_pub_silent (hreq : Received req) {out : Outcome}
    (hrun : handlePub env b a req = some out)
    (hno : flagIsSet req.flag flAck = true → ¬ ReplyRoom req.varHeaders) :
    replies out.sent = [] := by
  unfold handlePub at hrun
  split at hrun
  · rw [← Option.some.inj hrun]
    rfl
  · simp only [bind, Option.bind_eq_some_iff] at hrun
    obtain ⟨⟨s, sent⟩, hpublish, hrun⟩ := hrun
    have hmessages : replies sent = [] := replies_messages (publish_to_messages hpublish)
    dsimp only at hrun
    split_ifs at hrun
    · rw [← Option.some.inj hrun]
      exact hmessages
    · simp only [Option.bind_eq_some_iff] at hrun
      obtain ⟨r, hreply, heq⟩ := hrun
      rw [← Option.some.inj heq]
      cases hack : flagIsSet req.flag flAck with
      | false =>
          rw [reply_no_ack hack] at hreply
          rw [← Option.some.inj hreply]
          exact hmessages
      | true =>
          have hsame := reply_no_room hreq hack (hno hack) hreply
          show replies r.2 = []
          rw [hsame]
          exact hmessages

/-- What the searches find in a broker with short subscribers. -/
theorem found_target (h : Inv b R) (hshort : AllObjects Short b) {toks : List CStr}
    {found : List Subscriber} (hm : Matching b toks found) {s : Subscriber} (hs : s ∈ found) :
    Target b s := by
  obtain ⟨p, -, hget, hconnected, hne⟩ := found_connected h hm hs
  obtain ⟨htag, hpattern⟩ := hshort p s hget
  exact ⟨hconnected, hne, htag, hpattern⟩

theorem found_levels (h : Inv b R) {topic : CStr} {found : List Subscriber}
    (hfound : treeFindSubscribers b.store topic = some (some found)) :
    ∃ toks, levels topic = some toks ∧ Matching b toks found := by
  cases hlevels : levels topic with
  | none => simp [treeFindSubscribers, hlevels] at hfound
  | some toks =>
      obtain ⟨found', hfound', hm⟩ := matching_found h hlevels
      obtain rfl : found = found' := Option.some.inj (Option.some.inj (hfound.symm.trans hfound'))
      exact ⟨toks, rfl, hm⟩

/-- The delivery part is defined exactly when no empty tag gets in the way, and succeeds then. -/
theorem publish_to_iff (h : Inv b R) (hshort : AllObjects Short b) (hc : b.heap.get a = some c)
    (hreq : Received req) {t : Table} (hheaders : req.varHeaders = stored t) (hwf : WellFormed t)
    (hfits : encSize t ≤ 65535) {topic : CStr} {toks : List CStr}
    (htopic : headerValue req xTopic = some topic) (hlevels : levels topic = some toks) :
    ∃ found, treeFindSubscribers b.store topic = some (some found) ∧
      (xSubTag ∈ t.keys ∨ TagsValued topic c.addr.text (put t xTime env.msgTime.text)
          (found.filter fun p => !leftOut a req p) →
        ∃ sent, publishTo env b a req (some topic) = some (.ok, sent)) ∧
      (¬ (xSubTag ∈ t.keys ∨ TagsValued topic c.addr.text (put t xTime env.msgTime.text)
          (found.filter fun p => !leftOut a req p)) →
        publishTo env b a req (some topic) = none) := by
  obtain ⟨found, hfound, hmatch⟩ := matching_found h hlevels
  refine ⟨found, hfound, ?_⟩
  have htargets : ∀ p ∈ found, Target b p := fun p hp => found_target h hshort hmatch hp
  have hrun : publishTo env b a req (some topic) = publish env b a req topic (some found) := by
    simp only [publishTo, hfound, bind, Option.bind_some]
  obtain ⟨hmsg, htimed⟩ := msg_fits hreq hheaders hwf hfits env.msgTime
  have hcarries := carries_withHeaders (messageOf req) htimed
    (hwf.put (show xTime.length ≠ 0 by decide) (Timestamp.length_ne env.msgTime))
  have hiff := @publish_loop_defined_iff env b a c req _ topic _ hc (levels_length_ne hlevels)
    (Received.header_short hreq htopic) hcarries rfl [] found htargets
  have hkey : xSubTag ∈ (put t xTime env.msgTime.text).keys ↔ xSubTag ∈ t.keys := by
    rw [mem_keys_put, or_iff_right (show xSubTag ≠ xTime by decide)]
  rw [hkey] at hiff
  rw [hrun]
  cases found with
  | nil => exact ⟨fun _ => ⟨[], rfl⟩, fun hnot => absurd (Or.inr trivial) hnot⟩
  | cons p rest =>
      have hpublish : publish env b a req topic (some (p :: rest)) =
          (publishLoop env b a req topic (p :: rest) ((messageOf req).withHeaders
            (put t xTime env.msgTime.text)) []).map fun sent => (.ok, sent) := by
        unfold publish
        simp only [hmsg, bind, Option.bind_some, if_true]
      rw [hpublish]
      refine ⟨fun hyes => ?_, fun hnot => ?_⟩
      · obtain ⟨sent, hloop⟩ := hiff.mpr hyes
        exact ⟨sent, by rw [hloop]; rfl⟩
      · rw [Option.map_eq_none_iff, Option.eq_none_iff_forall_ne_some]
        exact fun sent hloop => hnot (hiff.mp ⟨sent, hloop⟩)

theorem answered_pub_iff (h : Inv b R) (hshort : AllObjects Short b) (hc : b.heap.get a = some c)
    (hreq : Received req) (hop : req.opcode = opPub) : Answered env b a req ↔
      (flagIsSet req.flag flAck = true → ReplyRoom req.varHeaders ∧ PubTold env b a c req) := by
  have hhandler := @handle_in_frame_pub env b a req hreq hop
  have hsilent : flagIsSet req.flag flAck = false → ∀ {out}, handleInFrame env b a req = some out →
      replies out.sent = [] := fun hack {out} hout =>
    handle_pub_silent hreq (hhandler ▸ hout) fun hack' => by rw [hack] at hack'; cases hack'
  cases hack : flagIsSet req.flag flAck with
  | false => exact iff_of_true ⟨by simp [hack], hsilent⟩ (by simp)
  | true =>
      have hmute : ∀ {P : Prop}, (∀ {out}, handlePub env b a req = some out →
          replies out.sent = []) → ¬ P → (Answered env b a req ↔ (true = true → P)) := by
        intro P hnone hP
        refine iff_of_false (fun h => ?_) fun h => hP (h rfl)
        obtain ⟨out, reply, hout, hone, -⟩ := h.acked hack
        rw [hnone (hhandler ▸ hout)] at hone
        cases hone
      by_cases hroom : ReplyRoom req.varHeaders
      swap
      · exact hmute (fun hout => handle_pub_silent hreq hout fun _ => hroom) fun h => hroom h.1
      obtain ⟨t, hheaders, hwf, hfits, -⟩ := id hroom
      have hget : req.getVarHeader xTopic = (t.find xTopic).map some := by
        unfold getVarHeader
        rw [hheaders, find_stored]
      cases hfind : t.find xTopic with
      | none =>
          rw [hfind] at hget
          refine hmute (fun {out} hout => ?_) ?_
          · unfold handlePub at hout
            simp only [hget, Option.map_none] at hout
            rw [← Option.some.inj hout]
            rfl
          · rintro ⟨-, topic, htopic, -⟩
            simp [headerValue, hget] at htopic
      | some topic =>
          rw [hfind] at hget
          have htopic : headerValue req xTopic = some topic := by
            simp [headerValue, hget]
          have hreply : ∀ {sent}, publishTo env b a req (some topic) = some (.ok, sent) →
              handleInFrame env b a req = (handleReply env a req .ok (.ofString "PUB OK.") sent).map
                fun r => ⟨r.1, b, r.2⟩ := by
            intro sent hpublish
            rw [hhandler]
            unfold handlePub
            simp only [hget, Option.map_some, hpublish, bind, Option.bind_some, ne_eq,
              not_true_eq_false, if_false]
            exact (Option.map_eq_bind ..).symm
          cases hlevels : levels topic with
          | none =>
              have hpublish : publishTo env b a req (some topic) = some (.ok, []) := by
                simp only [publishTo, treeFindSubscribers, hlevels, bind, Option.bind_some]
                rfl
              rw [answered_by_reply hreq (hreply hpublish) rfl, took_effect_pub hop, hack]
              simp [PubTold, htopic, hlevels]
          | some toks =>
              obtain ⟨found, hfound, hyes, hno⟩ := @publish_to_iff env b a c req R h hshort hc hreq
                t hheaders hwf hfits topic toks htopic hlevels
              have htold : PubTold env b a c req ↔ xSubTag ∈ t.keys ∨
                  TagsValued topic c.addr.text (put t xTime env.msgTime.text)
                    (found.filter fun p => !leftOut a req p) := by
                have hkey : (req.getVarHeader xSubTag).isSome ↔ xSubTag ∈ t.keys := by
                  unfold getVarHeader
                  rw [HashTable.find_isSome_iff, hheaders, keys_stored]
                simp only [PubTold, htopic, Option.some.injEq, exists_eq_left', hlevels,
                  Option.isSome_some, true_and, hfound, forall_eq', hkey, hheaders, texts_stored]
              by_cases hdefined : PubTold env b a c req
              · obtain ⟨sent, hpublish⟩ := hyes (htold.mp hdefined)
                rw [answered_by_reply hreq (hreply hpublish)
                  (replies_messages (publish_to_messages hpublish)), took_effect_pub hop, hack]
                simp [htopic, hlevels, hroom, hdefined]
              · have hnone : handlePub env b a req = none := by
                  unfold handlePub
                  simp only [hget, Option.map_some, hno (fun h => hdefined (htold.mpr h)), bind,
                    Option.bind_none]
                refine hmute (fun {out} hout => ?_) fun h => hdefined h.2
                rw [hnone] at hout
                cases hout

end

theorem sub_request_received (flag : Byte) {topic tag : String}
    (htopic : (CStr.ofString topic).length ≠ 0) (htag : (CStr.ofString tag).length ≠ 0)
    (hfits : encSize [(xTopic, .ofString topic), (xSubTag, .ofString tag),
      (xTime, newYear.text)] ≤ 65535) :
    Received (subRequest flag topic tag) ∧
      (encSize (put [(xTopic, .ofString topic), (xSubTag, .ofString tag), (xTime, newYear.text)]
        xStatusCode (.ofString "200")) ≤ 65535 → ReplyRoom (subRequest flag topic tag).varHeaders) := by
  have hwf : WellFormed [(xTopic, .ofString topic), (xSubTag, .ofString tag),
      (xTime, newYear.text)] :=
    ((WellFormed.nil.put (show xTopic.length ≠ 0 by decide) htopic).put
      (show xSubTag.length ≠ 0 by decide) htag).put (show xTime.length ≠ 0 by decide)
      (Timestamp.length_ne newYear)
  exact ⟨@received_request opSub flag _ newYear (by decide) hwf hfits rfl,
    fun hstatus => ⟨_, rfl, hwf, hfits, hstatus⟩⟩

end Bpsp
