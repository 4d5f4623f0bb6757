import Bpsp.Server.Consistency
import Bpsp.Server.PublishLoop
import Bpsp.Server.Serial
import Bpsp.Server.Threads

/-!
# Any interleaving of the threads

However the threads take turns, the shared data is what the operations of `Bpsp.Server.Serial` make
of it one at a time, up to the operations that threads are in the middle of. `Behind` says how far
the client object of such a thread is from the one in the sequential broker, and `Settled` ties all
of the server to that broker. `advance` is the lemma that every move of one thread goes through, and
`Settled.step` has a case for every kind of move. Moves are orderly when they do not get in the way
of the two parts of the code that take no lock.
-/

namespace Bpsp

open CLib Topic Bpsp.Frame

section Frames

/-- The call is defined and leaves a frame whose headers all have a value. -/
def Fills (x : Exec (Status × Frame)) : Prop := ∃ r, x = some r ∧ Valued r.2.varHeaders

variable {fr req : Frame}

theorem Fills.assert {x : Exec (Status × Frame)} (hx : Fills x)
    {next : Frame → Exec (Status × Frame)}
    (hnext : ∀ fr, Valued fr.varHeaders → Fills (next fr)) : Fills (assertOk x next) := by
  obtain ⟨⟨s, fr⟩, rfl, hfr⟩ := hx
  by_cases hs : s = .ok
  · subst hs
    exact hnext fr hfr
  · exact ⟨_, assert_fail _ _ hs, hfr⟩

theorem fills_set (h : Valued fr.varHeaders) (k : CStr) {v : CStr} (hv : v.length ≠ 0) :
    Fills (fr.setVarHeader k (some v)) := h.set k (Or.inl hv)

theorem fills_set_all (headers : Headers) : ∀ {fr : Frame}, Valued fr.varHeaders →
    Filled headers → Fills (fr.setVarHeaders headers) := by
  induction headers with
  | nil => exact fun h _ => ⟨_, rfl, h⟩
  | cons e headers ih =>
      intro fr h hfilled
      obtain ⟨k, value⟩ := e
      obtain ⟨v, hvalue, hv⟩ := hfilled _ List.mem_cons_self
      obtain rfl : value = some v := hvalue
      exact (fills_set h k hv).assert fun fr' h' =>
        ih h' fun e he => hfilled e (List.mem_cons_of_mem _ he)

theorem fills_set_opcode (h : Valued fr.varHeaders) (opcode : Byte) :
    Fills (some (fr.setOpcode opcode)) := by
  refine ⟨_, rfl, ?_⟩
  unfold setOpcode
  split <;> exact h

theorem fills_set_frame_control (h : Valued fr.varHeaders) (opcode flag : Byte) :
    Fills (fr.setFrameControl opcode flag) :=
  (fills_set_opcode h opcode).assert fun _ h' => ⟨_, rfl, h'⟩

theorem fills_put_payload (h : Valued fr.varHeaders) (payload : List Byte) :
    Fills (some (fr.putPayload payload)) := by
  rw [put_payload_eq]
  exact ⟨_, rfl, h⟩

theorem fills_build (h : Valued fr.varHeaders) (now : Timestamp) : Fills (fr.build now) := by
  refine (fills_set h xTime (Timestamp.length_ne now)).assert fun fr' h' => ?_
  split <;> exact ⟨_, rfl, h'⟩

theorem valued_new : Valued new.varHeaders := fun _ he => absurd he List.not_mem_nil

theorem fills_copy_header (hfilled : Filled req.varHeaders) : Fills (new.copyHeader req) :=
  (fills_set_frame_control valued_new _ _).assert fun _ h => fills_set_all _ h hfilled

/-- The message of a request whose headers all have values. -/
theorem fills_msg (hfilled : Filled req.varHeaders) (now : Timestamp) :
    Fills (Frame.msg now req) := by
  refine Fills.assert ?_ fun fr h => (fills_set_opcode h _).assert fun _ h' => fills_build h' now
  unfold Frame.copy
  split
  · exact (fills_copy_header hfilled).assert fun fr h => fills_put_payload h _
  · exact ⟨_, rfl, valued_new⟩

theorem fills_info (now : Timestamp) (version name : CStr) :
    Fills (Frame.info now version name) :=
  (fills_set_frame_control valued_new _ _).assert fun _ h =>
    (fills_put_payload h _).assert fun _ h' => fills_build h' now

/-- The reply to a request whose headers all have values. -/
theorem fills_reply (hfilled : Filled req.varHeaders) (now : Timestamp) (s : Status) (msg : CStr) :
    Fills (replyFrame now req s msg) := by
  have hend : ∀ {code : CStr}, code.length ≠ 0 → ∀ fr : Frame, Valued fr.varHeaders →
      Fills (assertOk (fr.setVarHeader xStatusCode (some code)) fun fr => fr.build now) :=
    fun hcode fr h => (fills_set h _ hcode).assert fun fr' h' => fills_build h' now
  unfold replyFrame
  split
  · exact (fills_copy_header hfilled).assert fun fr h => (fills_set_opcode h _).assert fun fr h =>
      Fills.assert ⟨_, rfl, h⟩ (hend (by decide))
  · exact (fills_copy_header hfilled).assert fun fr h => (fills_set_opcode h _).assert fun fr h =>
      (fills_put_payload h _).assert (hend (by decide))

end Frames

/-- The thread is at a place where nothing that it has begun on the shared data is left to do. -/
def Thread.Serving : Thread → Prop
  | .reading | .handling _ _ | .delivering _ _ _ _ _ _ _ | .replying _ _ _ _ _ | .leaving => True
  | _ => False

/-- The thread has taken its client out of the table of clients. -/
def departed : Option Thread → Bool
  | some .departed => true
  | _ => false

/-- How the client object at `x` and the one in the sequential broker differ, by the place of its
thread. -/
inductive Behind (st : Store) (x : Addr) : Option Thread → Option Client → Option Client → Prop
  | serving {thread : Thread} {c : Client} (h : thread.Serving) :
      Behind st x (some thread) (some c) (some c)
  | adding {env : Env} {req : Frame} {p : Addr} {topic : CStr} {c : Client}
      (htopic : headerValue req xTopic = some topic)
      (hfind : c.subs.find (identifierOf req topic) = none)
      (hp : st.subs.get p = some (subscriberNew topic (headerValue req xSubTag) x c)) :
      Behind st x (some (.adding env req p))
        (some { c with subs := c.subs.add (identifierOf req topic) p }) (some c)
  | deleting {env : Env} {req : Frame} {p : Addr} {topic tag : CStr} {c : Client}
      (htopic : headerValue req xTopic = some topic) (htag : headerValue req xSubTag = some tag)
      (hfind : c.subs.find (subscriberMakeIdentifier topic tag) = some p) :
      Behind st x (some (.deleting env req p))
        (some { c with subs := c.subs.del (subscriberMakeIdentifier topic tag) }) (some c)
  | departed {c : Client} : Behind st x (some .departed) (some c) (some c)
  | closing {c : Client} : Behind st x (some .closing) (some { c with subs := [] }) none
  | freeing {c : Client} : Behind st x (some .freeing) (some { c with subs := [] }) none
  | freed : Behind st x (some .freed) none none
  | printing : Behind st x (some .printing) none none
  | absent : Behind st x none none none

/-- The request came from the wire, and all its headers have values. -/
structure Proper (req : Frame) : Prop where
  received : Received req
  filled : Filled req.varHeaders

/-- The subscriber has a tag. -/
def Tagged (s : Subscriber) : Prop := s.subTag.length ≠ 0

/-- What the thread has in hand is well-formed. -/
def Thread.Ready : Thread → Prop
  | .handling _ req | .adding _ req _ | .deleting _ req _ | .replying _ req _ _ _ => Proper req
  | .delivering _ req topic _ rest frame _ => Proper req ∧ topic.length ≠ 0 ∧
      Valued frame.varHeaders ∧ ∀ p ∈ rest, Tagged p ∧ p.getTopic.length ≠ 0
  | _ => True

/-- The server is where its threads say, seen from the broker `b` of the operations that were
completed. -/
structure Settled (w : World) (b : Broker) : Prop where
  inv : ∃ R, Inv b R
  store : w.broker.store = b.store
  next : w.broker.heap.next = b.heap.next
  clients : w.broker.clients = b.clients.filter fun e => !departed (w.threads e.2)
  behind : ∀ x, Behind b.store x (w.threads x) (w.broker.heap.get x) (b.heap.get x)
  closed : ∀ x, w.closed x = true → b.heap.get x = none ∧ x < b.heap.next
  tagged : AllObjects Tagged b
  ready : ∀ {x thread}, w.threads x = some thread → thread.Ready

namespace Behind

variable {st st' : Store} {x : Addr} {thread : Option Thread} {cw c : Option Client}

/-- The place of a thread is as far behind as before when its objects are left alone. -/
theorem mono (h : Behind st x thread cw c)
    (hsubs : ∀ p s, st.subs.get p = some s → s.client = x → st'.subs.get p = some s) :
    Behind st' x thread cw c := by
  cases h with
  | serving hserving => exact serving hserving
  | adding htopic hfind hp => exact adding htopic hfind (hsubs _ _ hp rfl)
  | deleting htopic htag hfind => exact deleting htopic htag hfind
  | departed => exact departed
  | closing => exact closing
  | freeing => exact freeing
  | freed => exact freed
  | printing => exact printing
  | absent => exact absent

/-- The clients of the sequential broker are live. -/
theorem live {c₀ : Client} (h : Behind st x thread cw (some c₀)) : ∃ c, cw = some c := by
  cases h <;> exact ⟨_, rfl⟩

theorem of_serving {thread : Thread} (h : Behind st x (some thread) cw c)
    (hserving : thread.Serving) : ∃ c₀, cw = some c₀ ∧ c = some c₀ := by
  cases h with
  | serving _ => exact ⟨_, rfl, rfl⟩
  | departed => exact ⟨_, rfl, rfl⟩
  | _ => exact absurd hserving id

end Behind

theorem Thread.Serving.not_departed {thread : Thread} (h : thread.Serving) :
    Bpsp.departed (some thread) = false := by
  cases thread with
  | departed => exact absurd h id
  | _ => rfl

/-- The server at its start. -/
theorem settled_init : Settled World.init Broker.init where
  inv := ⟨[], inv_init⟩
  store := rfl
  next := rfl
  clients := rfl
  behind _ := .absent
  closed _ h := by cases h
  tagged _ _ h := by cases h
  ready h := by cases h

section Settle

variable {w : World} {b : Broker}

/-- The clients in the table are live and open. -/
theorem Settled.connected (h : Settled w b) {id : CStr} {x : Addr}
    (hmem : (id, x) ∈ w.broker.clients) :
    ∃ c₀ c, b.heap.get x = some c₀ ∧ c₀.id = id ∧ w.broker.heap.get x = some c ∧
      departed (w.threads x) = false ∧ w.closed x = false := by
  rw [h.clients, List.mem_filter] at hmem
  obtain ⟨R, hinv⟩ := h.inv
  obtain ⟨c₀, hc₀, hid⟩ := hinv.clients.mp hmem.1
  have hbehind := h.behind x
  rw [hc₀] at hbehind
  obtain ⟨c, hc⟩ := hbehind.live
  refine ⟨c₀, c, hc₀, hid, hc, by simpa using hmem.2, ?_⟩
  by_contra hclosed
  have hnone := (h.closed x (by simpa using hclosed)).1
  exact absurd (hc₀.symm.trans hnone) (by simp)

theorem Settled.walk_clients (h : Settled w b) : w.walkClients = some () := by
  refine if_pos (List.all_eq_true.mpr fun e he => ?_)
  obtain ⟨-, c, -, -, hc, -⟩ := h.connected he
  rw [hc]
  rfl

theorem Settled.names (h : Settled w b) : w.broker.clients.keys.Nodup := by
  obtain ⟨R, hinv⟩ := h.inv
  rw [h.clients]
  exact hinv.names.sublist (List.filter_sublist.map _)

/-- The client of a thread that stands between operations is the same in both. -/
theorem Settled.same (h : Settled w b) {a : Addr} {thread : Thread}
    (hat : w.threads a = some thread) (hserving : thread.Serving) :
    ∃ c, w.broker.heap.get a = some c ∧ b.heap.get a = some c := by
  have hbehind := h.behind a
  rw [hat] at hbehind
  exact hbehind.of_serving hserving

/-- Between the two servers, and between the two brokers, only what belongs to the client `a` is
different. -/
structure ElsewhereKept (a : Addr) (w w' : World) (b b' : Broker) : Prop where
  threads : ∀ x, x ≠ a → w'.threads x = w.threads x
  closed : ∀ x, x ≠ a → w'.closed x = w.closed x
  heap : ∀ x, x ≠ a → w'.broker.heap.get x = w.broker.heap.get x
  heap' : ∀ x, x ≠ a → b'.heap.get x = b.heap.get x
  next : b.heap.next ≤ b'.heap.next
  subs : ∀ p s, b.store.subs.get p = some s → s.client ≠ a → b'.store.subs.get p = some s

/-- A move of one thread: what it does not touch stays as far behind as it was. -/
theorem Settled.change (h : Settled w b) {a : Addr} {w' : World} {b' : Broker}
    (hkept : ElsewhereKept a w w' b b') (hinv : ∃ R, Inv b' R) (htagged : AllObjects Tagged b')
    (hstore : w'.broker.store = b'.store) (hnext : w'.broker.heap.next = b'.heap.next)
    (hclients : w'.broker.clients = b'.clients.filter fun e => !departed (w'.threads e.2))
    (hself : Behind b'.store a (w'.threads a) (w'.broker.heap.get a) (b'.heap.get a))
    (hclosed : w'.closed a = true → b'.heap.get a = none ∧ a < b'.heap.next)
    (hready : ∀ {thread}, w'.threads a = some thread → thread.Ready) : Settled w' b' where
  inv := hinv
  store := hstore
  next := hnext
  clients := hclients
  behind x := by
    by_cases hx : x = a
    · subst hx
      exact hself
    · rw [hkept.threads x hx, hkept.heap x hx, hkept.heap' x hx]
      exact (h.behind x).mono fun p s hp hs => hkept.subs p s hp (hs ▸ hx)
  closed x hx := by
    by_cases hxa : x = a
    · subst hxa
      exact hclosed hx
    · obtain ⟨hnone, hlt⟩ := h.closed x ((hkept.closed x hxa).symm.trans hx)
      exact ⟨(hkept.heap' x hxa).trans hnone, Nat.lt_of_lt_of_le hlt hkept.next⟩
  tagged := htagged
  ready {x thread} hthread := by
    by_cases hxa : x = a
    · subst hxa
      exact hready hthread
    · exact h.ready ((hkept.threads x hxa).symm.trans hthread)

@[simp] theorem goto_self (a : Addr) (thread : Thread) :
    (w.goto a thread).threads a = some thread := if_pos rfl

theorem goto_ne {a x : Addr} (hx : x ≠ a) (thread : Thread) :
    (w.goto a thread).threads x = w.threads x := if_neg hx

/-- The table of clients does not depend on where the threads are that have not left it. -/
theorem Settled.clients_kept (h : Settled w b) {a : Addr} {w' : World}
    (hthreads : ∀ x, x ≠ a → w'.threads x = w.threads x)
    (hdeparted : departed (w'.threads a) = departed (w.threads a)) :
    w.broker.clients = b.clients.filter fun e => !departed (w'.threads e.2) := by
  refine h.clients.trans (List.filter_congr fun e _ => ?_)
  by_cases he : e.2 = a
  · rw [he, hdeparted]
  · rw [hthreads _ he]

/-- A move after which the thread is in the table of clients if and only if it was before. -/
theorem Settled.advance (h : Settled w b) {a : Addr} {thread : Thread} {brk b' : Broker}
    (hdeparted : departed (w.threads a) = departed (some thread)) (hinv : ∃ R, Inv b' R)
    (htagged : AllObjects Tagged b') (hready : thread.Ready)
    (hstore : brk.store = b'.store) (hclients : brk.clients = w.broker.clients)
    (hclients' : b'.clients = b.clients) (hnext : brk.heap.next = w.broker.heap.next)
    (hnext' : b'.heap.next = b.heap.next)
    (hheap : ∀ x, x ≠ a → brk.heap.get x = w.broker.heap.get x)
    (hheap' : ∀ x, x ≠ a → b'.heap.get x = b.heap.get x)
    (hsubs : ∀ p s, b.store.subs.get p = some s → s.client ≠ a → b'.store.subs.get p = some s)
    (hself : Behind b'.store a (some thread) (brk.heap.get a) (b'.heap.get a))
    (hgone : b.heap.get a = none → b'.heap.get a = none) :
    Settled ({ w with broker := brk }.goto a thread) b' := by
  have hkept : ElsewhereKept a w ({ w with broker := brk }.goto a thread) b b' :=
    ⟨fun _ hx => if_neg hx, fun _ _ => rfl, hheap, hheap', Nat.le_of_eq hnext'.symm, hsubs⟩
  refine h.change hkept hinv htagged hstore (hnext.trans (h.next.trans hnext'.symm)) ?_ ?_
    (fun hclosed => ?_) fun ht => ?_
  · rw [hclients']
    refine hclients.trans (h.clients_kept hkept.threads ?_)
    rw [goto_self, hdeparted]
  · rw [goto_self]
    exact hself
  · obtain ⟨hnone, hlt⟩ := h.closed a hclosed
    exact ⟨hgone hnone, hnext' ▸ hlt⟩
  · rw [goto_self] at ht
    exact Option.some.inj ht ▸ hready

/-- A move of one thread that leaves the shared data alone. -/
theorem Settled.goto (h : Settled w b) {a : Addr} {thread thread' : Thread}
    (hat : w.threads a = some thread) (hserving : thread.Serving) (hserving' : thread'.Serving)
    (hready : thread'.Ready) : Settled (w.goto a thread') b := by
  obtain ⟨c, hc, hc'⟩ := h.same hat hserving
  refine h.advance ?_ h.inv h.tagged hready h.store rfl rfl rfl rfl (fun _ _ => rfl)
    (fun _ _ => rfl) (fun _ _ hp _ => hp) ?_ id
  · rw [hat, hserving.not_departed, hserving'.not_departed]
  · rw [hc, hc']
    exact .serving hserving'

end Settle

section Sending

variable {w : World} {b : Broker} {a : Addr} {env : Env} {req : Frame}

/-- Sending to a live client is defined, closed or not. -/
theorem send_defined {c : Client} (hc : w.broker.heap.get a = some c) {frame : Frame}
    (hframe : Valued frame.varHeaders) (env : Env) (sent : Sent) :
    ∃ r, w.send env a frame sent = some r := by
  unfold World.send
  rw [hc, Option.bind_eq_bind, Option.bind_some]
  split_ifs
  · exact ⟨_, rfl⟩
  · exact client_send_valued hframe

theorem after_serving (s : Status) : (World.after s).Serving ∧ (World.after s).Ready := by
  unfold World.after
  split_ifs <;> exact ⟨trivial, trivial⟩

/-- Sending a frame to the client of the thread itself. -/
theorem Settled.answer (h : Settled w b) {thread : Thread} (hat : w.threads a = some thread)
    (hserving : thread.Serving) {x : Exec (Status × Frame)} (hx : Fills x) (sent : Sent) :
    ∃ w', (do
      let (s, out) ← x
      if s ≠ .ok then some (w.goto a .leaving)
      else do
        let (s, _) ← w.send env a out sent
        some (w.goto a (World.after s))) = some w' ∧ Settled w' b := by
  obtain ⟨⟨s, out⟩, rfl, hout⟩ := hx
  obtain ⟨c, hc, -⟩ := h.same hat hserving
  obtain ⟨⟨s', sent'⟩, hsend⟩ := send_defined hc hout env sent
  simp only [bind, Option.bind_some, hsend]
  split_ifs
  · exact ⟨_, rfl, h.goto hat hserving trivial trivial⟩
  · exact ⟨_, rfl, h.goto hat hserving (after_serving s').1 (after_serving s').2⟩

theorem Settled.inform (h : Settled w b) (hat : w.threads a = some (.handling env req)) :
    ∃ w', w.inform a env = some w' ∧ Settled w' b :=
  h.answer hat trivial (fills_info _ _ _) []

theorem Settled.echo (h : Settled w b) (hat : w.threads a = some (.handling env req)) :
    ∃ w', w.echo a env req = some w' ∧ Settled w' b := by
  have hvalued : Valued req.varHeaders := fun e he => by
    obtain ⟨v, hv, -⟩ := (h.ready hat).filled e he
    rw [hv]
    rfl
  obtain ⟨c, hc, -⟩ := h.same hat trivial
  obtain ⟨⟨s, sent⟩, hsend⟩ := send_defined hc hvalued env []
  unfold World.echo
  rw [hsend, Option.bind_eq_bind, Option.bind_some]
  exact ⟨_, rfl, h.goto hat trivial (after_serving s).1 (after_serving s).2⟩

theorem Settled.reply (h : Settled w b) {s : Status} {msg : CStr} {sent : Sent}
    (hat : w.threads a = some (.replying env req s msg sent)) :
    ∃ w', w.reply a env req s msg sent = some w' ∧ Settled w' b := by
  unfold World.reply
  split_ifs
  · exact h.answer hat trivial (fills_reply (h.ready hat).filled _ _ _) sent
  · exact ⟨_, rfl, h.goto hat trivial trivial trivial⟩

/-- With the table of clients to itself, a thread serves a subscriber like the sequential code. -/
theorem Settled.deliver_to_eq (h : Settled w b) (hlock : w.accepting = none) (topic : CStr)
    (p : Subscriber) (frame : Frame) (sent : Sent) :
    w.deliverTo env a topic p frame sent = Bpsp.deliverTo env w.broker a topic p frame sent := by
  have hsection : w.clientsSection = some () := by
    unfold World.clientsSection
    rw [hlock, h.walk_clients]
    rfl
  have hmsg : ∀ frame, w.deliverMsg env a p frame sent =
      brokerDeliverMsg env w.broker a p frame sent := by
    intro frame
    unfold World.deliverMsg brokerDeliverMsg
    simp only [hsection, bind, Option.bind_some]
    congr 1
    funext r
    split_ifs
    · rfl
    · cases hfind : w.broker.clients.find p.clientId with
      | none => rfl
      | some target =>
          obtain ⟨c₀, c, -, -, hc, -, hopen⟩ := h.connected (HashTable.mem_of_find hfind)
          simp only [World.send, hc, hopen, bind, Option.bind_some]
          rfl
  unfold World.deliverTo Bpsp.deliverTo
  simp only [hmsg]

theorem Settled.deliver (h : Settled w b) {topic : CStr} {subs rest : List Subscriber}
    {frame : Frame} {sent : Sent}
    (hat : w.threads a = some (.delivering env req topic subs rest frame sent))
    (hlock : w.accepting = none) :
    ∃ w', w.deliver a env req topic subs rest frame sent = some w' ∧ Settled w' b := by
  obtain ⟨hproper, htopic, hframe, hrest⟩ := h.ready hat
  cases rest with
  | nil => exact ⟨_, rfl, h.goto hat trivial trivial hproper⟩
  | cons p rest =>
      have hrest' : ∀ q ∈ rest, Tagged q ∧ q.getTopic.length ≠ 0 :=
        fun q hq => hrest q (List.mem_cons_of_mem _ hq)
      by_cases hout : leftOut a req p = true
      · exact ⟨_, if_pos hout, h.goto hat trivial trivial ⟨hproper, htopic, hframe, hrest'⟩⟩
      · obtain ⟨c, hc, -⟩ := h.same hat trivial
        obtain ⟨htag, hpattern⟩ := hrest p List.mem_cons_self
        obtain ⟨⟨s, frame', sent'⟩, hdeliver, hframe'⟩ := @deliver_to_valued env w.broker a c frame
          topic p sent hframe hc htopic hpattern (Or.inl htag)
        rw [World.deliver, if_neg hout, h.deliver_to_eq hlock, hdeliver]
        exact ⟨_, rfl, h.goto hat trivial trivial ⟨hproper, htopic, hframe', hrest'⟩⟩

/-- `handle__PUB` up to its loop: the search finds subscribers that were made with a tag and a
topic. -/
theorem Settled.publish (h : Settled w b) (hat : w.threads a = some (.handling env req)) :
    ∃ w', w.publish a env req = some w' ∧ Settled w' b := by
  have hproper : Proper req := h.ready hat
  obtain ⟨R, hinv⟩ := h.inv
  unfold World.publish
  cases hheader : req.getVarHeader xTopic with
  | none => exact ⟨_, rfl, h.goto hat trivial trivial trivial⟩
  | some value =>
      cases value with
      | none => exact ⟨_, rfl, h.goto hat trivial trivial hproper⟩
      | some topic =>
          cases hlevels : levels topic with
          | none =>
              have hfind : treeFindSubscribers b.store topic = some none := by
                rw [find_spec hinv, hlevels]
                rfl
              simp only [h.store, hfind, bind, Option.bind_some]
              exact ⟨_, rfl, h.goto hat trivial trivial hproper⟩
          | some toks =>
              obtain ⟨found, hfind, hmatch⟩ := matching_found hinv hlevels
              simp only [h.store, hfind, bind, Option.bind_some]
              cases found with
              | nil => exact ⟨_, rfl, h.goto hat trivial trivial hproper⟩
              | cons p rest =>
                  obtain ⟨⟨s, frame⟩, hmsg, hframe⟩ := fills_msg hproper.filled env.msgTime
                  have hsubs : ∀ q ∈ p :: rest, Tagged q ∧ q.getTopic.length ≠ 0 := by
                    intro q hq
                    obtain ⟨x, -, hget, -, htopic⟩ := found_connected hinv hmatch hq
                    exact ⟨h.tagged _ _ hget, htopic⟩
                  simp only [hmsg, Option.bind_some]
                  split_ifs
                  · exact ⟨_, rfl, h.goto hat trivial trivial
                      ⟨hproper, levels_length_ne hlevels, hframe, hsubs⟩⟩
                  · exact ⟨_, rfl, h.goto hat trivial trivial trivial⟩

end Sending

/-- The operation that a move completes, if it completes one. -/
def World.operation (w : World) : Move → Option Operation
  | .connect _ => none
  | .accept draws => w.accepting.map fun addr => .accept draws addr
  | .receive _ _ => none
  | .run a =>
      match w.threads a with
      | some (.handling _ req) =>
          if req.opcode = opSub then
            (headerValue req xTopic).map fun topic => .prepare a topic (headerValue req xSubTag)
          else none
      | some (.adding _ _ p) => some (.sub a p)
      | some (.deleting _ req _) =>
          (headerValue req xTopic).map fun topic => .unsub a topic (headerValue req xSubTag)
      | some .departed => some (.destroy a)
      | _ => none

/-- The operation, if there is one, leads from one broker to the other. -/
def Performs (b : Broker) : Option Operation → Broker → Prop
  | none, b' => b' = b
  | some op, b' => perform b op = some b'

section Operations

variable {w : World} {b : Broker} {a p : Addr} {env : Env} {req : Frame}

/-- A subscriber that a request makes has a tag. -/
theorem Proper.tagged (h : Proper req) (topic : CStr) (c : Client) :
    Tagged (subscriberNew topic (headerValue req xSubTag) a c) := by
  show ((headerValue req xSubTag).getD defaultTag).length ≠ 0
  cases htag : headerValue req xSubTag with
  | none => decide
  | some tag =>
      have hfind : req.varHeaders.find xSubTag = some (some tag) := Option.join_eq_some_iff.mp htag
      obtain ⟨v, hv, hne⟩ := h.filled _ (HashTable.mem_of_find hfind)
      rwa [← Option.some.inj hv] at hne

theorem tagged_link_free : LinkFree Tagged := fun _ _ h => h

theorem Settled.subscribe (h : Settled w b) (hat : w.threads a = some (.handling env req)) :
    ∃ w', w.subscribe a env req = some w' ∧ ∃ b', Settled w' b' ∧
      Performs b ((headerValue req xTopic).map fun topic =>
        .prepare a topic (headerValue req xSubTag)) b' := by
  have hproper : Proper req := h.ready hat
  unfold World.subscribe
  cases htopic : headerValue req xTopic with
  | none => exact ⟨_, rfl, b, h.goto hat trivial trivial hproper, rfl⟩
  | some topic =>
      obtain ⟨c, hc, hc'⟩ := h.same hat trivial
      obtain ⟨R, hinv⟩ := h.inv
      obtain ⟨hinv', hnew, -, hold⟩ :=
        alloc_sub_spec hinv (subscriberNew topic (headerValue req xSubTag) a c) rfl
      have hget : (w.broker.store.subs.alloc
          (subscriberNew topic (headerValue req xSubTag) a c)).1.get w.broker.store.subs.next =
            some (subscriberNew topic (headerValue req xSubTag) a c) :=
        Heap.get_alloc_self _ _
      have htagged : AllObjects Tagged
          (b.allocSub (subscriberNew topic (headerValue req xSubTag) a c)).1 :=
        h.tagged.alloc (hproper.tagged topic c)
      have hperform : perform b (.prepare a topic (headerValue req xSubTag)) =
          some (b.allocSub (subscriberNew topic (headerValue req xSubTag) a c)).1 := by
        rw [perform, hc']
        rfl
      simp only [hc, bind, Option.bind_some, Broker.allocSub, hget, new_sub_identifier]
      cases hfind : c.subs.find (identifierOf req topic) with
      | some q =>
          unfold identifierOf at hfind
          rw [hfind]
          refine ⟨_, rfl, _, h.advance ?_ ⟨R, hinv'⟩ htagged hproper ?_ rfl rfl rfl rfl
            (fun _ _ => rfl) (fun _ _ => rfl) (fun _ _ hp _ => hold hp) ?_ id, hperform⟩
          · rw [hat]
            rfl
          · rw [h.store]
            rfl
          · rw [hc, show (b.allocSub _).1.heap = b.heap from rfl, hc']
            exact .serving trivial
      | none =>
          have hfind' := hfind
          unfold identifierOf at hfind'
          rw [hfind']
          refine ⟨_, rfl, _, h.advance ?_ ⟨R, hinv'⟩ htagged hproper ?_ rfl rfl rfl rfl
            (fun x hx => ?_) (fun _ _ => rfl) (fun _ _ hp _ => hold hp) ?_ id, hperform⟩
          · rw [hat]
            rfl
          · rw [h.store]
            rfl
          · exact (get_add_entry hc).trans (if_neg hx)
          · rw [get_add_entry hc, if_pos rfl, show (b.allocSub _).1.heap = b.heap from rfl, hc',
              h.store]
            exact .adding htopic hfind hnew

/-- The second half of `client__sub0`. -/
theorem Settled.add (h : Settled w b) (hat : w.threads a = some (.adding env req p))
    (hlock : w.printers = 0) :
    ∃ w', w.add a env req p = some w' ∧ ∃ b', Settled w' b' ∧ perform b (.sub a p) = some b' := by
  have hproper : Proper req := h.ready hat
  have hbehind := h.behind a
  rw [hat] at hbehind
  generalize hcw : w.broker.heap.get a = cw at hbehind
  generalize hcb : b.heap.get a = cb at hbehind
  cases hbehind with
  | serving hserving => exact absurd hserving id
  | @adding _ _ _ topic c htopic hfind hp =>
      obtain ⟨R, hinv⟩ := h.inv
      obtain ⟨s, st, R', hadd, hsub0, hinv', hkeep⟩ := add_spec hinv hcb hfind hp
      have hsection : w.treeSection = some () := if_pos hlock
      have hperform : perform b (.sub a p) = some ⟨b.clients,
          addEntry b.heap a (identifierOf req topic) p, st⟩ := by
        rw [perform, hsub0]
        rfl
      have htagged : AllObjects Tagged ⟨b.clients,
          addEntry b.heap a (identifierOf req topic) p, st⟩ :=
        sub0_keeps_objects tagged_link_free h.tagged hsub0
      unfold World.add
      simp only [h.store, hp, hadd, hsection, bind, Option.bind_some, ite_self]
      refine ⟨_, rfl, _, h.advance ?_ ⟨R', hinv'⟩ htagged hproper rfl rfl rfl rfl rfl
        (fun _ _ => rfl) (fun x hx => ?_) (fun q t hq hne => ?_) ?_ (fun hnone => ?_), hperform⟩
      · rw [hat]
        rfl
      · exact (get_add_entry hcb).trans (if_neg hx)
      · refine (hkeep ?_).trans hq
        rintro rfl
        exact hne (by rw [← Option.some.inj (hp.symm.trans hq)]; rfl)
      · rw [hcw, get_add_entry hcb, if_pos rfl]
        exact .serving trivial
      · exact absurd (hcb.symm.trans hnone) (by simp)

theorem Settled.unsubscribe (h : Settled w b) (hat : w.threads a = some (.handling env req)) :
    ∃ w', w.unsubscribe a env req = some w' ∧ Settled w' b := by
  have hproper : Proper req := h.ready hat
  unfold World.unsubscribe
  cases htopic : headerValue req xTopic with
  | none => exact ⟨_, rfl, h.goto hat trivial trivial hproper⟩
  | some topic =>
      obtain ⟨c, hc, hc'⟩ := h.same hat trivial
      simp only [hc, bind, Option.bind_some]
      cases htag : headerValue req xSubTag with
      | none => exact ⟨_, rfl, h.goto hat trivial trivial hproper⟩
      | some tag =>
          dsimp only
          cases hfind : c.subs.find (subscriberMakeIdentifier topic tag) with
          | none => exact ⟨_, rfl, h.goto hat trivial trivial hproper⟩
          | some q =>
              refine ⟨_, rfl, h.advance ?_ h.inv h.tagged hproper h.store rfl rfl rfl rfl
                (fun x hx => ?_) (fun _ _ => rfl) (fun _ _ hp _ => hp) ?_ id⟩
              · rw [hat]
                rfl
              · exact (get_del_entry hc).trans (if_neg hx)
              · rw [get_del_entry hc, if_pos rfl, hc']
                exact .deleting htopic htag hfind

/-- The second half of `client__unsub0`. -/
theorem Settled.delete (h : Settled w b) (hat : w.threads a = some (.deleting env req p))
    (hlock : w.printers = 0) :
    ∃ w', w.delete a env req p = some w' ∧ ∃ b', Settled w' b' ∧
      Performs b ((headerValue req xTopic).map fun topic =>
        .unsub a topic (headerValue req xSubTag)) b' := by
  have hproper : Proper req := h.ready hat
  have hbehind := h.behind a
  rw [hat] at hbehind
  generalize hcw : w.broker.heap.get a = cw at hbehind
  generalize hcb : b.heap.get a = cb at hbehind
  cases hbehind with
  | serving hserving => exact absurd hserving id
  | @deleting _ _ _ topic tag c htopic htag hfind =>
      obtain ⟨R, hinv⟩ := h.inv
      have hmem := HashTable.mem_of_find hfind
      obtain ⟨t, ht, htclient, -⟩ := hinv.entries hcb hmem
      obtain ⟨st, R', hdel, hinv', hkeep⟩ := delete_spec hinv hcb hmem
      have hsection : w.treeSection = some () := if_pos hlock
      have hunsub0 : clientUnsub0 b a topic (some tag) = some (.ok,
          (⟨b.clients, delEntry b.heap a (subscriberMakeIdentifier topic tag), st⟩ :
            Broker).freeSub p) := by
        unfold clientUnsub0
        simp only [hcb, hfind, hdel, bind, Option.bind_some]
      have hperform : perform b (.unsub a topic (some tag)) =
          some ((⟨b.clients, delEntry b.heap a (subscriberMakeIdentifier topic tag), st⟩ :
            Broker).freeSub p) := by
        rw [perform, hunsub0]
        rfl
      have htagged := unsub0_keeps_objects tagged_link_free h.tagged hunsub0
      rw [htopic, htag]
      unfold World.delete
      simp only [h.store, ht, hdel, hsection, bind, Option.bind_some, ite_self]
      refine ⟨_, rfl, _, h.advance ?_ ⟨R', hinv'⟩ htagged hproper rfl rfl rfl rfl rfl
        (fun _ _ => rfl) (fun x hx => ?_) (fun q s hq hne => ?_) ?_ (fun hnone => ?_), hperform⟩
      · rw [hat]
        rfl
      · exact (get_del_entry hcb).trans (if_neg hx)
      · refine (hkeep ?_).trans hq
        rintro rfl
        exact hne (by rw [← Option.some.inj (ht.symm.trans hq)]; exact htclient)
      · show Behind _ a _ (w.broker.heap.get a)
          ((delEntry b.heap a (subscriberMakeIdentifier topic tag)).get a)
        rw [hcw, get_del_entry hcb, if_pos rfl]
        exact .serving trivial
      · exact absurd (hcb.symm.trans hnone) (by simp)

/-- In the table of clients the client object belongs to its id. -/
theorem name_iff {R : List Registration} (hinv : Inv b R) {c : Client} (hc : b.heap.get a = some c)
    {e : CStr × Addr} (he : e ∈ b.clients) : e.1 = c.id ↔ e.2 = a := by
  obtain ⟨id, x⟩ := e
  obtain ⟨c', hc', rfl⟩ := hinv.clients.mp he
  constructor
  · exact fun hid => hinv.client_unique hc' hc hid
  · intro hx
    obtain rfl : x = a := hx
    rw [Option.some.inj (hc'.symm.trans hc)]

theorem Settled.leave (h : Settled w b) (hat : w.threads a = some .leaving)
    (hlock : w.accepting = none) : ∃ w', w.leave a = some w' ∧ Settled w' b := by
  obtain ⟨c, hc, hc'⟩ := h.same hat trivial
  obtain ⟨R, hinv⟩ := h.inv
  have hsection : w.clientsSection = some () := by
    unfold World.clientsSection
    rw [hlock, h.walk_clients]
    rfl
  have hfind : w.broker.clients.find c.id = some a := by
    refine (HashTable.find_eq_some_iff h.names).mpr ?_
    rw [h.clients, List.mem_filter, hat]
    exact ⟨hinv.clients.mpr ⟨c, hc', rfl⟩, rfl⟩
  unfold World.leave
  simp only [hsection, hc, hfind, bind, Option.bind_some]
  have hkept : ElsewhereKept a w ({ w with broker := { w.broker with
      clients := w.broker.clients.del c.id } }.goto a .departed) b b :=
    ⟨fun _ hx => if_neg hx, fun _ _ => rfl, fun _ _ => rfl, fun _ _ => rfl, Nat.le_refl _,
      fun _ _ hp _ => hp⟩
  refine ⟨_, rfl, h.change hkept h.inv h.tagged h.store h.next ?_ ?_ (h.closed a) fun ht => ?_⟩
  · show w.broker.clients.del c.id = _
    rw [HashTable.del_eq_filter h.names, h.clients, List.filter_filter]
    refine List.filter_congr fun e he => ?_
    by_cases hea : e.2 = a
    · rw [hea, goto_self, decide_eq_false (not_not.mpr ((name_iff hinv hc' he).mpr hea))]
      rfl
    · have hne : e.1 ≠ c.id := fun hid => hea ((name_iff hinv hc' he).mp hid)
      rw [goto_ne hea, decide_eq_true hne]
      rfl
  · rw [goto_self]
    show Behind _ _ _ (w.broker.heap.get a) _
    rw [hc, hc']
    exact .departed
  · rw [goto_self] at ht
    obtain rfl := Option.some.inj ht
    trivial

/-- `client__unsub_all`, at which the client is destroyed in the sequential broker. -/
theorem Settled.unsub_all (h : Settled w b) (hat : w.threads a = some .departed)
    (hlock : w.printers = 0) :
    ∃ w', w.unsubAll a = some w' ∧ ∃ b', Settled w' b' ∧ perform b (.destroy a) = some b' := by
  have hbehind := h.behind a
  rw [hat] at hbehind
  generalize hcw : w.broker.heap.get a = cw at hbehind
  generalize hcb : b.heap.get a = cb at hbehind
  cases hbehind with
  | serving hserving => exact absurd hserving id
  | @departed c =>
      obtain ⟨R, hinv⟩ := h.inv
      obtain ⟨st, R', hstores, hdestroy, hinv'⟩ := destroy_parts hinv hcb
      obtain ⟨st', hstores', hempty, hsubs⟩ := unsub_stores_spec hinv hcb
      obtain rfl : st' = st := Option.some.inj (hstores'.symm.trans hstores)
      have hsection : w.treeSection = some () := if_pos hlock
      have hloop : unsubAllLoop a c.subs w.broker =
          some ⟨w.broker.clients, unsubHeap a c.subs w.broker.heap, st'⟩ := by
        rw [unsub_all_eq, h.store, hstores]
        rfl
      unfold World.unsubAll
      simp only [hcw, hloop, hsection, bind, Option.bind_some, ite_self]
      have hkept : ElsewhereKept a w ({ w with broker := ⟨w.broker.clients,
          unsubHeap a c.subs w.broker.heap, st'⟩ }.goto a .closing) b
          ⟨b.clients.del c.id, (unsubHeap a c.subs b.heap).free a, st'⟩ := by
        refine ⟨fun _ hx => if_neg hx, fun _ _ => rfl, fun x hx => get_unsub_heap_ne _ hx _,
          fun x hx => ?_, Nat.le_of_eq (unsub_heap_next a c.subs b.heap).symm,
          fun p s hp hne => hsubs hp hne⟩
        show ((unsubHeap a c.subs b.heap).free a).get x = _
        rw [Heap.get_free, if_neg hx, get_unsub_heap_ne _ hx]
      have hgone : ((unsubHeap a c.subs b.heap).free a).get a = none :=
        (Heap.get_free _ _ _).trans (if_pos rfl)
      refine ⟨_, rfl, _, h.change hkept ⟨R', hinv'⟩ (destroy_keeps_objects tagged_link_free h.tagged
        hdestroy) rfl ?_ ?_ ?_ (fun _ => ⟨hgone, ?_⟩) (fun ht => ?_), hdestroy⟩
      · show (unsubHeap a c.subs w.broker.heap).next = (unsubHeap a c.subs b.heap).next
        rw [unsub_heap_next, unsub_heap_next, h.next]
      · show w.broker.clients = (b.clients.del c.id).filter _
        rw [HashTable.del_eq_filter hinv.names, h.clients, List.filter_filter]
        refine List.filter_congr fun e he => ?_
        by_cases hea : e.2 = a
        · rw [hea, hat, decide_eq_false (not_not.mpr ((name_iff hinv hcb he).mpr hea))]
          exact (Bool.and_false _).symm
        · have hne : e.1 ≠ c.id := fun hid => hea ((name_iff hinv hcb he).mp hid)
          rw [goto_ne hea, decide_eq_true hne]
          exact (Bool.and_true _).symm
      · rw [goto_self]
        show Behind _ _ _ ((unsubHeap a c.subs w.broker.heap).get a)
          (((unsubHeap a c.subs b.heap).free a).get a)
        rw [hgone, get_unsub_heap (hcw.trans hcb.symm) c.subs, hempty]
        exact .closing
      · show a < (unsubHeap a c.subs b.heap).next
        rw [unsub_heap_next]
        exact Heap.lt_next_of_get hcb
      · rw [goto_self] at ht
        obtain rfl := Option.some.inj ht
        trivial

theorem Settled.close (h : Settled w b) (hat : w.threads a = some .closing) :
    ∃ w', w.close a = some w' ∧ Settled w' b := by
  have hbehind := h.behind a
  rw [hat] at hbehind
  generalize hcw : w.broker.heap.get a = cw at hbehind
  generalize hcb : b.heap.get a = cb at hbehind
  cases hbehind with
  | serving hserving => exact absurd hserving id
  | @closing c =>
      have hlt : a < b.heap.next := h.next ▸ Heap.lt_next_of_get hcw
      unfold World.close
      simp only [hcw, bind, Option.bind_some]
      refine ⟨_, rfl, h.change ⟨fun _ hx => if_neg hx, fun x hx => if_neg hx, fun _ _ => rfl,
        fun _ _ => rfl, Nat.le_refl _, fun _ _ hp _ => hp⟩ h.inv h.tagged h.store h.next ?_ ?_
        (fun _ => ⟨hcb, hlt⟩) fun ht => ?_⟩
      · refine h.clients_kept (fun _ hx => if_neg hx) ?_
        rw [goto_self, hat]
        rfl
      · rw [goto_self]
        show Behind _ a _ (w.broker.heap.get a) _
        rw [hcw, hcb]
        exact .freeing
      · rw [goto_self] at ht
        obtain rfl := Option.some.inj ht
        trivial

theorem Settled.free (h : Settled w b) (hat : w.threads a = some .freeing) :
    ∃ w', w.free a = some w' ∧ Settled w' b := by
  have hbehind := h.behind a
  rw [hat] at hbehind
  generalize hcw : w.broker.heap.get a = cw at hbehind
  generalize hcb : b.heap.get a = cb at hbehind
  cases hbehind with
  | serving hserving => exact absurd hserving id
  | @freeing c =>
      unfold World.free
      simp only [hcw, bind, Option.bind_some]
      refine ⟨_, rfl, h.advance ?_ h.inv h.tagged trivial h.store rfl rfl rfl rfl (fun x hx => ?_)
        (fun _ _ => rfl) (fun _ _ hp _ => hp) ?_ id⟩
      · rw [hat]
        rfl
      · exact (Heap.get_free _ _ _).trans (if_neg hx)
      · rw [Heap.get_free, if_pos rfl, hcb]
        exact .freed

/-- A thread whose client is gone goes into `topic__print_tree`, and then ends. -/
theorem Settled.begin_print (h : Settled w b) (hat : w.threads a = some .freed) :
    Settled ({ w with printers := w.printers + 1 }.goto a .printing) b := by
  have hself : Behind b.store a (some .printing) (w.broker.heap.get a) (b.heap.get a) := by
    have hbehind := h.behind a
    rw [hat] at hbehind
    generalize w.broker.heap.get a = cw at hbehind ⊢
    generalize b.heap.get a = cb at hbehind ⊢
    cases hbehind with
    | serving hserving => exact absurd hserving id
    | freed => exact .printing
  refine h.change ⟨fun _ hx => if_neg hx, fun _ _ => rfl, fun _ _ => rfl, fun _ _ => rfl,
    Nat.le_refl _, fun _ _ hp _ => hp⟩ h.inv h.tagged h.store h.next ?_ ?_ (h.closed a)
    fun ht => ?_
  · refine h.clients_kept (fun _ hx => if_neg hx) ?_
    rw [goto_self, hat]
    rfl
  · rw [goto_self]
    exact hself
  · rw [goto_self] at ht
    obtain rfl := Option.some.inj ht
    trivial

theorem Settled.print (h : Settled w b) (hat : w.threads a = some .printing) :
    ∃ w', w.print a = some w' ∧ Settled w' b := by
  obtain ⟨R, hinv⟩ := h.inv
  obtain ⟨qs, -, -, hprint⟩ := print_tree_spec hinv.topic
  have hself : Behind b.store a none (w.broker.heap.get a) (b.heap.get a) := by
    have hbehind := h.behind a
    rw [hat] at hbehind
    generalize w.broker.heap.get a = cw at hbehind ⊢
    generalize b.heap.get a = cb at hbehind ⊢
    cases hbehind with
    | serving hserving => exact absurd hserving id
    | printing => exact .absent
  have hgone : ({ w with printers := w.printers - 1 }.exit a).threads a = none := if_pos rfl
  unfold World.print
  simp only [h.store, hprint, bind, Option.bind_some]
  refine ⟨_, rfl, h.change ⟨fun _ hx => if_neg hx, fun _ _ => rfl, fun _ _ => rfl, fun _ _ => rfl,
    Nat.le_refl _, fun _ _ hp _ => hp⟩ ⟨R, hinv⟩ h.tagged h.store h.next ?_ ?_ (h.closed a)
    fun ht => ?_⟩
  · refine h.clients_kept (fun _ hx => if_neg hx) ?_
    rw [hgone, hat]
    rfl
  · rw [hgone]
    exact hself
  · rw [hgone] at ht
    cases ht

/-- The id that `broker__accept` draws is free in the sequential broker as well. -/
theorem Settled.find_draw (h : Settled w b) {draws : List ClientId} {d : ClientId}
    (hfind : (draws.find? fun d => (w.broker.clients.find d.text).isNone) = some d)
    (hnew : ∀ x c, w.threads x = some .departed → w.broker.heap.get x = some c →
      c.id ≠ d.text) :
    (draws.find? fun d => (b.clients.find d.text).isNone) = some d := by
  obtain ⟨R, hinv⟩ := h.inv
  obtain ⟨hfree, before, rest, rfl, hbefore⟩ := List.find?_eq_some_iff_append.mp hfind
  refine List.find?_eq_some_iff_append.mpr ⟨?_, before, rest, rfl, fun d' hd' => ?_⟩
  · rw [Option.isNone_iff_eq_none] at hfree ⊢
    rw [HashTable.find_eq_none_iff] at hfree ⊢
    intro hmem
    obtain ⟨x, hx⟩ := HashTable.mem_keys_iff.mp hmem
    by_cases hdeparted : departed (w.threads x) = true
    · obtain ⟨c, hc, hid⟩ := hinv.clients.mp hx
      have hbehind := h.behind x
      have hat : w.threads x = some .departed := by
        cases hthread : w.threads x with
        | none =>
            rw [hthread] at hdeparted
            cases hdeparted
        | some thread =>
            rw [hthread] at hdeparted
            cases thread with
            | departed => rfl
            | _ => cases hdeparted
      rw [hat, hc] at hbehind
      generalize hcw : w.broker.heap.get x = cw at hbehind
      cases hbehind with
      | serving hserving => exact absurd hserving id
      | departed => exact hnew x c hat hcw hid
    · refine hfree (HashTable.mem_keys_of_mem (v := x) ?_)
      rw [h.clients, List.mem_filter]
      exact ⟨hx, by simpa using hdeparted⟩
  · have htaken := hbefore d' hd'
    simp only [Bool.not_eq_true', Option.isNone_eq_false_iff, HashTable.find_isSome_iff] at htaken ⊢
    rw [h.clients] at htaken
    exact (List.filter_sublist.map _).subset htaken

theorem Settled.accept (h : Settled w b) {addr : SockAddr} {draws : List ClientId} {d : ClientId}
    (hfind : (draws.find? fun d => (w.broker.clients.find d.text).isNone) = some d)
    (hnew : ∀ x c, w.threads x = some .departed → w.broker.heap.get x = some c →
      c.id ≠ d.text) :
    ∃ w', w.accepted addr draws = some w' ∧ ∃ b', Settled w' b' ∧
      perform b (.accept draws addr) = some b' := by
  obtain ⟨R, hinv⟩ := h.inv
  have haccept : ∀ {brk : Broker},
      (draws.find? fun d => (brk.clients.find d.text).isNone) = some d →
      brokerAccept brk draws addr = some (⟨brk.clients.add d.text brk.heap.next,
        (brk.heap.alloc ⟨d.text, [], addr⟩).1, brk.store⟩, brk.heap.next) := by
    intro brk hdraw
    unfold brokerAccept
    rw [hdraw]
    rfl
  have hdraw := haccept (h.find_draw hfind hnew)
  obtain ⟨hinv', -⟩ := accept_spec hinv hdraw
  unfold World.accepted
  simp only [h.walk_clients, haccept hfind, bind, Option.bind_some]
  have hkept : ElsewhereKept w.broker.heap.next w
      ({ w with
          broker := ⟨w.broker.clients.add d.text w.broker.heap.next,
            (w.broker.heap.alloc ⟨d.text, [], addr⟩).1, w.broker.store⟩
          accepting := none }.goto w.broker.heap.next .reading) b
      ⟨b.clients.add d.text b.heap.next, (b.heap.alloc ⟨d.text, [], addr⟩).1, b.store⟩ :=
    ⟨fun _ hx => if_neg hx, fun _ _ => rfl, fun x hx => (Heap.get_alloc _ _ _).trans (if_neg hx),
      fun x hx => (Heap.get_alloc _ _ _).trans (if_neg (h.next ▸ hx)), Nat.le_succ _,
      fun _ _ hp _ => hp⟩
  refine ⟨_, rfl, _, h.change hkept ⟨R, hinv'⟩ h.tagged h.store ?_ ?_ ?_ (fun hclosed => ?_)
    (fun ht => ?_), ?_⟩
  · show w.broker.heap.next + 1 = b.heap.next + 1
    rw [h.next]
  · show w.broker.clients.add d.text w.broker.heap.next =
      (b.clients.add d.text b.heap.next).filter _
    rw [HashTable.add, HashTable.add, List.filter_append, ← h.next]
    have hlast : ∀ w' : World, w'.threads w.broker.heap.next = some .reading →
        [(d.text, w.broker.heap.next)].filter (fun e => !departed (w'.threads e.2)) =
          [(d.text, w.broker.heap.next)] := by
      intro w' hw'
      rw [List.filter_cons, hw']
      rfl
    rw [hlast _ (goto_self _ _)]
    congr 1
    refine h.clients.trans (List.filter_congr fun e he => ?_)
    obtain ⟨c, hc, -⟩ := hinv.clients.mp (show (e.1, e.2) ∈ b.clients from he)
    rw [goto_ne (h.next ▸ Heap.ne_next_of_get hc)]
  · rw [goto_self]
    show Behind _ _ _ ((w.broker.heap.alloc ⟨d.text, [], addr⟩).1.get w.broker.heap.next)
      ((b.heap.alloc ⟨d.text, [], addr⟩).1.get w.broker.heap.next)
    rw [Heap.get_alloc_self, h.next, Heap.get_alloc_self]
    exact .serving trivial
  · have hlt := (h.closed _ hclosed).2
    rw [h.next] at hlt
    exact absurd hlt (Nat.lt_irrefl _)
  · rw [goto_self] at ht
    obtain rfl := Option.some.inj ht
    trivial
  · rw [perform, hdraw]
    rfl

end Operations

/-- The move is one that the threads are ready for, and no lock is taken in it while a part of the
code that does without the lock is at work. A request has values in all its headers, and a new
client does not get the id of one that has left the table of clients but is not gone. -/
def World.Orderly (w : World) (m : Move) : Prop :=
  w.Enabled m ∧
  match m with
  | .connect _ => True
  | .accept draws => ∀ d, (draws.find? fun d => (w.broker.clients.find d.text).isNone) = some d →
      ∀ x c, w.threads x = some .departed → w.broker.heap.get x = some c → c.id ≠ d.text
  | .receive _ input => ∀ env req, input = some (env, req) → Proper req
  | .run a =>
      match w.threads a with
      | some (.delivering _ _ _ _ _ _ _) => w.accepting = none
      | some .leaving => w.accepting = none
      | some (.adding _ _ _) => w.printers = 0
      | some (.deleting _ _ _) => w.printers = 0
      | some .departed => w.printers = 0
      | _ => True

section Interleavings

variable {w w' : World} {b : Broker}

/-- The first section of a request, by its opcode. -/
theorem Settled.handle (h : Settled w b) {a : Addr} {env : Env} {req : Frame}
    (hat : w.threads a = some (.handling env req)) :
    ∃ w', w.handle a env req = some w' ∧ ∃ b', Settled w' b' ∧
      Performs b (w.operation (.run a)) b' := by
  have hdone := (h.ready hat).received.done
  have hop : w.operation (.run a) = if req.opcode = opSub then
      (headerValue req xTopic).map fun topic => .prepare a topic (headerValue req xSubTag)
    else none := by
    simp only [World.operation, hat]
  -- no opcode but that of SUB completes an operation
  have hnone : ∀ {x : Exec World}, req.opcode ≠ opSub → (∃ w', x = some w' ∧ Settled w' b) →
      ∃ w', x = some w' ∧ ∃ b', Settled w' b' ∧ Performs b (w.operation (.run a)) b' := by
    rintro x hne ⟨w', hx, hw'⟩
    refine ⟨w', hx, b, hw', ?_⟩
    rw [hop, if_neg hne]
    rfl
  unfold World.handle
  rw [if_neg (by simp [hdone])]
  by_cases hconnect : req.opcode = opConnect
  · rw [if_pos hconnect]
    exact hnone (by rw [hconnect]; decide) (h.inform hat)
  · rw [if_neg hconnect]
    by_cases hpub : req.opcode = opPub
    · rw [if_pos hpub]
      exact hnone (by rw [hpub]; decide) (h.publish hat)
    · rw [if_neg hpub]
      by_cases hsub : req.opcode = opSub
      · rw [if_pos hsub, hop, if_pos hsub]
        exact h.subscribe hat
      · rw [if_neg hsub]
        split_ifs
        · exact hnone hsub (h.unsubscribe hat)
        · exact hnone hsub (h.echo hat)

/-- An orderly move is defined, and completes its operation in the sequential broker. -/
theorem Settled.step (h : Settled w b) {m : Move} (hm : w.Orderly m) :
    ∃ w', w.step m = some w' ∧ ∃ b', Settled w' b' ∧ Performs b (w.operation m) b' := by
  obtain ⟨henabled, horderly⟩ := hm
  -- the moves that complete no operation
  have hnone : ∀ {m : Move} {x : Exec World}, w.operation m = none →
      (∃ w', x = some w' ∧ Settled w' b) →
      ∃ w', x = some w' ∧ ∃ b', Settled w' b' ∧ Performs b (w.operation m) b' := by
    rintro m x hop ⟨w', hx, hw'⟩
    refine ⟨w', hx, b, hw', ?_⟩
    rw [hop]
    rfl
  cases m with
  | connect addr =>
      exact hnone rfl ⟨_, rfl, h.inv, h.store, h.next, h.clients, h.behind, h.closed, h.tagged,
        h.ready⟩
  | accept draws =>
      obtain ⟨hsome, d, hd, hfree⟩ := henabled
      obtain ⟨addr, haddr⟩ := Option.isSome_iff_exists.mp hsome
      obtain ⟨d', hfind⟩ := Option.isSome_iff_exists.mp
        (List.find?_isSome (p := fun d : ClientId => (w.broker.clients.find d.text).isNone).mpr
          ⟨d, hd, hfree⟩)
      simp only [World.step, World.operation, haddr]
      exact h.accept hfind (horderly d' hfind)
  | receive a input =>
      have hat : w.threads a = some .reading := henabled
      simp only [World.step, hat]
      cases input with
      | none => exact hnone rfl ⟨_, rfl, h.goto hat trivial trivial trivial⟩
      | some input =>
          obtain ⟨env, req⟩ := input
          exact hnone rfl ⟨_, rfl, h.goto hat trivial trivial (horderly env req rfl)⟩
  | run a =>
      obtain ⟨thread, hat, hne⟩ := henabled
      simp only [hat] at horderly
      simp only [World.step, World.turn, hat]
      cases thread with
      | reading => exact absurd rfl hne
      | handling env req => exact h.handle hat
      | adding env req p =>
          rw [show w.operation (.run a) = some (.sub a p) by simp only [World.operation, hat]]
          exact h.add hat horderly
      | deleting env req p =>
          rw [show w.operation (.run a) = (headerValue req xTopic).map fun topic =>
            .unsub a topic (headerValue req xSubTag) by simp only [World.operation, hat]]
          exact h.delete hat horderly
      | delivering env req topic subs rest frame sent =>
          exact hnone (by simp only [World.operation, hat]) (h.deliver hat horderly)
      | replying env req s msg sent =>
          exact hnone (by simp only [World.operation, hat]) (h.reply hat)
      | leaving => exact hnone (by simp only [World.operation, hat]) (h.leave hat horderly)
      | departed =>
          rw [show w.operation (.run a) = some (.destroy a) by simp only [World.operation, hat]]
          exact h.unsub_all hat horderly
      | closing => exact hnone (by simp only [World.operation, hat]) (h.close hat)
      | freeing => exact hnone (by simp only [World.operation, hat]) (h.free hat)
      | freed => exact hnone (by simp only [World.operation, hat]) ⟨_, rfl, h.begin_print hat⟩
      | printing => exact hnone (by simp only [World.operation, hat]) (h.print hat)

/-- The runs of the server with any number of threads. -/
abbrev Interleaved : World → Prop := Runs World.step World.Orderly World.init

/-- The shared data of a server along a run is that of a sequential broker, up to the operations
that threads are in the middle of. -/
theorem Interleaved.settled (hw : Interleaved w) : ∃ b, Serial b ∧ Settled w b := by
  refine hw.invariant (Q := fun w => ∃ b, Serial b ∧ Settled w b)
    ⟨Broker.init, Runs.refl, settled_init⟩ ?_
  rintro w w' m ⟨b, hb, h⟩ hm hturn
  obtain ⟨w₁, hturn₁, b', h', hperforms⟩ := h.step hm
  obtain rfl := Option.some.inj (hturn.symm.trans hturn₁)
  cases hop : w.operation m with
  | none =>
      rw [hop] at hperforms
      obtain rfl : b' = b := hperforms
      exact ⟨b', hb, h'⟩
  | some op =>
      rw [hop] at hperforms
      exact ⟨b', hb.move trivial hperforms, h'⟩

/-- No thread is in the middle of an operation. -/
def World.Quiet (w : World) : Prop := ∀ {a thread}, w.threads a = some thread → thread.Serving

theorem heap_ext {α : Type} {h h' : Heap α} (hget : ∀ a, h.get a = h'.get a)
    (hnext : h.next = h'.next) : h = h' := by
  obtain ⟨cells, next, fresh⟩ := h
  obtain ⟨cells', next', fresh'⟩ := h'
  obtain rfl : cells = cells' := funext hget
  obtain rfl : next = next' := hnext
  rfl

/-- A server without a thread in the middle of an operation has the sequential broker. -/
theorem Settled.quiet (h : Settled w b) (hquiet : w.Quiet) : w.broker = b := by
  have hclients : w.broker.clients = b.clients := by
    rw [h.clients]
    refine List.filter_eq_self.mpr fun e _ => ?_
    cases hthread : w.threads e.2 with
    | none => rfl
    | some thread =>
        rw [(hquiet hthread).not_departed]
        rfl
  have hheap : w.broker.heap = b.heap := by
    refine heap_ext (fun x => ?_) h.next
    have hbehind := h.behind x
    cases hthread : w.threads x with
    | none =>
        rw [hthread] at hbehind
        generalize w.broker.heap.get x = cw at hbehind ⊢
        generalize b.heap.get x = c at hbehind ⊢
        cases hbehind
        rfl
    | some thread =>
        rw [hthread] at hbehind
        obtain ⟨c, hc, hc'⟩ := hbehind.of_serving (hquiet hthread)
        rw [hc, hc']
  obtain ⟨⟨clients, heap, store⟩, closed, threads, accepting, printers⟩ := w
  obtain ⟨clients', heap', store'⟩ := b
  obtain rfl : clients = clients' := hclients
  obtain rfl : heap = heap' := hheap
  obtain rfl : store = store' := h.store
  rfl

end Interleavings

section Scenario

theorem proper_request {opcode flag : Byte} {t : Table} {now : Timestamp} (hop : opcode ≠ 0)
    (hwf : WellFormed t) (hfits : encSize t ≤ 65535) (htime : t.find xTime = some now.text) :
    Proper (request opcode flag t) :=
  ⟨received_request hop hwf hfits htime, Filled.stored hwf⟩

theorem proper_sub : Proper (subRequest 0 "a/b" "t") := by
  have hwf : WellFormed [(xTopic, .ofString "a/b"), (xSubTag, .ofString "t"),
      (xTime, newYear.text)] :=
    ((WellFormed.nil.put (show xTopic.length ≠ 0 by decide)
      (show (CStr.ofString "a/b").length ≠ 0 by decide)).put (show xSubTag.length ≠ 0 by decide)
      (show (CStr.ofString "t").length ≠ 0 by decide)).put (show xTime.length ≠ 0 by decide)
      (Timestamp.length_ne newYear)
  exact proper_request (by decide) hwf (by decide +kernel)
    (show _ = some newYear.text by decide +kernel)

/-- While no client is on its way out, any id can be drawn. -/
theorem orderly_accept {w : World} {draws : List ClientId} (h : w.Enabled (.accept draws))
    (hnone : ∀ x, departed (w.threads x) = false) : w.Orderly (.accept draws) := by
  refine ⟨h, fun d _ x c hx _ => ?_⟩
  have hfalse := hnone x
  rw [hx] at hfalse
  cases hfalse

theorem orderly_receive {w : World} {a : Addr} {env : Env} {req : Frame}
    (hat : w.threads a = some .reading) (hreq : Proper req) :
    w.Orderly (.receive a (some (env, req))) := by
  refine ⟨hat, fun env' req' heq => ?_⟩
  obtain ⟨rfl, rfl⟩ := Prod.mk.inj (Option.some.inj heq)
  exact hreq

/-- One client, which has subscribed. -/
theorem one_client : ∃ w, Interleaved w ∧ w.threads 0 = some .reading ∧
    (∀ x, x ≠ 0 → w.threads x = none) ∧ w.accepting = none ∧ w.printers = 0 := by
  refine ⟨_, ((((((Runs.refl.move (m := .connect firstAddr) ?_ rfl).move (m := .accept [firstId]) ?_
    rfl).move (m := .receive 0 (some (calm, subRequest 0 "a/b" "t"))) ?_ rfl).move (m := .run 0) ?_
    rfl).move (m := .run 0) ?_ rfl).move (m := .run 0) ?_ rfl), rfl, fun x hx => ?_, rfl, rfl⟩
  · exact ⟨rfl, trivial⟩
  · exact orderly_accept ⟨rfl, firstId, by simp, rfl⟩ fun _ => rfl
  · exact orderly_receive rfl proper_sub
  · exact ⟨⟨_, rfl, by simp⟩, trivial⟩
  · exact ⟨⟨_, rfl, by simp⟩, rfl⟩
  · exact ⟨⟨_, rfl, by simp⟩, trivial⟩
  · iterate 5 refine (if_neg hx).trans ?_
    rfl

/-- A server that one client has subscribed at and left. -/
theorem client_gone : ∃ w, Interleaved w ∧ ∀ a, w.threads a = none := by
  refine ⟨_, ((((((((((((Runs.refl.move (m := .connect firstAddr) ?_ rfl).move
    (m := .accept [firstId]) ?_ rfl).move
    (m := .receive 0 (some (calm, subRequest 0 "a/b" "t"))) ?_ rfl).move (m := .run 0) ?_ rfl).move
    (m := .run 0) ?_ rfl).move (m := .run 0) ?_ rfl).move (m := .receive 0 none) ?_ rfl).move
    (m := .run 0) ?_ rfl).move (m := .run 0) ?_ rfl).move (m := .run 0) ?_ rfl).move
    (m := .run 0) ?_ rfl).move (m := .run 0) ?_ rfl).move (m := .run 0) ?_ rfl, fun x => ?_⟩
  · exact ⟨rfl, trivial⟩
  · exact orderly_accept ⟨rfl, firstId, by simp, rfl⟩ fun _ => rfl
  · exact orderly_receive rfl proper_sub
  · exact ⟨⟨_, rfl, by simp⟩, trivial⟩
  · exact ⟨⟨_, rfl, by simp⟩, rfl⟩
  · exact ⟨⟨_, rfl, by simp⟩, trivial⟩
  · exact ⟨rfl, by simp⟩
  · exact ⟨⟨_, rfl, by simp⟩, rfl⟩
  · exact ⟨⟨_, rfl, by simp⟩, rfl⟩
  · exact ⟨⟨_, rfl, by simp⟩, trivial⟩
  · exact ⟨⟨_, rfl, by simp⟩, trivial⟩
  · exact ⟨⟨_, rfl, by simp⟩, trivial⟩
  · exact ⟨⟨_, rfl, by simp⟩, trivial⟩
  · by_cases hx : x = 0
    · subst hx
      rfl
    · iterate 12 refine (if_neg hx).trans ?_
      rfl

/-- A client that gets the id of one that has left the table of clients, and subscribes to the same,
takes the place of the other's subscription in the tree. A search then reads an object that was
freed. -/
theorem reused_id_reads_freed : ∃ w, Runs World.step World.Enabled World.init w ∧
    w.Enabled (.run 1) ∧ w.step (.run 1) = none := by
  refine ⟨_, (((((((((((((((Runs.refl.move (m := .connect firstAddr) ?_ rfl).move
    (m := .accept [firstId]) ?_ rfl).move
    (m := .receive 0 (some (calm, subRequest 0 "a/b" "t"))) ?_ rfl).move (m := .run 0) ?_ rfl).move
    (m := .run 0) ?_ rfl).move (m := .run 0) ?_ rfl).move (m := .receive 0 none) ?_ rfl).move
    (m := .run 0) ?_ rfl).move (m := .connect secondAddr) ?_ rfl).move
    (m := .accept [firstId]) ?_ rfl).move
    (m := .receive 1 (some (calm, subRequest 0 "a/b" "t"))) ?_ rfl).move (m := .run 1) ?_ rfl).move
    (m := .run 1) ?_ rfl).move (m := .run 1) ?_ rfl).move (m := .run 0) ?_ rfl).move
    (m := .receive 1 (some (calm, request opPub flPubEcho (pubHeaders "a/b")))) ?_ rfl, ?_, ?_⟩
  · rfl
  · exact ⟨rfl, firstId, by simp, rfl⟩
  · rfl
  · exact ⟨_, rfl, by simp⟩
  · exact ⟨_, rfl, by simp⟩
  · exact ⟨_, rfl, by simp⟩
  · rfl
  · exact ⟨_, rfl, by simp⟩
  · rfl
  · exact ⟨rfl, firstId, by simp, rfl⟩
  · rfl
  · exact ⟨_, rfl, by simp⟩
  · exact ⟨_, rfl, by simp⟩
  · exact ⟨_, rfl, by simp⟩
  · exact ⟨_, rfl, by simp⟩
  · rfl
  · exact ⟨_, rfl, by simp⟩
  · rfl

end Scenario

section Main

variable {w : World}

/-- Whatever happened before, a server without a thread in the middle of an operation has a broker
that operations one at a time lead to, with tables that agree, and its client objects are those of
its threads. -/
theorem quiet_server_consistent (hw : Interleaved w) (hquiet : w.Quiet) :
    Serial w.broker ∧ (∃ R, Inv w.broker R) ∧
      ∀ a, (w.broker.heap.get a).isSome = (w.threads a).isSome := by
  obtain ⟨b, hb, h⟩ := hw.settled
  obtain rfl := h.quiet hquiet
  refine ⟨hb, h.inv, fun a => ?_⟩
  have hbehind := h.behind a
  cases hthread : w.threads a with
  | none =>
      rw [hthread] at hbehind
      generalize w.broker.heap.get a = c at hbehind ⊢
      cases hbehind
      rfl
  | some thread =>
      obtain ⟨c, hc, -⟩ := h.same hthread (hquiet hthread)
      rw [hc]
      rfl

theorem one_client_consistent : ∃ w : World, Serial w.broker ∧ (∃ R, Inv w.broker R) ∧
    ∀ a, (w.broker.heap.get a).isSome = (w.threads a).isSome := by
  obtain ⟨w, hw, hat, hnone, -⟩ := one_client
  refine ⟨w, quiet_server_consistent hw fun {a thread} hthread => ?_⟩
  by_cases ha : a = 0
  · subst ha
    obtain rfl := Option.some.inj (hat.symm.trans hthread)
    trivial
  · rw [hnone a ha] at hthread
    cases hthread

/-- When the last client is gone, whatever the threads did before, nothing of any client is left in
the tables, and the tree is its root. -/
theorem last_client_leaves_nothing (hw : Interleaved w) (hgone : ∀ a, w.threads a = none) :
    w.broker.clients = [] ∧ (∀ a, w.broker.heap.get a = none) ∧
      (∀ x node, w.broker.store.tree.get x = some node → x = root ∧ node.subs = []) ∧
      printTree w.broker.store.tree = some [⟨0, .ofString "#root", 0⟩] := by
  obtain ⟨b, hb, h⟩ := hw.settled
  obtain rfl := h.quiet fun {a thread} hthread => absurd (hthread.symm.trans (hgone a)) (by simp)
  obtain ⟨R, hinv⟩ := h.inv
  have hheap : ∀ a, w.broker.heap.get a = none := by
    intro a
    have hbehind := h.behind a
    rw [hgone a] at hbehind
    generalize w.broker.heap.get a = c at hbehind ⊢
    cases hbehind
    rfl
  -- a registration would belong to a live client
  obtain rfl : R = [] := by
    refine List.eq_nil_iff_forall_not_mem.mpr fun e he => ?_
    obtain ⟨a, i, c, hc, -⟩ := hinv.registered he
    exact absurd (hc.symm.trans (hheap a)) (by simp)
  have hnodes : ∀ {q x}, nodeAt w.broker.store.tree q = some x → q = [] := by
    intro q x hx
    have hsome : (nodeAt w.broker.store.tree q).isSome := by
      rw [hx]
      rfl
    rw [hinv.topic.paths] at hsome
    simpa using hsome
  refine ⟨List.eq_nil_iff_forall_not_mem.mpr fun e he => ?_, hheap, fun x node hnode => ?_, ?_⟩
  · obtain ⟨c, hc, -⟩ := hinv.clients.mp (show (e.1, e.2) ∈ w.broker.clients from he)
    exact absurd (hc.symm.trans (hheap e.2)) (by simp)
  · obtain ⟨q, hq⟩ := hinv.topic.tree.shape.reach hnode
    obtain rfl := hnodes hq
    refine ⟨Option.some.inj (hq.symm.trans hinv.topic.tree.shape.root_eq), ?_⟩
    rw [hinv.topic.tree.subs hq hnode]
    rfl
  · obtain ⟨qs, hnodup, hmem, hprint⟩ := print_tree_spec hinv.topic
    obtain rfl : qs = [[]] := by
      have hall : ∀ q ∈ qs, q = [] := fun q hq => by simpa using (hmem q).mp hq
      have hroot : [] ∈ qs := (hmem []).mpr (Or.inl rfl)
      match qs, hnodup, hall, hroot with
      | [q], _, hall, _ => rw [hall q List.mem_cons_self]
      | q :: q' :: rest, hnodup, hall, _ =>
          have heq : q = q' := (hall q (by simp)).trans (hall q' (by simp)).symm
          simp [heq] at hnodup
    rw [hprint]
    rfl

theorem client_gone_leaves_nothing : ∃ w, Interleaved w ∧ w.broker.clients = [] ∧
    (∀ a, w.broker.heap.get a = none) ∧
    (∀ x node, w.broker.store.tree.get x = some node → x = root ∧ node.subs = []) ∧
    printTree w.broker.store.tree = some [⟨0, .ofString "#root", 0⟩] := by
  obtain ⟨w, hw, hgone⟩ := client_gone
  exact ⟨w, hw, last_client_leaves_nothing hw hgone⟩

end Main

end Bpsp
