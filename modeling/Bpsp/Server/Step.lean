import Bpsp.Server.Invariant

/-!
# Steps of the server

What a turn of the server does to the invariant: accepting a client adds an empty table, a request
changes the tables of its sender at most, and destroying a client removes what it has. `Run` is a
sequence of turns that each meet a condition.
-/

namespace Bpsp

open CLib Topic

variable {b b' : Broker} {R : List Registration} {a : Addr} {c : Client}

/-- The loop of `client__unsub_all` does not look at the table of clients. -/
theorem unsub_all_clients (a : Addr) (entries : List (CStr × Addr)) (b : Broker)
    (clients : HashTable CStr Addr) :
    unsubAllLoop a entries { b with clients := clients } =
      (unsubAllLoop a entries b).map fun b' => { b' with clients := clients } := by
  induction entries generalizing b with
  | nil => rfl
  | cons e rest ih =>
      unfold unsubAllLoop
      cases hdel : delSubscriber b.store e.2 with
      | none => simp
      | some r =>
          simp only [bind, Option.bind_some]
          exact ih ((⟨b.clients, delEntry b.heap a e.1, r.2⟩ : Broker).freeSub e.2)

/-- Destroying a client removes its entry from the table of clients, its subscriptions and the
client itself. -/
theorem destroy_spec (h : Inv b R) (hc : b.heap.get a = some c) :
    ∃ b' R', brokerDestroyClient b a = some b' ∧ Inv b' R' ∧ OthersKept a b b' R R' ∧
      b'.heap.get a = none := by
  obtain ⟨b₁, hloop, hclients, hget, R', h₁, hothers⟩ := unsub_all_loop h hc
  have hx : ∀ {x c'}, (b₁.heap.free a).get x = some c' → x ≠ a ∧ b₁.heap.get x = some c' := by
    intro x c' hx
    rw [Heap.get_free] at hx
    split_ifs at hx with hxa
    exact ⟨hxa, hx⟩
  have hdel : ∀ {id x}, (id, x) ∈ b.clients.del c.id ↔ (id, x) ∈ b.clients ∧ x ≠ a := by
    intro id x
    rw [HashTable.mem_del_iff h.names]
    refine and_congr_right fun hmem => not_congr ⟨?_, ?_⟩
    · rintro rfl
      exact HashTable.eq_of_mem h.names hmem (h.clients.mpr ⟨c, hc, rfl⟩)
    · rintro rfl
      obtain ⟨c', hc', hid⟩ := h.clients.mp hmem
      obtain rfl : c = c' := Option.some.inj (hc.symm.trans hc')
      exact hid.symm
  refine ⟨⟨b.clients.del c.id, b₁.heap.free a, b₁.store⟩, R', ?_, ⟨h₁.topic,
    HashTable.nodup_del h.names _, fun {id x} => ?_, fun hx' => h₁.idLength (hx hx').2,
    fun hx' => h₁.keys (hx hx').2, fun hx' hi => h₁.entries (hx hx').2 hi, fun {e} he => ?_⟩,
    hothers.trans ⟨fun {x} hxa => ?_, Nat.le_refl _, fun {id x} hxa => ?_, rfl, fun _ _ => rfl⟩, ?_⟩
  · unfold brokerDestroyClient clientDestroy clientUnsubAll
    simp only [hc, h.find_client hc, bind, Option.bind_some]
    rw [unsub_all_clients, hloop]
    rfl
  · show (id, x) ∈ b.clients.del c.id ↔ ∃ c', (b₁.heap.free a).get x = some c' ∧ c'.id = id
    rw [hdel, ← hclients, h₁.clients]
    constructor
    · rintro ⟨⟨c', hc', hid⟩, hxa⟩
      exact ⟨c', by rw [Heap.get_free, if_neg hxa, hc'], hid⟩
    · rintro ⟨c', hc', hid⟩
      exact ⟨⟨c', (hx hc').2, hid⟩, (hx hc').1⟩
  · obtain ⟨x, i, c', hc', hi⟩ := h₁.registered he
    have hxa : x ≠ a := by
      rintro rfl
      obtain rfl : { c with subs := [] } = c' := Option.some.inj (hget.symm.trans hc')
      simp at hi
    exact ⟨x, i, c', by show (b₁.heap.free a).get x = _; rw [Heap.get_free, if_neg hxa, hc'], hi⟩
  · show (b₁.heap.free a).get x = b₁.heap.get x
    rw [Heap.get_free, if_neg hxa]
  · show (id, x) ∈ b.clients.del c.id ↔ (id, x) ∈ b₁.clients
    rw [hdel, hclients]
    exact ⟨And.left, fun hmem => ⟨hmem, hxa⟩⟩
  · show (b₁.heap.free a).get a = none
    rw [Heap.get_free, if_pos rfl]

/-- An accepted client has a new id and an empty table. -/
theorem accept_spec (h : Inv b R) {draws : List ClientId} {addr : SockAddr}
    (hacc : brokerAccept b draws addr = some (b', a)) :
    Inv b' R ∧ OthersKept a b b' R R ∧ a = b.heap.next ∧ b'.store = b.store ∧
      ∃ c, b'.heap.get a = some c ∧ c.subs = [] := by
  unfold brokerAccept at hacc
  split at hacc
  · cases hacc
  · rename_i d hfind
    have hfree : b.clients.find d.text = none := by
      simpa using List.find?_some hfind
    obtain ⟨rfl, rfl⟩ := Prod.mk.inj (Option.some.inj hacc)
    have hback : ∀ {x c'}, (b.heap.alloc ⟨d.text, [], addr⟩).1.get x = some c' →
        b.heap.get x = some c' ∨ x = b.heap.next ∧ c' = ⟨d.text, [], addr⟩ := by
      intro x c' hx
      rw [Heap.get_alloc] at hx
      split_ifs at hx with hxn
      · exact Or.inr ⟨hxn, (Option.some.inj hx).symm⟩
      · exact Or.inl hx
    refine ⟨⟨h.topic, HashTable.nodup_add h.names hfree, fun {id x} => ?_, fun hx => ?_,
      fun hx => ?_, fun {x c' i p} hx hi => ?_, fun {e} he => ?_⟩, ⟨fun {x} hx => ?_, ?_,
      fun {id x} hx => ?_, rfl, fun _ _ => rfl⟩, rfl, rfl, _, Heap.get_alloc_self _ _, rfl⟩
    · show (id, x) ∈ b.clients.add d.text b.heap.next ↔
        ∃ c', (b.heap.alloc ⟨d.text, [], addr⟩).1.get x = some c' ∧ c'.id = id
      simp only [HashTable.add, List.mem_append, List.mem_singleton, h.clients, Heap.get_alloc,
        Prod.mk.injEq]
      split_ifs with hxn
      · subst hxn
        simp [Heap.get_next, eq_comm]
      · simp [hxn]
    · rcases hback hx with hx | ⟨-, rfl⟩
      · exact h.idLength hx
      · exact d.length_eq
    · rcases hback hx with hx | ⟨-, rfl⟩
      · exact h.keys hx
      · exact List.nodup_nil
    · rcases hback hx with hx | ⟨-, rfl⟩
      · exact h.entries hx hi
      · simp at hi
    · obtain ⟨x, i, c', hc', hi⟩ := h.registered he
      exact ⟨x, i, c', Heap.get_alloc_of_get hc', hi⟩
    · show (b.heap.alloc _).1.get x = b.heap.get x
      rw [Heap.get_alloc]
      exact if_neg hx
    · exact Nat.le_succ _
    · have hne : (id, x) ≠ (d.text, b.heap.next) := fun heq => hx (Prod.mk.inj heq).2
      simp [HashTable.add, hne]

/-- The cases of `client__sub0` on a new subscriber object. -/
theorem sub0_spec (h : Inv b R) (hc : b.heap.get a = some c) (topic : CStr)
    (subTag : Option CStr) :
    ∃ s b' R', clientSub0 (b.allocSub (subscriberNew topic subTag a c)).1 a b.store.subs.next =
        some (s, b') ∧ Inv b' R' ∧ OthersKept a b b' R R' := by
  cases hfind : c.subs.find (subscriberMakeIdentifier topic (subTag.getD defaultTag)) with
  | some p =>
      obtain ⟨hinv, -, -, hold⟩ := alloc_sub_spec h (subscriberNew topic subTag a c) rfl
      refine ⟨_, _, R, sub0_dup h hc hfind, hinv,
        OthersKept.of_objects (fun _ => rfl) (Nat.le_refl _) rfl fun {e} he => ?_⟩
      rw [h.topic.get_sub he]
      exact hold (h.topic.get_sub he)
  | none =>
      cases hlevels : levels topic with
      | none =>
          obtain ⟨b', hsub, -, -, -, hinv, hothers⟩ := sub0_invalid h hc hfind hlevels
          exact ⟨_, b', R, hsub, hinv, hothers⟩
      | some toks =>
          obtain ⟨b', hsub, -, -, hinv, hothers, -⟩ := sub0_ok h hc hfind hlevels
          exact ⟨_, b', _, hsub, hinv, hothers⟩

section Requests

variable {env : Env} {req : Frame} {out : Outcome}

/-- `handle__SUB` with a topic subscribes, and reports success whatever came of it. -/
theorem handle_sub_eq {topic : CStr} {subTag : Option CStr} {s : Status}
    (htopic : headerValue req Frame.xTopic = some topic)
    (htag : headerValue req Frame.xSubTag = subTag) (hc : b.heap.get a = some c)
    (hsub : clientSub0 (b.allocSub (subscriberNew topic subTag a c)).1 a b.store.subs.next =
      some (s, b')) (env : Env) :
    ∃ msg, handleSub env b a req =
        (handleReply env a req .ok msg []).map (fun r => ⟨r.1, b', r.2⟩) ∧ msg.length ≤ 100 := by
  have hpair : b.allocSub (subscriberNew topic subTag a c) =
      ((b.allocSub (subscriberNew topic subTag a c)).1, b.store.subs.next) := rfl
  unfold handleSub
  simp only [htopic, htag, hc, bind, Option.bind_some]
  rw [hpair]
  simp only [hsub, Option.bind_some]
  refine ⟨_, (Option.map_eq_bind ..).symm, ?_⟩
  split_ifs <;> decide

theorem handle_sub_missing (htopic : headerValue req Frame.xTopic = none) (env : Env) :
    ∃ msg, handleSub env b a req =
      (handleReply env a req .invalidTopic msg []).map fun r => ⟨r.1, b, r.2⟩ := by
  unfold handleSub
  simp only [htopic, bind]
  exact ⟨_, (Option.map_eq_bind ..).symm⟩

/-- `handle__UNSUB` with a topic unsubscribes, and reports what came of it. -/
theorem handle_unsub_eq {topic : CStr} {subTag : Option CStr} {s : Status}
    (htopic : headerValue req Frame.xTopic = some topic)
    (htag : headerValue req Frame.xSubTag = subTag)
    (hunsub : clientUnsub0 b a topic subTag = some (s, b')) (env : Env) :
    ∃ msg, handleUnsub env b a req =
        (handleReply env a req s msg []).map (fun r => ⟨r.1, b', r.2⟩) ∧ msg.length ≤ 100 := by
  unfold handleUnsub
  simp only [htopic, htag, hunsub, bind, Option.bind_some]
  refine ⟨_, (Option.map_eq_bind ..).symm, ?_⟩
  split_ifs <;> decide

theorem handle_unsub_missing (htopic : headerValue req Frame.xTopic = none) (env : Env) :
    ∃ msg, handleUnsub env b a req =
      (handleReply env a req .invalidTopic msg []).map fun r => ⟨r.1, b, r.2⟩ := by
  unfold handleUnsub
  simp only [htopic, bind]
  exact ⟨_, (Option.map_eq_bind ..).symm⟩

/-- What `handle__SUB` does to the broker. -/
theorem handle_sub_cases (hrun : handleSub env b a req = some out) :
    (headerValue req Frame.xTopic = none ∧ out.broker = b) ∨
    ∃ topic subTag c s, headerValue req Frame.xTopic = some topic ∧
      headerValue req Frame.xSubTag = subTag ∧ b.heap.get a = some c ∧
      clientSub0 (b.allocSub (subscriberNew topic subTag a c)).1 a b.store.subs.next =
        some (s, out.broker) := by
  unfold handleSub at hrun
  cases htopic : headerValue req Frame.xTopic with
  | none =>
      simp only [htopic, bind, Option.bind_eq_some_iff, Option.some.injEq] at hrun
      obtain ⟨r, -, rfl⟩ := hrun
      exact Or.inl ⟨rfl, rfl⟩
  | some topic =>
      simp only [htopic, bind, Option.bind_eq_some_iff, Option.some.injEq] at hrun
      obtain ⟨c, hc, ⟨s, b'⟩, hsub, r, -, rfl⟩ := hrun
      exact Or.inr ⟨topic, _, c, s, rfl, rfl, hc, hsub⟩

/-- What `handle__UNSUB` does to the broker. -/
theorem handle_unsub_cases (hrun : handleUnsub env b a req = some out) :
    (headerValue req Frame.xTopic = none ∧ out.broker = b) ∨
    ∃ topic subTag s, headerValue req Frame.xTopic = some topic ∧
      headerValue req Frame.xSubTag = subTag ∧
      clientUnsub0 b a topic subTag = some (s, out.broker) := by
  unfold handleUnsub at hrun
  cases htopic : headerValue req Frame.xTopic with
  | none =>
      simp only [htopic, bind, Option.bind_eq_some_iff, Option.some.injEq] at hrun
      obtain ⟨r, -, rfl⟩ := hrun
      exact Or.inl ⟨rfl, rfl⟩
  | some topic =>
      simp only [htopic, bind, Option.bind_eq_some_iff, Option.some.injEq] at hrun
      obtain ⟨⟨s, b'⟩, hunsub, r, -, rfl⟩ := hrun
      exact Or.inr ⟨topic, _, s, rfl, rfl, hunsub⟩

/-- Publishing changes nothing in the broker. -/
theorem handle_pub_broker (hrun : handlePub env b a req = some out) : out.broker = b := by
  unfold handlePub at hrun
  split at hrun
  · rw [← Option.some.inj hrun]
  · simp only [bind, Option.bind_eq_some_iff] at hrun
    obtain ⟨⟨s, sent⟩, -, hrun⟩ := hrun
    split_ifs at hrun
    · rw [← Option.some.inj hrun]
    · simp only [Option.bind_eq_some_iff, Option.some.injEq] at hrun
      obtain ⟨r, -, rfl⟩ := hrun
      rfl

theorem handle_connect_broker (hrun : handleConnect env b a = some out) : out.broker = b := by
  simp only [handleConnect, bind, Option.bind_eq_some_iff] at hrun
  obtain ⟨⟨s, fr⟩, -, hrun⟩ := hrun
  split_ifs at hrun
  · rw [← Option.some.inj hrun]
  · simp only [Option.bind_eq_some_iff, Option.some.injEq] at hrun
    obtain ⟨r, -, rfl⟩ := hrun
    rfl

theorem handle_echo_broker (hrun : handleEcho env b a req = some out) : out.broker = b := by
  simp only [handleEcho, bind, Option.bind_eq_some_iff, Option.some.injEq] at hrun
  obtain ⟨r, -, rfl⟩ := hrun
  rfl

/-- Only subscribing and unsubscribing change the broker. -/
theorem handle_in_frame_cases (hrun : handleInFrame env b a req = some out) :
    out.broker = b ∨ req.opcode = Frame.opSub ∧ handleSub env b a req = some out ∨
      handleUnsub env b a req = some out := by
  unfold handleInFrame at hrun
  split_ifs at hrun with hdone hconnect hpub hsub hunsub
  · exact Or.inl (by rw [← Option.some.inj hrun])
  · exact Or.inl (handle_connect_broker hrun)
  · exact Or.inl (handle_pub_broker hrun)
  · exact Or.inr (Or.inl ⟨hsub, hrun⟩)
  · exact Or.inr (Or.inr hrun)
  · exact Or.inl (handle_echo_broker hrun)

/-- A request keeps the invariant and leaves everybody else alone. -/
theorem handle_spec (h : Inv b R) (hc : b.heap.get a = some c)
    (hrun : handleInFrame env b a req = some out) :
    ∃ R', Inv out.broker R' ∧ OthersKept a b out.broker R R' := by
  have hsame : out.broker = b → ∃ R', Inv out.broker R' ∧ OthersKept a b out.broker R R' := by
    intro heq
    rw [heq]
    exact ⟨R, h, OthersKept.refl a b R⟩
  rcases handle_in_frame_cases hrun with heq | ⟨-, hsub⟩ | hunsub
  · exact hsame heq
  · rcases handle_sub_cases hsub with ⟨-, heq⟩ | ⟨topic, subTag, c', s, -, -, hc', hsub0⟩
    · exact hsame heq
    · obtain ⟨s', b', R', hsub0', hinv, hothers⟩ := sub0_spec h hc' topic subTag
      obtain ⟨-, rfl⟩ := Prod.mk.inj (Option.some.inj (hsub0.symm.trans hsub0'))
      exact ⟨R', hinv, hothers⟩
  · rcases handle_unsub_cases hunsub with ⟨-, heq⟩ | ⟨topic, subTag, s, -, -, hunsub0⟩
    · exact hsame heq
    · rcases unsub0_spec h hc topic subTag with ⟨-, hrun'⟩ | ⟨tag, -, -, hrun'⟩ |
        ⟨tag, p, b', -, -, hrun', -, -, hinv, hothers, -⟩
      · exact hsame (Prod.mk.inj (Option.some.inj (hunsub0.symm.trans hrun'))).2
      · exact hsame (Prod.mk.inj (Option.some.inj (hunsub0.symm.trans hrun'))).2
      · obtain ⟨-, rfl⟩ := Prod.mk.inj (Option.some.inj (hunsub0.symm.trans hrun'))
        exact ⟨_, hinv, hothers⟩

end Requests

/-- A handler that failed is followed by the destruction of its client. -/
theorem request_cases {env : Env} {req : Frame} (hstep : step b (.request env a req) = some b') :
    ∃ c out, b.heap.get a = some c ∧ handleInFrame env b a req = some out ∧
      (out.status = .ok ∧ b' = out.broker ∨
        out.status ≠ .ok ∧ brokerDestroyClient out.broker a = some b') := by
  simp only [step, bind, Option.bind_eq_some_iff] at hstep
  obtain ⟨c, hc, out, hout, hstep⟩ := hstep
  refine ⟨c, out, hc, hout, ?_⟩
  split_ifs at hstep with hok
  · exact Or.inl ⟨hok, (Option.some.inj hstep).symm⟩
  · exact Or.inr ⟨hok, hstep⟩

theorem destroyed_live (hrun : brokerDestroyClient b a = some b') :
    ∃ c, b.heap.get a = some c := by
  simp only [brokerDestroyClient, bind, Option.bind_eq_some_iff] at hrun
  obtain ⟨c, hc, -⟩ := hrun
  exact ⟨c, hc⟩

/-- The client that an event is about. -/
def Event.client (b : Broker) : Event → Addr
  | .accept _ _ => b.heap.next
  | .request _ a _ => a
  | .disconnect a => a

/-- Every turn keeps the invariant and leaves the other clients alone. -/
theorem step_spec (h : Inv b R) {ev : Event} (hstep : step b ev = some b') :
    ∃ R', Inv b' R' ∧ OthersKept (ev.client b) b b' R R' := by
  have hdestroy : ∀ {a b b' R}, Inv b R → brokerDestroyClient b a = some b' →
      ∃ R', Inv b' R' ∧ OthersKept a b b' R R' := by
    intro a b b' R h hrun
    obtain ⟨c, hc⟩ := destroyed_live hrun
    obtain ⟨b₁, R', hrun', hinv, hothers, -⟩ := destroy_spec h hc
    obtain rfl : b₁ = b' := Option.some.inj (hrun'.symm.trans hrun)
    exact ⟨R', hinv, hothers⟩
  cases ev with
  | accept draws addr =>
      obtain ⟨⟨b₁, a⟩, hacc, rfl⟩ := Option.map_eq_some_iff.mp hstep
      obtain ⟨hinv, hothers, rfl, -⟩ := accept_spec h hacc
      exact ⟨R, hinv, hothers⟩
  | request env a req =>
      obtain ⟨c, out, hc, hout, ⟨-, rfl⟩ | ⟨-, hrun⟩⟩ := request_cases hstep
      · exact handle_spec h hc hout
      · obtain ⟨R₁, h₁, hothers₁⟩ := handle_spec h hc hout
        obtain ⟨R₂, h₂, hothers₂⟩ := hdestroy h₁ hrun
        exact ⟨R₂, h₂, hothers₁.trans hothers₂⟩
  | disconnect a => exact hdestroy h hstep

/-- A run of the server from a broker, in which every event meets a condition on the broker that it
happens to. -/
inductive Run (P : Broker → Event → Prop) (start : Broker) : Broker → Prop
  | refl : Run P start start
  | step {b b' : Broker} {ev : Event} (run : Run P start b) (meets : P b ev)
      (turn : step b ev = some b') : Run P start b'

/-- The brokers that the server can come to. -/
abbrev Reachable : Broker → Prop := Run (fun _ _ => True) Broker.init

/-- A property that holds at the start and is kept by every turn that meets the condition holds
along the run. -/
theorem Run.invariant {P : Broker → Event → Prop} {start : Broker} {Q : Broker → Prop}
    (hrun : Run P start b) (hstart : Q start)
    (hkeep : ∀ {b b' ev}, Q b → P b ev → Bpsp.step b ev = some b' → Q b') : Q b := by
  induction hrun with
  | refl => exact hstart
  | step _ hmeets hturn ih => exact hkeep ih hmeets hturn

theorem Run.inv {P : Broker → Event → Prop} {start : Broker} {R₀ : List Registration}
    (hstart : Inv start R₀) (hrun : Run P start b) : ∃ R, Inv b R := by
  refine hrun.invariant (Q := fun b => ∃ R, Inv b R) ⟨R₀, hstart⟩ ?_
  rintro b b' ev ⟨R, h⟩ - hturn
  obtain ⟨R', h', -⟩ := step_spec h hturn
  exact ⟨R', h'⟩

theorem Reachable.inv (hrun : Reachable b) : ∃ R, Inv b R := Run.inv inv_init hrun

end Bpsp
