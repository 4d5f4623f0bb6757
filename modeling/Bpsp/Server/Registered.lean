import Bpsp.Server.Identifier
import Bpsp.Server.Isolation
import Bpsp.Server.Reply

/-!
# The subscriptions of one connection

`Serving b a ids` says what holds for a client at `a` that has only subscribed to topics that the tree
accepts, with tags that have no slash: its table has the identifiers `ids`, and all its subscriptions
are in the tree. Such a client's SUB and UNSUB requests do what they ask for and are acknowledged
(`Serving.sub`, `Serving.unsub`), and what other clients do makes no difference (`Serving.other`).
-/

namespace Bpsp

open CLib Topic

/-- A subscription with this topic and this tag is registered in the tree for the client at `a`. -/
def Registered (b : Broker) (a : Addr) (topic subTag : CStr) : Prop :=
  ∃ p s, InTree b p ∧ b.store.subs.get p = some s ∧ s.client = a ∧ s.getTopic = topic ∧
    s.subTag = subTag

/-- The object is named, and has a tag without a slash if it belongs to the client at `a`. -/
def OwnPlain (a : Addr) (s : Subscriber) : Prop := Named s ∧ (s.client = a → 47 ∉ s.subTag.bytes)

/-- The client at `a` has subscriptions with just these identifiers, and all of them are in the
tree. -/
structure Serving (b : Broker) (a : Addr) (ids : CStr → Prop) : Prop where
  inv : ∃ R, Inv b R
  plain : AllObjects (OwnPlain a) b
  table : ∃ c, b.heap.get a = some c ∧ ∀ i, i ∈ c.subs.keys ↔ ids i
  full : ∀ {i p}, Holds b a i p → InTree b p

theorem link_free_own_plain (a : Addr) : LinkFree (OwnPlain a) :=
  fun _ n hs => ⟨hs.1.node n, hs.2⟩

/-- The first slash of an identifier is the one after a tag that has none. -/
theorem make_identifier_injective {topic topic' subTag subTag' : CStr} (h : 47 ∉ subTag.bytes)
    (h' : 47 ∉ subTag'.bytes)
    (heq : subscriberMakeIdentifier topic subTag = subscriberMakeIdentifier topic' subTag') :
    topic = topic' ∧ subTag = subTag' := by
  have hbytes : subTag.bytes ++ 47 :: topic.bytes = subTag'.bytes ++ 47 :: topic'.bytes := by
    have := congrArg CStr.bytes heq
    simpa [subscriberMakeIdentifier, show (CStr.ofString "/").bytes = [47] by decide] using this
  have hlen := congrArg (List.idxOf 47) hbytes
  rw [List.idxOf_append_of_notMem h, List.idxOf_append_of_notMem h', List.idxOf_cons_self,
    List.idxOf_cons_self, Nat.add_zero, Nat.add_zero] at hlen
  obtain ⟨htag, htopic⟩ := List.append_inj hbytes hlen
  exact ⟨CStr.ext (List.cons.inj htopic).2, CStr.ext htag⟩

section

variable {b b' : Broker} {a : Addr} {ids : CStr → Prop} {topic subTag : CStr}

theorem Serving.congr {ids' : CStr → Prop} (h : Serving b a ids) (hids : ∀ i, ids i ↔ ids' i) :
    Serving b a ids' := by
  obtain ⟨c, hc, hkeys⟩ := h.table
  exact ⟨h.inv, h.plain, ⟨c, hc, fun i => (hkeys i).trans (hids i)⟩, h.full⟩

theorem Serving.tag_plain (h : Serving b a ids) (hreg : Registered b a topic subTag) :
    47 ∉ subTag.bytes := by
  obtain ⟨p, s, -, hs, hclient, -, rfl⟩ := hreg
  exact (h.plain p s hs).2 hclient

/-- What is registered for the client has its identifier in the table. -/
theorem Serving.registered_iff (h : Serving b a ids) (hplain : 47 ∉ subTag.bytes) :
    Registered b a topic subTag ↔ ids (subscriberMakeIdentifier topic subTag) := by
  obtain ⟨R, hinv⟩ := h.inv
  obtain ⟨c, hc, hkeys⟩ := h.table
  have hnamed : AllNamed b := fun p s hs => (h.plain p s hs).1
  rw [← hkeys]
  constructor
  · rintro ⟨p, s, hp, hs, rfl, rfl, rfl⟩
    obtain ⟨e, he, rfl⟩ := List.mem_map.mp ((in_tree_iff hinv).mp hp)
    obtain ⟨x, c', i, s', hc', hmem, hs', rfl, -⟩ := hinv.of_registered he
    obtain rfl : s = s' := Option.some.inj (hs.symm.trans hs')
    obtain rfl : c = c' := Option.some.inj (hc.symm.trans hc')
    -- the table has every subscription under the identifier that its object has
    rw [← entry_identifier hinv hnamed hc hmem hs]
    exact HashTable.mem_keys_of_mem hmem
  · intro hmem
    obtain ⟨p, hp⟩ := HashTable.mem_keys_iff.mp hmem
    obtain ⟨s, hs, hclient, -⟩ := hinv.entries hc hp
    have hident := entry_identifier hinv hnamed hc hp hs
    obtain ⟨rfl, rfl⟩ := make_identifier_injective hplain ((h.plain p s hs).2 hclient) hident
    exact ⟨p, s, h.full ⟨c, hc, hp⟩, hs, hclient, rfl, rfl⟩

/-- A client that was accepted has no subscriptions. -/
theorem Serving.accept (hb : Reachable b) {draws : List ClientId} {addr : SockAddr}
    (hacc : brokerAccept b draws addr = some (b', a)) : Serving b' a fun _ => False := by
  obtain ⟨R, hinv⟩ := hb.inv
  obtain ⟨hinv', -, rfl, hstore, c, hc, hsubs⟩ := accept_spec hinv hacc
  refine ⟨⟨R, hinv'⟩, ?_, ⟨c, hc, fun i => by simp [hsubs]⟩, fun {i p} hp => ?_⟩
  · intro p s hs
    rw [hstore] at hs
    have hbelow : s.client < b.heap.next := hb.below p s hs
    exact ⟨hb.named p s hs, fun hclient => absurd hclient (Nat.ne_of_lt hbelow)⟩
  · obtain ⟨c', hc', hmem⟩ := hp
    obtain rfl : c = c' := Option.some.inj (hc.symm.trans hc')
    rw [hsubs] at hmem
    cases hmem

/-- What happens to other clients makes no difference. -/
theorem Serving.other (h : Serving b a ids) {ev : Event} (hstep : step b ev = some b')
    (hne : ev.client b ≠ a) : Serving b' a ids := by
  obtain ⟨R, hinv⟩ := h.inv
  obtain ⟨R', hinv', hothers⟩ := step_spec hinv hstep
  obtain ⟨c, hc, hkeys⟩ := h.table
  have hsame : b'.heap.get a = b.heap.get a := hothers.heap hne.symm
  refine ⟨⟨R', hinv'⟩, step_keeps_objects (link_free_own_plain a) h.plain ?_ hstep,
    ⟨c, hsame.trans hc, hkeys⟩, fun {i p} hp => ?_⟩
  · cases ev with
    | request env x req =>
        exact fun c topic _ => ⟨new_sub_named topic _ x c, fun heq => absurd heq hne⟩
    | _ => trivial
  · obtain ⟨c', hc', hmem⟩ := hp
    rw [hsame] at hc'
    obtain ⟨s, hs, hclient, -⟩ := hinv.entries hc' hmem
    have hclient' : s.client ≠ ev.client b := hclient.trans_ne hne.symm
    exact (((hothers.unaffected hinv hinv').registered hclient').mpr
      ⟨h.full ⟨c', hc', hmem⟩, hs⟩).1

section Requests

variable {req : Frame} (hreq : Frame.Received req)
  (htopic : headerValue req Frame.xTopic = some topic)
  (htag : headerValue req Frame.xSubTag = some subTag)

include hreq htopic htag

/-- A SUB request for a topic that the tree accepts and a subscription that the client does not have
registers it, and is answered by an OK. -/
theorem Serving.sub (h : Serving b a ids) (hop : req.opcode = Frame.opSub)
    (hlevels : (levels topic).isSome) (hplain : 47 ∉ subTag.bytes)
    (hnew : ¬ ids (subscriberMakeIdentifier topic subTag)) (env : Env) :
    ∃ b' msg, handleInFrame env b a req =
        (handleReply env a req .ok msg []).map (fun r => ⟨r.1, b', r.2⟩) ∧ msg.length ≤ 100 ∧
      Serving b' a fun i => ids i ∨ i = subscriberMakeIdentifier topic subTag := by
  obtain ⟨R, hinv⟩ := h.inv
  obtain ⟨c, hc, hkeys⟩ := h.table
  obtain ⟨toks, htoks⟩ := Option.isSome_iff_exists.mp hlevels
  have hfind : c.subs.find (subscriberMakeIdentifier topic ((some subTag).getD defaultTag)) = none :=
    HashTable.find_eq_none_iff.mpr fun hmem => hnew ((hkeys _).mp hmem)
  obtain ⟨b', hsub, hheap, -, hinv', -⟩ := sub0_ok hinv hc hfind htoks
  obtain ⟨msg, hrun, hmsg⟩ := handle_sub_eq htopic htag hc hsub env
  refine ⟨b', msg, (handle_in_frame_sub hreq hop).trans hrun, hmsg, ⟨_, hinv'⟩, ?_, ?_,
    own_after_add hinv hinv' hc hheap h.full⟩
  · refine sub0_keeps_objects (link_free_own_plain a) ?_ hsub
    exact h.plain.alloc ⟨new_sub_named topic _ a c, fun _ => hplain⟩
  · refine ⟨_, by rw [hheap, get_add_entry hc, if_pos rfl], fun i => ?_⟩
    rw [HashTable.keys_add, List.mem_append, List.mem_singleton, hkeys]
    rfl

/-- An UNSUB request for a subscription that the client has takes it back, and is answered by an
OK. -/
theorem Serving.unsub (h : Serving b a ids) (hop : req.opcode = Frame.opUnsub)
    (hold : ids (subscriberMakeIdentifier topic subTag)) (env : Env) :
    ∃ b' msg, handleInFrame env b a req =
        (handleReply env a req .ok msg []).map (fun r => ⟨r.1, b', r.2⟩) ∧ msg.length ≤ 100 ∧
      Serving b' a fun i => ids i ∧ i ≠ subscriberMakeIdentifier topic subTag := by
  obtain ⟨R, hinv⟩ := h.inv
  obtain ⟨c, hc, hkeys⟩ := h.table
  have hmem := (hkeys _).mpr hold
  rcases unsub0_spec hinv hc topic (some subTag) with ⟨hnone, -⟩ | ⟨tag, heq, hnone, -⟩ |
    ⟨tag, p, b', heq, hfind, hunsub, -, hheap, hinv', -, -⟩
  · cases hnone
  · obtain rfl := Option.some.inj heq
    exact absurd hmem (HashTable.find_eq_none_iff.mp hnone)
  · obtain rfl := Option.some.inj heq
    obtain ⟨msg, hrun, hmsg⟩ := handle_unsub_eq htopic htag hunsub env
    refine ⟨b', msg, (handle_in_frame_unsub hreq hop).trans hrun, hmsg, ⟨_, hinv'⟩,
      unsub0_keeps_objects (link_free_own_plain a) h.plain hunsub, ?_,
      own_after_del hinv hinv' hc (HashTable.mem_of_find hfind) hheap h.full⟩
    refine ⟨_, by rw [hheap, get_del_entry hc, if_pos rfl], fun i => ?_⟩
    simp only [HashTable.mem_keys_iff, HashTable.mem_del_iff (hinv.keys hc), ← hkeys]
    exact ⟨fun ⟨q, hq, hne⟩ => ⟨⟨q, hq⟩, hne⟩, fun ⟨⟨q, hq⟩, hne⟩ => ⟨q, hq, hne⟩⟩

end Requests

end

end Bpsp
