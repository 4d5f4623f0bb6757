import Bpsp.Server.Request

/-!
# Agreement of the tables

A subscription is recorded in the table of its client and in the topic tree. `client__sub0` fills
the first table before it knows whether the tree accepts the topic, and does not take the entry back
when it does not. In runs without such a request the two tables always agree
(`consistent_along_run`).
-/

namespace Bpsp

open CLib Topic

/-- The subscriber object is in the table of a connected client. -/
def Listed (b : Broker) (p : Addr) : Prop :=
  ∃ id a c identifier, (id, a) ∈ b.clients ∧ b.heap.get a = some c ∧ (identifier, p) ∈ c.subs

/-- The subscriber object is in the tree, at the node of its topic and under its `_id`. -/
def InTree (b : Broker) (p : Addr) : Prop :=
  ∃ s pat x node, b.store.subs.get p = some s ∧ s.pattern = some pat ∧
    nodeAt b.store.tree pat = some x ∧ b.store.tree.get x = some node ∧ node.subs.find s.id = some p

/-- The tables agree on the subscriptions there are, and each belongs to a connected client. -/
structure Consistent (b : Broker) : Prop where
  listed_iff : ∀ p, Listed b p ↔ InTree b p
  owned : ∀ {x node k p}, b.store.tree.get x = some node → (k, p) ∈ node.subs → InTree b p ∧
    ∃ s, b.store.subs.get p = some s ∧ k = s.id ∧ b.clients.find s.clientId = some s.client

/-- A subscription to this topic with this tag is one that the tree accepts, or one that the client
has. -/
def Allowed (c : Client) (topic : CStr) (subTag : Option CStr) : Prop :=
  (levels topic).isSome ∨
    (c.subs.find (subscriberMakeIdentifier topic (subTag.getD defaultTag))).isSome

/-- The event is no SUB request, or its subscription is allowed. -/
def SubAllowed (b : Broker) : Event → Prop
  | .request _ a req => req.opcode = Frame.opSub → ∀ c topic subTag, b.heap.get a = some c →
      headerValue req Frame.xTopic = some topic →
      headerValue req Frame.xSubTag = subTag → Allowed c topic subTag
  | _ => True

/-- The two tables, and the table of clients, are as they were. -/
structure TablesKept (b b' : Broker) : Prop where
  clients : b'.clients = b.clients
  heap : b'.heap = b.heap
  tree : b'.store.tree = b.store.tree

section Agreement

variable {b b' : Broker} {R R' : List Registration} {a p : Addr} {c : Client}

/-- The objects in the tree are those of the registry. -/
theorem in_tree_iff (h : Inv b R) : InTree b p ↔ p ∈ R.map (·.sub) := by
  constructor
  · rintro ⟨s, pat, x, node, -, -, hx, hnode, hfind⟩
    have hmem := HashTable.mem_of_find hfind
    rw [h.topic.tree.subs hx hnode] at hmem
    obtain ⟨e, he, heq⟩ := List.mem_map.mp hmem
    exact List.mem_map.mpr ⟨e, (List.mem_filter.mp he).1, (Prod.mk.inj heq).2⟩
  · intro hp
    obtain ⟨e, he, rfl⟩ := List.mem_map.mp hp
    obtain ⟨s, hs, hid, hpat, -⟩ := h.topic.live he
    have hin : (nodeAt b.store.tree e.pattern).isSome :=
      (h.topic.paths _).mpr (Or.inr ⟨e, he, List.prefix_refl _⟩)
    obtain ⟨x, hx⟩ := Option.isSome_iff_exists.mp hin
    obtain ⟨node, hnode, -, -⟩ := h.topic.tree.shape.node hx
    refine ⟨s, e.pattern, x, node, hs, hpat, hx, hnode, ?_⟩
    rw [h.topic.tree.subs hx hnode,
      HashTable.find_eq_some_iff (h.topic.ids.sublist (content_keys_sublist R _)), hid]
    exact List.mem_map.mpr ⟨e, List.mem_filter.mpr ⟨he, by simp⟩, rfl⟩

/-- Every entry of a client's table is in the tree. -/
def Full (b : Broker) : Prop := ∀ a identifier p, Holds b a identifier p → InTree b p

theorem Inv.consistent (h : Inv b R) (hfull : Full b) : Consistent b where
  listed_iff p := by
    constructor
    · rintro ⟨id, a, c, i, -, hc, hi⟩
      exact hfull _ _ _ ⟨c, hc, hi⟩
    · intro hp
      obtain ⟨e, he, rfl⟩ := List.mem_map.mp ((in_tree_iff h).mp hp)
      obtain ⟨a, i, c, hc, hi⟩ := h.registered he
      exact ⟨c.id, a, c, i, h.clients.mpr ⟨c, hc, rfl⟩, hc, hi⟩
  owned {x node k p} hnode hmem := by
    obtain ⟨q, hq⟩ := h.topic.tree.shape.reach hnode
    rw [h.topic.tree.subs hq hnode] at hmem
    obtain ⟨e, he, heq⟩ := List.mem_map.mp hmem
    obtain ⟨rfl, rfl⟩ := Prod.mk.inj heq
    have heR := (List.mem_filter.mp he).1
    obtain ⟨a, c, i, s, hc, hi, hs, hclient, hcid, -, heid, -, -⟩ := h.of_registered heR
    refine ⟨(in_tree_iff h).mpr (List.mem_map_of_mem heR), s, hs, heid, ?_⟩
    rw [hcid, hclient]
    exact h.find_client hc

/-- What a client leaves alone stays in the tree, so only its own entries matter. -/
theorem full_of_own (h : Inv b R) (h' : Inv b' R') (hothers : OthersKept a b b' R R')
    (hfull : Full b) (hown : ∀ {identifier p}, Holds b' a identifier p → InTree b' p) :
    Full b' := by
  rintro x i p ⟨c, hc, hi⟩
  by_cases hxa : x = a
  · subst hxa
    exact hown ⟨c, hc, hi⟩
  · have hc₀ : b.heap.get x = some c := (hothers.heap hxa).symm.trans hc
    obtain ⟨e, he, rfl⟩ := List.mem_map.mp ((in_tree_iff h).mp (hfull _ _ _ ⟨c, hc₀, hi⟩))
    have hown : owner b e = x := by
      obtain ⟨s, hs, hclient, -⟩ := h.entries hc₀ hi
      simp [owner, Store.sub, hs, hclient]
    have hmem : e ∈ R'.filter fun e => owner b' e ≠ a := by
      rw [hothers.regs]
      simp [he, hown, hxa]
    exact (in_tree_iff h').mpr (List.mem_map_of_mem (List.mem_filter.mp hmem).1)

/-- A client's entries are in the tree after one was added that is registered. -/
theorem own_after_add (h : Inv b R) {e : Registration} (h' : Inv b' (R ++ [e]))
    (hc : b.heap.get a = some c) {identifier : CStr}
    (hheap : b'.heap = addEntry b.heap a identifier e.sub)
    (hown : ∀ {i p}, Holds b a i p → InTree b p) {i : CStr} {q : Addr} (hq : Holds b' a i q) :
    InTree b' q := by
  obtain ⟨c', hc', hi⟩ := hq
  rw [hheap, get_add_entry hc, if_pos rfl] at hc'
  rw [in_tree_iff h', List.map_append]
  rw [← Option.some.inj hc'] at hi
  rcases List.mem_append.mp hi with hi | hi
  · exact List.mem_append_left _ ((in_tree_iff h).mp (hown ⟨c, hc, hi⟩))
  · rw [(Prod.mk.inj (List.mem_singleton.mp hi)).2]
    exact List.mem_append_right _ (List.mem_singleton.mpr rfl)

/-- A client's entries are in the tree after one was removed with its registration. -/
theorem own_after_del (h : Inv b R) (h' : Inv b' (R.filter fun e => e.sub ≠ p))
    (hc : b.heap.get a = some c) {identifier : CStr} (hmem : (identifier, p) ∈ c.subs)
    (hheap : b'.heap = delEntry b.heap a identifier)
    (hown : ∀ {i p}, Holds b a i p → InTree b p) {i : CStr} {q : Addr} (hq : Holds b' a i q) :
    InTree b' q := by
  obtain ⟨c', hc', hi⟩ := hq
  rw [hheap, get_del_entry hc, if_pos rfl] at hc'
  rw [← Option.some.inj hc'] at hi
  obtain ⟨hi, hne⟩ := (HashTable.mem_del_iff (h.keys hc)).mp hi
  have hqp : q ≠ p := by
    rintro rfl
    exact hne (h.holder_unique hc hi hc hmem).2
  obtain ⟨e, he, rfl⟩ := List.mem_map.mp ((in_tree_iff h).mp (hown ⟨c, hc, hi⟩))
  exact (in_tree_iff h').mpr (List.mem_map_of_mem (List.mem_filter.mpr ⟨he, by simpa using hqp⟩))

/-- A subscription that is allowed is in the tree afterwards when the client has it. -/
theorem sub0_full (h : Inv b R) (hc : b.heap.get a = some c) (hfull : Full b) {topic : CStr}
    {subTag : Option CStr} (hallowed : Allowed c topic subTag) :
    ∃ s b', clientSub0 (b.allocSub (subscriberNew topic subTag a c)).1 a b.store.subs.next =
        some (s, b') ∧ Full b' ∧
      (s ≠ .ok → b' = (b.allocSub (subscriberNew topic subTag a c)).1) := by
  cases hfind : c.subs.find (subscriberMakeIdentifier topic (subTag.getD defaultTag)) with
  | some p =>
      obtain ⟨hinv, -, -, -⟩ := alloc_sub_spec h (subscriberNew topic subTag a c) rfl
      refine ⟨_, _, sub0_dup h hc hfind, fun x i q hq => ?_, fun _ => rfl⟩
      exact (in_tree_iff hinv).mpr ((in_tree_iff h).mp (hfull x i q hq))
  | none =>
      have hlevels : (levels topic).isSome := by
        rcases hallowed with hlevels | hheld
        · exact hlevels
        · simp [hfind] at hheld
      obtain ⟨toks, hlevels⟩ := Option.isSome_iff_exists.mp hlevels
      obtain ⟨b', hsub, hheap, -, hinv, hothers, -⟩ := sub0_ok h hc hfind hlevels
      exact ⟨_, b', hsub, full_of_own h hinv hothers hfull
        (own_after_add h hinv hc hheap (hfull _ _ _)), fun hne => absurd rfl hne⟩

/-- Unsubscribing keeps the rest of the client's entries in the tree. -/
theorem unsub0_full (h : Inv b R) (hc : b.heap.get a = some c) (hfull : Full b) {topic : CStr}
    {subTag : Option CStr} {s : Status} (hrun : clientUnsub0 b a topic subTag = some (s, b')) :
    Full b' := by
  have hsame : ∀ {s'}, clientUnsub0 b a topic subTag = some (s', b) → Full b' := by
    intro s' hrun'
    rw [(Prod.mk.inj (Option.some.inj (hrun.symm.trans hrun'))).2]
    exact hfull
  rcases unsub0_spec h hc topic subTag with ⟨-, hrun'⟩ | ⟨tag, -, -, hrun'⟩ |
    ⟨tag, p, b₁, -, hfind, hrun', -, hheap, hinv, hothers, -⟩
  · exact hsame hrun'
  · exact hsame hrun'
  · obtain ⟨-, rfl⟩ := Prod.mk.inj (Option.some.inj (hrun.symm.trans hrun'))
    exact full_of_own h hinv hothers hfull
      (own_after_del h hinv hc (HashTable.mem_of_find hfind) hheap (hfull _ _ _))

theorem destroy_full (h : Inv b R) (hfull : Full b) (hrun : brokerDestroyClient b a = some b') :
    Full b' := by
  obtain ⟨c, hc⟩ := destroyed_live hrun
  obtain ⟨b₁, R', hrun', hinv, hothers, hgone⟩ := destroy_spec h hc
  obtain rfl : b₁ = b' := Option.some.inj (hrun'.symm.trans hrun)
  refine full_of_own h hinv hothers hfull ?_
  rintro i p ⟨c', hc', -⟩
  simp [hgone] at hc'

/-- A handler whose subscription is allowed keeps every entry in the tree. -/
theorem handle_full (h : Inv b R) (hfull : Full b) {env : Env} {req : Frame} {out : Outcome}
    (hmeets : SubAllowed b (.request env a req)) (hc : b.heap.get a = some c)
    (hrun : handleInFrame env b a req = some out) : Full out.broker := by
  rcases handle_in_frame_cases hrun with heq | ⟨hop, hsub⟩ | hunsub
  · rw [heq]
    exact hfull
  · rcases handle_sub_cases hsub with ⟨-, heq⟩ | ⟨topic, subTag, c', s, htopic, htag, hc', hsub0⟩
    · rw [heq]
      exact hfull
    · have hallowed := hmeets hop c' topic subTag hc' htopic htag
      obtain ⟨s', b₁, hsub0', hfull', -⟩ := sub0_full h hc' hfull hallowed
      obtain ⟨-, rfl⟩ := Prod.mk.inj (Option.some.inj (hsub0.symm.trans hsub0'))
      exact hfull'
  · rcases handle_unsub_cases hunsub with ⟨-, heq⟩ | ⟨topic, subTag, s, -, -, hunsub0⟩
    · rw [heq]
      exact hfull
    · exact unsub0_full h hc hfull hunsub0

/-- One turn of the server whose subscription is allowed. -/
theorem step_full (h : Inv b R) (hfull : Full b) {ev : Event} (hmeets : SubAllowed b ev)
    (hstep : step b ev = some b') : Full b' := by
  cases ev with
  | accept draws addr =>
      obtain ⟨⟨b₁, a⟩, hacc, rfl⟩ := Option.map_eq_some_iff.mp hstep
      obtain ⟨hinv, hothers, -, -, c, hc, hsubs⟩ := accept_spec h hacc
      refine full_of_own h hinv hothers hfull ?_
      rintro i p ⟨c', hc', hi⟩
      obtain rfl : c = c' := Option.some.inj (hc.symm.trans hc')
      simp [hsubs] at hi
  | request env a req =>
      obtain ⟨c, out, hc, hout, ⟨-, rfl⟩ | ⟨-, hrun⟩⟩ := request_cases hstep
      · exact handle_full h hfull hmeets hc hout
      · obtain ⟨R₁, h₁, -⟩ := handle_spec h hc hout
        exact destroy_full h₁ (handle_full h hfull hmeets hc hout) hrun
  | disconnect a => exact destroy_full h hfull hstep

theorem run_full (hrun : Run SubAllowed Broker.init b) : (∃ R, Inv b R) ∧ Full b := by
  refine hrun.invariant (Q := fun b => (∃ R, Inv b R) ∧ Full b) ⟨⟨[], inv_init⟩, ?_⟩ ?_
  · rintro a i p ⟨c, hc, -⟩
    simp [Broker.init] at hc
  · rintro b b' ev ⟨⟨R, h⟩, hfull⟩ hmeets hturn
    obtain ⟨R', h', -⟩ := step_spec h hturn
    exact ⟨⟨R', h'⟩, step_full h hfull hmeets hturn⟩

end Agreement

/-- In every run in which each SUB request names a topic that the tree accepts or a subscription
that its client has, every broker reached is consistent, and a subscription of that kind that fails
leaves the tables as they were. -/
theorem consistent_along_run {b : Broker} (hrun : Run SubAllowed Broker.init b) :
    Consistent b ∧ ∀ {a c topic subTag}, b.heap.get a = some c → Allowed c topic subTag →
      (∃ s b', clientSub0 (b.allocSub (subscriberNew topic subTag a c)).1 a b.store.subs.next =
        some (s, b') ∧ (s ≠ .ok → TablesKept b b')) ∧
      ∃ s b', clientSub1 b a topic subTag = some (s, b') ∧ (s ≠ .ok → TablesKept b b') := by
  obtain ⟨⟨R, h⟩, hfull⟩ := run_full hrun
  refine ⟨h.consistent hfull, fun {a c topic subTag} hc hallowed => ?_⟩
  obtain ⟨s, b', hsub, -, hfail⟩ := sub0_full h hc hfull hallowed
  refine ⟨⟨s, b', hsub, fun hne => ?_⟩, ?_⟩
  · rw [hfail hne]
    exact ⟨rfl, rfl, rfl⟩
  · have hsub1 : clientSub1 b a topic subTag =
        if s = .ok then some (s, b') else some (s, b'.freeSub b.store.subs.next) := by
      unfold clientSub1
      simp only [hc, bind, Option.bind_some]
      have hpair : b.allocSub (subscriberNew topic subTag a c) =
          ((b.allocSub (subscriberNew topic subTag a c)).1, b.store.subs.next) := rfl
      rw [hpair]
      simp only [hsub, Option.bind_some]
    by_cases hok : s = .ok
    · exact ⟨s, b', by rw [hsub1, if_pos hok], fun hne => absurd hok hne⟩
    · refine ⟨s, b'.freeSub b.store.subs.next, by rw [hsub1, if_neg hok], fun _ => ?_⟩
      rw [hfail hok]
      exact ⟨rfl, rfl, rfl⟩

/-- Surroundings in which nothing fails. -/
def calm : Env := ⟨Frame.newYear, Frame.minuteLater, fun _ => .ok⟩

/-- The id of a first client. -/
def firstId : ClientId := ⟨.ofString "AAAAA", by decide⟩

/-- The address of a first client. -/
def firstAddr : SockAddr := ⟨.ofString "127.0.0.1:4000", by decide, by decide⟩

/-- A SUB request with a tag. -/
def subRequest (flag : Byte) (topic tag : String) : Frame :=
  Frame.request Frame.opSub flag [(Frame.xTopic, .ofString topic), (Frame.xSubTag, .ofString tag),
    (Frame.xTime, Frame.newYear.text)]

/-- A subscription to `/a` is refused by the tree and stays in the client's table. -/
theorem refused_topic_inconsistent : ∃ b₁ b₂,
    step Broker.init (.accept [firstId] firstAddr) = some b₁ ∧
    step b₁ (.request calm 0 (subRequest 0 "/a" "t")) = some b₂ ∧ ¬ Consistent b₂ := by
  refine ⟨_, _, rfl, rfl, fun h => ?_⟩
  obtain ⟨s, pat, x, node, hs, hpat, -⟩ := (h.listed_iff 0).mp
    ⟨firstId.text, 0, _, _, List.mem_singleton.mpr rfl, rfl, List.mem_singleton.mpr rfl⟩
  have hnone : (subscriberNew (.ofString "/a") (some (.ofString "t")) 0
      ⟨firstId.text, [], firstAddr⟩).pattern = none := by decide
  rw [← Option.some.inj hs] at hpat
  exact absurd (hnone.symm.trans hpat) (by simp)

/-- A subscription to `a/b` is in both tables. -/
theorem consistent_after_sub : ∃ b₁ b₂,
    step Broker.init (.accept [firstId] firstAddr) = some b₁ ∧
    step b₁ (.request calm 0 (subRequest 0 "a/b" "t")) = some b₂ ∧ InTree b₂ 0 ∧ Consistent b₂ := by
  have haccept : ∀ b, SubAllowed b (.accept [firstId] firstAddr) := fun _ => trivial
  have hsub : ∀ b, SubAllowed b (.request calm 0 (subRequest 0 "a/b" "t")) := by
    intro b _ c topic subTag _ htopic _
    obtain rfl : CStr.ofString "a/b" = topic := Option.some.inj htopic
    exact Or.inl (by decide)
  refine ⟨_, _, rfl, rfl, ?_⟩
  obtain ⟨hcons, -⟩ := consistent_along_run
    (Run.step (Run.step Run.refl (haccept _) rfl) (hsub _) rfl)
  exact ⟨(hcons.listed_iff 0).mp
    ⟨firstId.text, 0, _, _, List.mem_singleton.mpr rfl, rfl, List.mem_singleton.mpr rfl⟩, hcons⟩

end Bpsp
