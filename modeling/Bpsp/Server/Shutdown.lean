import Bpsp.Server.Serial
import Bpsp.Server.Consistency
import Bpsp.Topic.Walk

/-!
# Shutting the broker down

`broker__destroy` closes what is left: every client in the table is destroyed, then the topic tree
is freed. What it leaves behind are the subscriber objects that are in no table. `handle__SUB` makes
one for every request for a subscription that its client has, and nothing frees it
(`loose_after_serve`), so these are what is left in the end (`destroy_leaves_duplicates`).
`client__sub1` frees the object itself, and does so as well when the tree refused the topic and the
table of the client still has it (`sub1_then_destroy_iff`).
-/

namespace Bpsp

open CLib Topic

/-- The loop of `broker__destroy` over the table of clients. -/
def destroyClients : List (CStr × Addr) → Broker → Exec Broker
  | [], b => some b
  | (id, a) :: rest, b => do
      let b ← clientDestroy { b with clients := b.clients.del id } a
      destroyClients rest b

/-- `broker__destroy`. -/
def brokerDestroy (b : Broker) : Exec Broker := do
  let b ← destroyClients b.clients b
  let tree ← freeTree b.store.tree
  some { b with store := { b.store with tree := tree } }

/-- A sequence of turns of the server. -/
def serve : List Event → Broker → Exec Broker
  | [], b => some b
  | ev :: evs, b => do
      let b ← step b ev
      serve evs b

/-- The event is a request for a subscription that its sender has. -/
def duplicate (b : Broker) : Event → Bool
  | .request _ a req =>
      match b.heap.get a, headerValue req Frame.xTopic with
      | some c, some topic => req.isCompleted && req.opcode = Frame.opSub &&
          (c.subs.find (identifierOf req topic)).isSome
      | _, _ => false
  | _ => false

/-- The number of these requests in a sequence of turns. -/
def duplicates : List Event → Broker → Nat
  | [], _ => 0
  | ev :: evs, b =>
      (if duplicate b ev then 1 else 0) + ((step b ev).map (duplicates evs)).getD 0

/-- The subscriber object is live, and in the table of no client. -/
def Loose (b : Broker) (p : Addr) : Prop :=
  (b.store.subs.get p).isSome ∧ ∀ x i, ¬ Holds b x i p

section Operations

variable {b b' : Broker} {R : List Registration} {a p q : Addr} {c : Client} {identifier : CStr}

/-- Whether an object is loose is decided by the tables of the clients and the objects. -/
theorem loose_congr (hsubs : b'.store.subs.get q = b.store.subs.get q)
    (hheld : ∀ x i, Holds b' x i q ↔ Holds b x i q) : Loose b' q ↔ Loose b q := by
  unfold Loose
  rw [hsubs]
  exact and_congr_right fun _ => forall₂_congr fun x i => not_congr (hheld x i)

/-- An object that was just allocated is loose. -/
theorem loose_alloc (h : Inv b R) (sub : Subscriber) :
    Loose (b.allocSub sub).1 q ↔ Loose b q ∨ q = b.store.subs.next := by
  have hget : (b.allocSub sub).1.store.subs.get q =
      if q = b.store.subs.next then some sub else b.store.subs.get q := Heap.get_alloc _ _ _
  by_cases hq : q = b.store.subs.next
  · subst hq
    refine iff_of_true ⟨by simp [hget], fun x i hheld => ?_⟩ (Or.inr rfl)
    obtain ⟨c', hc', hi⟩ := hheld
    obtain ⟨s, hs, -⟩ := h.entries hc' hi
    exact Heap.ne_next_of_get hs rfl
  · rw [or_iff_left hq]
    exact loose_congr (by rw [hget, if_neg hq]) fun _ _ => Iff.rfl

/-- Who holds an object after an entry was added. -/
theorem holds_add (hc : b.heap.get a = some c)
    (hheap : b'.heap = addEntry b.heap a identifier p) {x : Addr} {i : CStr} :
    Holds b' x i q ↔ Holds b x i q ∨ x = a ∧ i = identifier ∧ q = p := by
  unfold Holds
  rw [hheap, get_add_entry hc]
  by_cases hx : x = a
  · subst hx
    simp [hc, HashTable.add]
  · simp [hx]

/-- An object that goes into a table with its allocation is not loose. -/
theorem loose_add (hc : b.heap.get a = some c)
    (hheap : b'.heap = addEntry b.heap a identifier b.store.subs.next)
    (hsubs : ∀ {q}, q ≠ b.store.subs.next → b'.store.subs.get q = b.store.subs.get q) :
    Loose b' q ↔ Loose b q := by
  by_cases hq : q = b.store.subs.next
  · subst hq
    refine iff_of_false (fun hloose => ?_) fun hloose => ?_
    · exact hloose.2 a identifier ((holds_add hc hheap).mpr (Or.inr ⟨rfl, rfl, rfl⟩))
    · have hlive := hloose.1
      rw [Heap.get_next] at hlive
      cases hlive
  · refine loose_congr (hsubs hq) fun x i => ?_
    rw [holds_add hc hheap]
    simp [hq]

/-- Dropping an entry frees its object, and no other. -/
theorem loose_drop (h : Inv b R) (hc : b.heap.get a = some c) (hmem : (identifier, p) ∈ c.subs)
    {st : Store} (hsubs : ∀ {q}, q ≠ p → (st.subs.free p).get q = b.store.subs.get q) :
    Loose ((⟨b.clients, delEntry b.heap a identifier, st⟩ : Broker).freeSub p) q ↔ Loose b q := by
  by_cases hq : q = p
  · subst hq
    refine iff_of_false (fun hloose => ?_) fun hloose => hloose.2 a identifier ⟨c, hc, hmem⟩
    have hlive := hloose.1
    rw [show ((⟨b.clients, delEntry b.heap a identifier, st⟩ : Broker).freeSub q).store.subs.get q =
      none from (Heap.get_free _ _ _).trans (if_pos rfl)] at hlive
    cases hlive
  · refine loose_congr (hsubs hq) fun x i => ?_
    show (∃ c', (delEntry b.heap a identifier).get x = some c' ∧ (i, q) ∈ c'.subs) ↔ _
    rw [get_del_entry hc]
    by_cases hx : x = a
    · subst hx
      -- another entry under the identifier would have the same object
      have hother : (i, q) ∈ c.subs → i ≠ identifier := by
        intro hi heq
        subst heq
        exact hq (HashTable.eq_of_mem (h.keys hc) hi hmem)
      simp only [if_true, Option.some.injEq, Holds, hc, exists_eq_left',
        HashTable.mem_del_iff (h.keys hc)]
      exact ⟨And.left, fun hi => ⟨hi, hother hi⟩⟩
    · rw [if_neg hx]
      rfl

/-- `client__unsub0` frees what it takes out of the table of the client. -/
theorem loose_unsub0 (h : Inv b R) (hc : b.heap.get a = some c) {topic : CStr}
    {subTag : Option CStr} {s : Status} (hrun : clientUnsub0 b a topic subTag = some (s, b')) :
    Loose b' q ↔ Loose b q := by
  rcases unsub0_spec h hc topic subTag with ⟨-, hrun'⟩ | ⟨tag, -, -, hrun'⟩ |
    ⟨tag, p, b₁, htag, hfind, hrun', -⟩
  · obtain ⟨-, rfl⟩ := Prod.mk.inj (Option.some.inj (hrun.symm.trans hrun'))
    rfl
  · obtain ⟨-, rfl⟩ := Prod.mk.inj (Option.some.inj (hrun.symm.trans hrun'))
    rfl
  · have hmem := HashTable.mem_of_find hfind
    obtain ⟨st, R', hdel, -, hsubs⟩ := delete_spec h hc hmem
    subst htag
    simp only [clientUnsub0, hc, hfind, hdel, bind, Option.bind_some, Option.some.injEq,
      Prod.mk.injEq] at hrun
    rw [← hrun.2]
    exact loose_drop h hc hmem hsubs

/-- The first entry of a table is the one that is deleted under its key. -/
theorem del_cons_self {e : CStr × Addr} {t : HashTable CStr Addr}
    (hkeys : HashTable.keys (e :: t) |>.Nodup) : HashTable.del (e :: t) e.1 = t := by
  rw [HashTable.del_eq_filter hkeys, List.filter_cons_of_neg (by simp)]
  refine List.filter_eq_self.mpr fun e' he' => ?_
  simp only [HashTable.keys, List.map_cons, List.nodup_cons] at hkeys
  simpa using fun heq : e'.1 = e.1 => hkeys.1 (heq ▸ List.mem_map_of_mem he')

/-- `client__unsub_all` frees what was in the table of the client. -/
theorem loose_unsub_all {entries : List (CStr × Addr)} :
    ∀ {b : Broker} {R : List Registration} {c : Client}, Inv b R → b.heap.get a = some c →
      c.subs = entries → ∀ {b'}, unsubAllLoop a entries b = some b' →
        b'.heap.get a = some { c with subs := [] } ∧ ∀ q, Loose b' q ↔ Loose b q := by
  induction entries with
  | nil =>
      intro b R c h hc hsubs b' hrun
      obtain ⟨id, subs, addr⟩ := c
      obtain rfl : subs = [] := hsubs
      obtain rfl := Option.some.inj hrun
      exact ⟨hc, fun _ => Iff.rfl⟩
  | cons e entries ih =>
      intro b R c h hc hsubs b' hrun
      have hmem : (e.1, e.2) ∈ c.subs := by
        rw [hsubs]
        exact List.mem_cons_self
      obtain ⟨st, R', hdel, hinv, hkeep⟩ := delete_spec h hc hmem
      have hc' : (delEntry b.heap a e.1).get a = some { c with subs := entries } := by
        have hkeys := h.keys hc
        rw [hsubs] at hkeys
        rw [get_del_entry hc, if_pos rfl, hsubs, del_cons_self hkeys]
      simp only [unsubAllLoop, hdel, bind, Option.bind_some] at hrun
      obtain ⟨hget, hloose⟩ := ih hinv hc' rfl hrun
      exact ⟨hget, fun q => (hloose q).trans (loose_drop h hc hmem hkeep)⟩

/-- Destroying a client frees its subscriber objects and no others. -/
theorem loose_destroy (h : Inv b R) (hrun : brokerDestroyClient b a = some b') :
    Loose b' q ↔ Loose b q := by
  obtain ⟨c, hc⟩ := destroyed_live hrun
  obtain ⟨b₁, hloop, -⟩ := unsub_all_loop h hc
  obtain ⟨hget, hloose⟩ := loose_unsub_all h hc rfl hloop
  unfold brokerDestroyClient clientDestroy clientUnsubAll at hrun
  simp only [hc, h.find_client hc, bind, Option.bind_some, unsub_all_clients, hloop,
    Option.map_some, Option.some.injEq] at hrun
  rw [← hrun, ← hloose q]
  -- the client that is freed has an empty table
  refine loose_congr rfl fun x i => ?_
  show (∃ c', (b₁.heap.free a).get x = some c' ∧ (i, q) ∈ c'.subs) ↔ _
  rw [Heap.get_free]
  by_cases hx : x = a
  · subst hx
    simp [Holds, hget]
  · rw [if_neg hx]
    rfl

/-- An accepted client has an empty table. -/
theorem loose_accept {draws : List ClientId} {addr : SockAddr}
    (hrun : brokerAccept b draws addr = some (b', a)) : Loose b' q ↔ Loose b q := by
  unfold brokerAccept at hrun
  split at hrun
  · cases hrun
  · rename_i d hfind
    obtain ⟨rfl, -⟩ := Prod.mk.inj (Option.some.inj hrun)
    refine loose_congr rfl fun x i => ?_
    show (∃ c', (b.heap.alloc ⟨d.text, [], addr⟩).1.get x = some c' ∧ (i, q) ∈ c'.subs) ↔ _
    rw [Heap.get_alloc]
    by_cases hx : x = b.heap.next
    · subst hx
      simp [Holds, Heap.get_next]
    · rw [if_neg hx]
      rfl

end Operations

section Requests

variable {b b' : Broker} {R : List Registration} {a q : Addr} {c : Client} {env : Env} {req : Frame}
  {out : Outcome}

/-- A request for a subscription that the client does not have leaves no loose object. -/
theorem loose_sub_new (h : Inv b R) (hc : b.heap.get a = some c) {topic : CStr}
    {subTag : Option CStr} {s : Status}
    (hfind : c.subs.find (subscriberMakeIdentifier topic (subTag.getD defaultTag)) = none)
    (hrun : clientSub0 (b.allocSub (subscriberNew topic subTag a c)).1 a b.store.subs.next =
      some (s, b')) : Loose b' q ↔ Loose b q := by
  obtain ⟨hinv, hsub, -, -⟩ := alloc_sub_spec h (subscriberNew topic subTag a c) rfl
  obtain ⟨s', st, R', -, hrun', -, hkeep⟩ :=
    add_spec (b := (b.allocSub (subscriberNew topic subTag a c)).1) hinv hc hfind hsub
  obtain ⟨-, rfl⟩ := Prod.mk.inj (Option.some.inj (hrun.symm.trans hrun'))
  refine loose_add hc rfl fun {q} hq => (hkeep hq).trans ?_
  exact (Heap.get_alloc _ _ _).trans (if_neg hq)

/-- What a request leaves loose: the object that it made for a subscription that its sender has. -/
theorem loose_request (h : Inv b R) (hrun : handleInFrame env b a req = some out) :
    Loose out.broker q ↔
      Loose b q ∨ duplicate b (.request env a req) = true ∧ q = b.store.subs.next := by
  by_cases hdup : duplicate b (.request env a req) = true
  · simp only [hdup, true_and]
    simp only [duplicate] at hdup
    split at hdup
    · rename_i c topic hc htopic
      simp only [Bool.and_eq_true, decide_eq_true_eq] at hdup
      obtain ⟨⟨hdone, hop⟩, hfind⟩ := hdup
      obtain ⟨p, hp⟩ := Option.isSome_iff_exists.mp hfind
      have hsub : handleSub env b a req = some out := by
        rw [← hrun, handleInFrame, if_neg (by simp [hdone]), hop, if_neg (by decide),
          if_neg (by decide), if_pos rfl]
      rcases handle_sub_cases hsub with ⟨hnone, -⟩ |
        ⟨topic', subTag, c', s, htopic', htag, hc', hsub0⟩
      · rw [htopic] at hnone
        cases hnone
      · obtain rfl : topic = topic' := Option.some.inj (htopic.symm.trans htopic')
        obtain rfl : c = c' := Option.some.inj (hc.symm.trans hc')
        obtain rfl := htag
        obtain ⟨-, hb⟩ := Prod.mk.inj (Option.some.inj (hsub0.symm.trans (sub0_dup h hc hp)))
        rw [hb]
        exact loose_alloc h _
    · cases hdup
  · have hsame : out.broker = b → (Loose out.broker q ↔ Loose b q) := by
      intro heq
      rw [heq]
    simp only [hdup, false_and, or_false, Bool.false_eq_true]
    by_cases hdone : req.isCompleted = false
    · rw [handleInFrame, if_pos hdone] at hrun
      exact hsame (congrArg Outcome.broker (Option.some.inj hrun).symm)
    · rcases handle_in_frame_cases hrun with heq | ⟨hop, hsub⟩ | hunsub
      · exact hsame heq
      · rcases handle_sub_cases hsub with ⟨-, heq⟩ | ⟨topic, subTag, c, s, htopic, htag, hc, hsub0⟩
        · exact hsame heq
        · obtain rfl := htag
          refine loose_sub_new h hc ?_ hsub0
          simp only [duplicate, hc, htopic, Bool.and_eq_true, decide_eq_true_eq] at hdup
          cases hfind : c.subs.find (identifierOf req topic) with
          | none => exact hfind
          | some p => exact absurd ⟨⟨by simpa using hdone, hop⟩, by rw [hfind]; rfl⟩ hdup
      · rcases handle_unsub_cases hunsub with ⟨-, heq⟩ | ⟨topic, subTag, s, -, -, hunsub0⟩
        · exact hsame heq
        · have hlive : ∃ c, b.heap.get a = some c := by
            simp only [clientUnsub0, bind, Option.bind_eq_some_iff] at hunsub0
            obtain ⟨c, hc, -⟩ := hunsub0
            exact ⟨c, hc⟩
          obtain ⟨c, hc⟩ := hlive
          exact loose_unsub0 h hc hunsub0

/-- One turn of the server adds a loose object for a request that is a duplicate, and none
otherwise. -/
theorem loose_step (h : Inv b R) {ev : Event} (hstep : step b ev = some b') :
    Loose b' q ↔ Loose b q ∨ duplicate b ev = true ∧ q = b.store.subs.next := by
  cases ev with
  | accept draws addr =>
      simp only [step, Option.map_eq_some_iff] at hstep
      obtain ⟨⟨b₁, a⟩, hacc, rfl⟩ := hstep
      simp [duplicate, loose_accept hacc]
  | disconnect a => simp [duplicate, loose_destroy h hstep]
  | request env a req =>
      obtain ⟨c, out, hc, hrun, hcase⟩ := request_cases hstep
      rcases hcase with ⟨-, rfl⟩ | ⟨-, hdestroy⟩
      · exact loose_request h hrun
      · obtain ⟨R', hinv, -⟩ := handle_spec h hc hrun
        exact (loose_destroy hinv hdestroy).trans (loose_request h hrun)

/-- Along any run there is one loose object for each duplicate request. -/
theorem loose_after_serve {evs : List Event} :
    ∀ {b : Broker} {R : List Registration} {l : List Addr}, Inv b R → l.Nodup →
      (∀ p, p ∈ l ↔ Loose b p) → ∀ {b'}, serve evs b = some b' →
        ∃ (R' : List Registration) (l' : List Addr), Inv b' R' ∧ l'.Nodup ∧
          l'.length = l.length + duplicates evs b ∧ ∀ p, p ∈ l' ↔ Loose b' p := by
  induction evs with
  | nil =>
      intro b R l h hnodup hl b' hrun
      obtain rfl := Option.some.inj hrun
      exact ⟨R, l, h, hnodup, rfl, hl⟩
  | cons ev evs ih =>
      intro b R l h hnodup hl b' hrun
      simp only [serve, bind, Option.bind_eq_some_iff] at hrun
      obtain ⟨b₁, hstep, hrest⟩ := hrun
      obtain ⟨R₁, h₁, -⟩ := step_spec h hstep
      have hloose : ∀ p, Loose b₁ p ↔ _ := fun p => loose_step (q := p) h hstep
      have hcount : duplicates (ev :: evs) b =
          (if duplicate b ev then 1 else 0) + duplicates evs b₁ := by
        rw [duplicates, hstep]
        rfl
      by_cases hdup : duplicate b ev = true
      · have hfresh : b.store.subs.next ∉ l := by
          intro hmem
          have hlive := ((hl _).mp hmem).1
          rw [Heap.get_next] at hlive
          cases hlive
        obtain ⟨R', l', h', hnodup', hlength, hl'⟩ := ih (l := b.store.subs.next :: l) h₁
          (List.nodup_cons.mpr ⟨hfresh, hnodup⟩) (fun p => by
            rw [List.mem_cons, hl, hloose, or_comm]
            simp [hdup]) hrest
        refine ⟨R', l', h', hnodup', ?_, hl'⟩
        rw [hlength, hcount, if_pos hdup, List.length_cons]
        omega
      · obtain ⟨R', l', h', hnodup', hlength, hl'⟩ := ih h₁ hnodup (fun p => by
          rw [hl, hloose]
          simp [hdup]) hrest
        refine ⟨R', l', h', hnodup', ?_, hl'⟩
        rw [hlength, hcount, if_neg hdup, Nat.zero_add]

end Requests

section Shutdown

variable {b : Broker} {R : List Registration}

/-- Destroying the clients one after the other empties the table of clients. -/
theorem destroy_clients_spec {clients : List (CStr × Addr)} :
    ∀ {b : Broker} {R : List Registration}, Inv b R → b.clients = clients →
      ∃ b' R', destroyClients clients b = some b' ∧ Inv b' R' ∧ b'.clients = [] ∧
        ∀ p, Loose b' p ↔ Loose b p := by
  induction clients with
  | nil =>
      intro b R h hclients
      exact ⟨b, R, rfl, h, hclients, fun _ => Iff.rfl⟩
  | cons e clients ih =>
      intro b R h hclients
      obtain ⟨id, a⟩ := e
      obtain ⟨c, hc, hid⟩ := h.clients.mp (hclients ▸ List.mem_cons_self : (id, a) ∈ b.clients)
      subst hid
      obtain ⟨st, R₁, -, hrun, h₁⟩ := destroy_parts h hc
      have hrest : b.clients.del c.id = clients := by
        have hkeys := h.names
        rw [hclients] at hkeys ⊢
        exact del_cons_self hkeys
      -- taking the client out of the table first is what `broker__destroy_client` does
      have hdestroy : clientDestroy { b with clients := b.clients.del c.id } a =
          brokerDestroyClient b a := by
        unfold brokerDestroyClient
        simp only [hc, h.find_client hc, bind, Option.bind_some]
      obtain ⟨b', R', hloop, h', hempty, hloose⟩ := ih h₁ hrest
      refine ⟨b', R', ?_, h', hempty, fun p => (hloose p).trans (loose_destroy h hrun)⟩
      simp only [destroyClients, hdestroy, hrun, bind, Option.bind_some]
      exact hloop

/-- Without clients every live subscriber object is loose. -/
theorem loose_without_clients (h : Inv b R) (hclients : b.clients = []) (p : Addr) :
    Loose b p ↔ (b.store.subs.get p).isSome := by
  refine ⟨And.left, fun hlive => ⟨hlive, ?_⟩⟩
  rintro x i ⟨c, hc, -⟩
  have hmem := h.clients.mpr ⟨c, hc, rfl⟩
  rw [hclients] at hmem
  cases hmem

end Shutdown

section Client

variable {b : Broker} {R : List Registration} {a : Addr} {c : Client}

/-- Deleting a subscriber from the tree brings no object back. -/
theorem del_subscriber_gone {st st' : Store} {p q : Addr} {s : Status}
    (hrun : delSubscriber st p = some (s, st')) (hgone : st.subs.get q = none) :
    st'.subs.get q = none := by
  have hmod : (st.subs.modify p fun t => { t with node := none }).get q = none := by
    rw [Heap.get_modify]
    by_cases hq : q = p
    · rw [if_pos hq, ← hq, hgone]
      rfl
    · rw [if_neg hq, hgone]
  simp only [delSubscriber, bind, Option.bind_eq_some_iff] at hrun
  obtain ⟨sub, -, hrun⟩ := hrun
  cases hnode : sub.node with
  | none =>
      simp only [hnode] at hrun
      rw [← (Prod.mk.inj (Option.some.inj hrun)).2]
      exact hgone
  | some n =>
      simp only [hnode, Option.bind_eq_some_iff] at hrun
      obtain ⟨toks, -, node, -, hrun⟩ := hrun
      cases hfind : node.subs.find sub.id with
      | none =>
          simp only [hfind] at hrun
          rw [← (Prod.mk.inj (Option.some.inj hrun)).2]
          exact hgone
      | some k =>
          simp only [hfind, Option.bind_eq_some_iff] at hrun
          obtain ⟨tree, -, hrun⟩ := hrun
          rw [← (Prod.mk.inj (Option.some.inj hrun)).2]
          exact hmod

/-- `client__unsub_all` reads the object of each entry, so one that was freed is its end. -/
theorem unsub_all_loop_freed {entries : List (CStr × Addr)} {e : CStr × Addr} (he : e ∈ entries) :
    ∀ {b : Broker}, b.store.subs.get e.2 = none → unsubAllLoop a entries b = none := by
  induction entries with
  | nil => cases he
  | cons e' entries ih =>
      intro b hgone
      unfold unsubAllLoop
      rcases List.mem_cons.mp he with rfl | he
      · simp [delSubscriber, hgone]
      · cases hdel : delSubscriber b.store e'.2 with
        | none => rfl
        | some r =>
            refine ih he ?_
            show (r.2.subs.free e'.2).get e.2 = none
            rw [Heap.get_free]
            split_ifs
            · rfl
            · exact del_subscriber_gone hdel hgone

end Client

end Bpsp
