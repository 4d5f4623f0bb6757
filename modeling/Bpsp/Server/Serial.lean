import Bpsp.CLib.Runs
import Bpsp.Server.Objects

/-!
# Operations on the broker, one at a time

The operations that the requests are made of: accepting a client, making a subscriber object,
`client__sub0`, `client__unsub0` and destroying a client. `sub0_spec` and its neighbours treat a
subscriber object that was just made; here it may have been made long before, and what happens to
the other objects is said as well (`add_spec`, `delete_spec`, `unsub_stores_spec`).
-/

namespace Bpsp

open CLib Topic

/-- The operations that change a broker. -/
inductive Operation where
  | accept (draws : List ClientId) (addr : SockAddr)
  /-- `subscriber__new` for a client. -/
  | prepare (a : Addr) (topic : CStr) (subTag : Option CStr)
  | sub (a p : Addr)
  | unsub (a : Addr) (topic : CStr) (subTag : Option CStr)
  | destroy (a : Addr)

/-- One operation, without interruption. -/
def perform (b : Broker) : Operation → Exec Broker
  | .accept draws addr => (brokerAccept b draws addr).map Prod.fst
  | .prepare a topic subTag => do
      let client ← b.heap.get a
      some (b.allocSub (subscriberNew topic subTag a client)).1
  | .sub a p => (clientSub0 b a p).map Prod.snd
  | .unsub a topic subTag => (clientUnsub0 b a topic subTag).map Prod.snd
  | .destroy a => brokerDestroyClient b a

/-- The brokers that operations one after another lead to. -/
abbrev Serial : Broker → Prop := Runs perform (fun _ _ => True) Broker.init

/-- What `client__unsub_all` does to the tree and the subscriber objects. -/
def unsubStores : List (CStr × Addr) → Store → Exec Store
  | [], st => some st
  | (_, p) :: rest, st => do
      let (_, st) ← delSubscriber st p
      unsubStores rest { st with subs := st.subs.free p }

/-- What it does to the client objects. -/
def unsubHeap (a : Addr) (entries : List (CStr × Addr)) (heap : Heap Client) : Heap Client :=
  entries.foldl (fun heap e => delEntry heap a e.1) heap

/-- The identifier that a request subscribes under. -/
def identifierOf (req : Frame) (topic : CStr) : CStr :=
  subscriberMakeIdentifier topic ((headerValue req Frame.xSubTag).getD defaultTag)

section

variable {b b' : Broker} {R : List Registration} {a p : Addr} {c : Client} {topic : CStr}
  {subTag : Option CStr}

/-- An object that was made for a subscription that the client does not have is in no table. -/
theorem loose_not_held (h : Inv b R) (hc : b.heap.get a = some c)
    (hfind : c.subs.find (subscriberMakeIdentifier topic (subTag.getD defaultTag)) = none)
    {node : Option Addr}
    (hp : b.store.subs.get p = some { subscriberNew topic subTag a c with node := node })
    {x : Addr} {i : CStr} : ¬ Holds b x i p := by
  rintro ⟨c', hc', hmem⟩
  obtain ⟨s, hs, hclient, -, hid, -⟩ := h.entries hc' hmem
  obtain rfl : s = _ := Option.some.inj (hs.symm.trans hp)
  obtain rfl : a = x := hclient
  obtain rfl : c = c' := Option.some.inj (hc.symm.trans hc')
  have hid' : c.id ++ subscriberMakeIdentifier topic (subTag.getD defaultTag) = c.id ++ i :=
    (new_sub_id topic subTag a c).symm.trans hid
  obtain ⟨-, rfl⟩ := CStr.append_inj hid' rfl
  exact HashTable.find_eq_none_iff.mp hfind (HashTable.mem_keys_of_mem hmem)

/-- Freeing an object that is in no table. -/
theorem inv_free_loose (h : Inv b R) (hloose : ∀ {x i}, ¬ Holds b x i p) : Inv (b.freeSub p) R := by
  have hne : ∀ {e}, e ∈ R → e.sub ≠ p := by
    rintro e he rfl
    obtain ⟨x, i, hheld⟩ := h.registered he
    exact hloose hheld
  refine ⟨represents_subs h.topic (fun e he => ?_) fun q s hq hnot => ?_, h.names, h.clients,
    h.idLength, h.keys, fun {x c' i q} hx hi => ?_, h.registered⟩
  · rw [Heap.get_free, if_neg (hne he)]
  · rw [Heap.get_free] at hq
    split_ifs at hq
    exact h.topic.unregistered hq hnot
  · obtain ⟨s, hs, hrest⟩ := h.entries hx hi
    have hqp : q ≠ p := by
      rintro rfl
      exact hloose ⟨c', hx, hi⟩
    exact ⟨s, (Heap.get_free _ _ _).trans ((if_neg hqp).trans hs), hrest⟩

/-- Adding a subscriber object to the table of its client and to the tree. -/
theorem add_spec (h : Inv b R) (hc : b.heap.get a = some c)
    (hfind : c.subs.find (subscriberMakeIdentifier topic (subTag.getD defaultTag)) = none)
    (hp : b.store.subs.get p = some (subscriberNew topic subTag a c)) :
    ∃ s st R', addSubscriber (fun _ => true) b.store p = some (s, st) ∧
      clientSub0 b a p = some (s, ⟨b.clients,
        addEntry b.heap a (subscriberMakeIdentifier topic (subTag.getD defaultTag)) p, st⟩) ∧
      Inv ⟨b.clients, addEntry b.heap a (subscriberMakeIdentifier topic (subTag.getD defaultTag)) p,
        st⟩ R' ∧ ∀ {q}, q ≠ p → st.subs.get q = b.store.subs.get q := by
  have hloose : ∀ {x i}, ¬ Holds b x i p := fun {x i} => loose_not_held h hc hfind hp
  have hfreed := inv_free_loose h hloose
  have hunregistered : p ∉ R.map (·.sub) := by
    intro hmem
    obtain ⟨e, he, rfl⟩ := List.mem_map.mp hmem
    obtain ⟨x, i, hheld⟩ := h.registered he
    exact hloose hheld
  have hgone : (b.freeSub p).store.subs.get p = none :=
    (Heap.get_free _ _ _).trans (if_pos rfl)
  have hkept : ∀ {q s}, q ≠ p → (b.freeSub p).store.subs.get q = some s →
      b.store.subs.get q = some s := fun hq hs => by
    rwa [show (b.freeSub p).store.subs.get _ = _ from Heap.get_free _ _ _, if_neg hq] at hs
  have hsub0 : ∀ {s st}, addSubscriber (fun _ => true) b.store p = some (s, st) →
      clientSub0 b a p = some (s, ⟨b.clients,
        addEntry b.heap a (subscriberMakeIdentifier topic (subTag.getD defaultTag)) p, st⟩) := by
    intro s st hadd
    unfold clientSub0
    simp only [hc, hp, new_sub_identifier, hfind, hadd, bind, Option.bind_some]
  cases hlevels : levels topic with
  | none =>
      have hpat : (subscriberNew topic subTag a c).pattern = none := by
        rw [new_sub_pattern, hlevels]
        rfl
      have hadd := add_subscriber_invalid (fun _ => true) hp hpat
      exact ⟨_, b.store, R, hadd, hsub0 hadd, inv_add_entry hfreed hc hfind rfl rfl h.topic hp rfl
        rfl (new_sub_id topic subTag a c) (by simp [hpat]) hkept hgone Or.inl id, fun _ => rfl⟩
  | some toks =>
      have hpat : (subscriberNew topic subTag a c).pattern = some (toks.map levelOf) := by
        rw [new_sub_pattern, hlevels]
        rfl
      have hid : (subscriberNew topic subTag a c).id ∉ R.map (·.id) := by
        rw [new_sub_id]
        exact h.id_not_registered hc hfind
      obtain ⟨st, hadd, hrepr, hsubs, -⟩ := add_subscriber_ok h.topic hp hunregistered hid hpat
      have hget : ∀ {q}, q ≠ p → st.subs.get q = b.store.subs.get q := by
        intro q hq
        rw [hsubs, Heap.get_modify, if_neg hq]
      have hnew : st.subs.get p = some { subscriberNew topic subTag a c with
          node := nodeAt st.tree (toks.map levelOf) } := by
        rw [hsubs, Heap.get_modify, if_pos rfl, hp]
        rfl
      refine ⟨_, st, _, hadd, hsub0 hadd, inv_add_entry hfreed hc hfind rfl rfl hrepr hnew rfl rfl
        (new_sub_id topic subTag a c) (fun _ => by simp)
        (fun hq hs => (hget hq).trans (hkept hq hs)) hgone (fun {e} he => ?_)
        (fun he => List.mem_append_left _ he), hget⟩
      rcases List.mem_append.mp he with he | he
      · exact Or.inl he
      · exact Or.inr (by rw [List.mem_singleton.mp he])

/-- Removing a subscription from the table of its client, from the tree, and its object. -/
theorem delete_spec (h : Inv b R) (hc : b.heap.get a = some c) {identifier : CStr}
    (hmem : (identifier, p) ∈ c.subs) : ∃ st R', delSubscriber b.store p = some (.ok, st) ∧
      Inv ((⟨b.clients, delEntry b.heap a identifier, st⟩ : Broker).freeSub p) R' ∧
      ∀ {q}, q ≠ p → (st.subs.free p).get q = b.store.subs.get q := by
  obtain ⟨st, hdel, hinv, -, -⟩ := drop_entry h hc hmem
  obtain ⟨s, hs, -⟩ := h.entries hc hmem
  obtain ⟨st', hdel', -, hkeep, -⟩ := del_free_spec h.topic hs
  obtain ⟨-, rfl⟩ := Prod.mk.inj (Option.some.inj (hdel.symm.trans hdel'))
  exact ⟨st, _, hdel, hinv, hkeep⟩

/-- `client__unsub_all` by its parts. -/
theorem unsub_all_eq (a : Addr) (entries : List (CStr × Addr)) (b : Broker) :
    unsubAllLoop a entries b = (unsubStores entries b.store).map fun st =>
      ⟨b.clients, unsubHeap a entries b.heap, st⟩ := by
  induction entries generalizing b with
  | nil => rfl
  | cons e rest ih =>
      unfold unsubAllLoop unsubStores
      cases hdel : delSubscriber b.store e.2 with
      | none => simp
      | some r =>
          simp only [bind, Option.bind_some]
          exact ih ((⟨b.clients, delEntry b.heap a e.1, r.2⟩ : Broker).freeSub e.2)

theorem unsub_heap_next (a : Addr) (entries : List (CStr × Addr)) (heap : Heap Client) :
    (unsubHeap a entries heap).next = heap.next := by
  induction entries generalizing heap with
  | nil => rfl
  | cons e rest ih => exact ih (delEntry heap a e.1)

/-- The client objects after `client__unsub_all` depend on those before it only. -/
theorem get_unsub_heap {heap heap' : Heap Client} (hsame : heap.get a = heap'.get a)
    (entries : List (CStr × Addr)) :
    (unsubHeap a entries heap).get a = (unsubHeap a entries heap').get a := by
  induction entries generalizing heap heap' with
  | nil => exact hsame
  | cons e rest ih =>
      refine ih ?_
      simp only [delEntry, Heap.get_modify, hsame]

theorem get_unsub_heap_ne (heap : Heap Client) {x : Addr} (hx : x ≠ a)
    (entries : List (CStr × Addr)) : (unsubHeap a entries heap).get x = heap.get x := by
  induction entries generalizing heap with
  | nil => rfl
  | cons e rest ih =>
      refine (ih (delEntry heap a e.1)).trans ?_
      simp only [delEntry, Heap.get_modify, if_neg hx]

/-- `client__unsub_all` empties the table of the client and leaves the objects of the others. -/
theorem unsub_stores_spec (h : Inv b R) (hc : b.heap.get a = some c) :
    ∃ st, unsubStores c.subs b.store = some st ∧
      (unsubHeap a c.subs b.heap).get a = some { c with subs := [] } ∧
      ∀ {q s}, b.store.subs.get q = some s → s.client ≠ a → st.subs.get q = some s := by
  obtain ⟨b', hloop, -, hget, -⟩ := unsub_all_loop h hc
  rw [unsub_all_eq, Option.map_eq_some_iff] at hloop
  obtain ⟨st, hstores, rfl⟩ := hloop
  refine ⟨st, hstores, hget, ?_⟩
  clear hget
  -- the entries that are still to come belong to the client as well
  obtain ⟨id, subs, addr⟩ := c
  induction subs generalizing b R with
  | nil =>
      intro q s hs _
      rwa [← Option.some.inj hstores]
  | cons e subs ih =>
      intro q s hs hne
      obtain ⟨key, p⟩ := e
      obtain ⟨t, ht, htclient, -⟩ := h.entries hc List.mem_cons_self
      obtain ⟨st₁, R', hdel, hinv, hkeep⟩ := delete_spec h hc List.mem_cons_self
      simp only [unsubStores, hdel, bind, Option.bind_some] at hstores
      have hqp : q ≠ p := by
        rintro rfl
        exact hne ((congrArg Subscriber.client (Option.some.inj (hs.symm.trans ht))).trans htclient)
      have hkeys := h.keys hc
      have hrest : HashTable.del ((key, p) :: subs) key = subs := by
        rw [HashTable.del_eq_filter hkeys, List.filter_cons_of_neg (by simp)]
        refine List.filter_eq_self.mpr fun e he => ?_
        simp only [HashTable.keys, List.map_cons, List.nodup_cons] at hkeys
        simpa using fun heq : e.1 = key => hkeys.1 (heq ▸ List.mem_map_of_mem he)
      refine ih hinv ?_ hstores ((hkeep hqp).trans hs) hne
      show (delEntry b.heap a key).get a = some ⟨id, subs, addr⟩
      rw [get_del_entry hc, if_pos rfl, hrest]

/-- Destroying a client by its parts. -/
theorem destroy_parts (h : Inv b R) (hc : b.heap.get a = some c) :
    ∃ st R', unsubStores c.subs b.store = some st ∧
      brokerDestroyClient b a = some ⟨b.clients.del c.id, (unsubHeap a c.subs b.heap).free a, st⟩ ∧
      Inv ⟨b.clients.del c.id, (unsubHeap a c.subs b.heap).free a, st⟩ R' := by
  obtain ⟨b', R', hrun, hinv, -⟩ := destroy_spec h hc
  obtain ⟨st, hstores, -⟩ := unsub_stores_spec h hc
  have hparts : brokerDestroyClient b a =
      some ⟨b.clients.del c.id, (unsubHeap a c.subs b.heap).free a, st⟩ := by
    unfold brokerDestroyClient clientDestroy clientUnsubAll
    simp only [hc, h.find_client hc, bind, Option.bind_some, unsub_all_eq, hstores, Option.map_some]
  obtain rfl := Option.some.inj (hrun.symm.trans hparts)
  exact ⟨st, R', hstores, hparts, hinv⟩

end

end Bpsp
