import Bpsp.Handle
import Bpsp.Topic.Registry

/-!
# The invariant of the broker

`Inv b R` ties the three records of a subscription together: the registry `R` that the topic tree
holds, the tables of the clients, and the table of clients. Read `sub0_ok` and `drop_entry` first:
they say what subscribing and removing one entry do, and every request is made of these.
`OthersKept a` collects what a client `a` cannot change.
-/

namespace Bpsp

open CLib Topic

/-- The client's table says that `p` is its subscriber under `identifier`. -/
def Holds (b : Broker) (a : Addr) (identifier : CStr) (p : Addr) : Prop :=
  ∃ c, b.heap.get a = some c ∧ (identifier, p) ∈ c.subs

/-- The tables of the broker agree with each other and with the registry `R`. An entry of a
client's table is registered unless its topic is one that the tree refuses. -/
structure Inv (b : Broker) (R : List Registration) : Prop where
  topic : Represents b.store R
  names : b.clients.keys.Nodup
  clients : ∀ {id a}, (id, a) ∈ b.clients ↔ ∃ c, b.heap.get a = some c ∧ c.id = id
  idLength : ∀ {a c}, b.heap.get a = some c → c.id.length = 5
  keys : ∀ {a c}, b.heap.get a = some c → c.subs.keys.Nodup
  entries : ∀ {a c identifier p}, b.heap.get a = some c → (identifier, p) ∈ c.subs →
    ∃ s, b.store.subs.get p = some s ∧ s.client = a ∧ s.clientId = c.id ∧
      s.id = c.id ++ identifier ∧ (s.pattern.isSome → p ∈ R.map (·.sub))
  registered : ∀ {e}, e ∈ R → ∃ a identifier, Holds b a identifier e.sub

/-- The client that a registration belongs to. -/
def owner (b : Broker) (e : Registration) : Addr := (b.store.sub e.sub).client

/-- What a client `a` leaves alone: the other clients with their tables, their registrations and
their subscriber objects. -/
structure OthersKept (a : Addr) (b b' : Broker) (R R' : List Registration) : Prop where
  heap : ∀ {x}, x ≠ a → b'.heap.get x = b.heap.get x
  next : b.heap.next ≤ b'.heap.next
  clients : ∀ {id x}, x ≠ a → ((id, x) ∈ b'.clients ↔ (id, x) ∈ b.clients)
  regs : (R'.filter fun e => owner b' e ≠ a) = R.filter fun e => owner b e ≠ a
  objects : ∀ {e}, e ∈ R → owner b e ≠ a → b'.store.subs.get e.sub = b.store.subs.get e.sub

namespace OthersKept

variable {a : Addr} {b b₁ b₂ : Broker} {R R₁ R₂ : List Registration}

theorem refl (a : Addr) (b : Broker) (R : List Registration) : OthersKept a b b R R :=
  ⟨fun _ => rfl, Nat.le_refl _, fun _ => Iff.rfl, rfl, fun _ _ => rfl⟩

theorem trans (h : OthersKept a b b₁ R R₁) (h' : OthersKept a b₁ b₂ R₁ R₂) :
    OthersKept a b b₂ R R₂ where
  heap hx := (h'.heap hx).trans (h.heap hx)
  next := h.next.trans h'.next
  clients hx := (h'.clients hx).trans (h.clients hx)
  regs := h'.regs.trans h.regs
  objects {e} he hown := by
    have hmem : e ∈ R₁.filter fun e => owner b₁ e ≠ a := by
      rw [h.regs]
      simp [he, hown]
    obtain ⟨he₁, hown₁⟩ : e ∈ R₁ ∧ owner b₁ e ≠ a := by simpa using hmem
    exact (h'.objects he₁ hown₁).trans (h.objects he hown)

/-- Nothing registered is touched. -/
theorem of_objects (hheap : ∀ {x}, x ≠ a → b₁.heap.get x = b.heap.get x)
    (hnext : b.heap.next ≤ b₁.heap.next) (hclients : b₁.clients = b.clients)
    (hobj : ∀ {e}, e ∈ R → b₁.store.subs.get e.sub = b.store.subs.get e.sub) :
    OthersKept a b b₁ R R where
  heap := hheap
  next := hnext
  clients _ := by rw [hclients]
  regs := List.filter_congr fun e he => congrArg (fun x => decide (x ≠ a)) (by
    simp only [owner, Store.sub, hobj he])
  objects he _ := hobj he

end OthersKept

namespace Inv

variable {b : Broker} {R : List Registration}

/-- The subscriber object behind a registration, with the entry that it comes from. -/
theorem of_registered (h : Inv b R) {e : Registration} (he : e ∈ R) :
    ∃ a c identifier s, b.heap.get a = some c ∧ (identifier, e.sub) ∈ c.subs ∧
      b.store.subs.get e.sub = some s ∧ s.client = a ∧ s.clientId = c.id ∧
      s.id = c.id ++ identifier ∧ e.id = s.id ∧ s.pattern = some e.pattern ∧ owner b e = a := by
  obtain ⟨a, identifier, c, hc, hmem⟩ := h.registered he
  obtain ⟨s, hs, hclient, hcid, hid, -⟩ := h.entries hc hmem
  obtain ⟨s', hs', hid', hpat, -⟩ := h.topic.live he
  obtain rfl : s = s' := Option.some.inj (hs.symm.trans hs')
  exact ⟨a, c, identifier, s, hc, hmem, hs, hclient, hcid, hid, hid'.symm, hpat,
    by simp [owner, Store.sub, hs, hclient]⟩

/-- A subscriber object stands in one table only, under one identifier. -/
theorem holder_unique (h : Inv b R) {a a' : Addr} {c c' : Client} {i i' : CStr} {p : Addr}
    (hc : b.heap.get a = some c) (hi : (i, p) ∈ c.subs) (hc' : b.heap.get a' = some c')
    (hi' : (i', p) ∈ c'.subs) : a = a' ∧ i = i' := by
  obtain ⟨s, hs, hclient, -, hid, -⟩ := h.entries hc hi
  obtain ⟨s', hs', hclient', -, hid', -⟩ := h.entries hc' hi'
  obtain rfl : s = s' := Option.some.inj (hs.symm.trans hs')
  obtain rfl : a = a' := hclient.symm.trans hclient'
  obtain rfl : c = c' := Option.some.inj (hc.symm.trans hc')
  exact ⟨rfl, (CStr.append_inj (hid.symm.trans hid') rfl).2⟩

/-- Connected clients have different ids. -/
theorem client_unique (h : Inv b R) {a a' : Addr} {c c' : Client} (hc : b.heap.get a = some c)
    (hc' : b.heap.get a' = some c') (hid : c.id = c'.id) : a = a' :=
  HashTable.eq_of_mem h.names (h.clients.mpr ⟨c, hc, rfl⟩) (h.clients.mpr ⟨c', hc', hid.symm⟩)

theorem find_client (h : Inv b R) {a : Addr} {c : Client} (hc : b.heap.get a = some c) :
    b.clients.find c.id = some a :=
  (HashTable.find_eq_some_iff h.names).mpr (h.clients.mpr ⟨c, hc, rfl⟩)

/-- Identifiers are unique within a client and ids have one length, so an `_id` that a client does
not hold is registered by nobody. -/
theorem id_not_registered (h : Inv b R) {a : Addr} {c : Client} {identifier : CStr}
    (hc : b.heap.get a = some c) (hfind : c.subs.find identifier = none) :
    c.id ++ identifier ∉ R.map (·.id) := by
  intro hmem
  obtain ⟨e, he, hid⟩ := List.mem_map.mp hmem
  obtain ⟨a', c', i', s, hc', hi', -, -, -, hsid, heid, -, -⟩ := h.of_registered he
  have heq : c.id ++ identifier = c'.id ++ i' := hid.symm.trans (heid.trans hsid)
  obtain ⟨hcid, rfl⟩ := CStr.append_inj heq ((h.idLength hc).trans (h.idLength hc').symm)
  obtain rfl := h.client_unique hc hc' hcid
  obtain rfl : c = c' := Option.some.inj (hc.symm.trans hc')
  exact HashTable.find_eq_none_iff.mp hfind (HashTable.mem_keys_of_mem hi')

end Inv

/-- The empty broker. -/
theorem inv_init : Inv Broker.init [] where
  topic := represents_init (by simp)
  names := by simp [Broker.init]
  clients := by simp [Broker.init]
  idLength := by simp [Broker.init]
  keys := by simp [Broker.init]
  entries := by simp [Broker.init]
  registered := by simp

/-- A new subscriber object outside all tables. -/
theorem alloc_sub_spec {b : Broker} {R : List Registration} (h : Inv b R) (sub : Subscriber)
    (hnode : sub.node = none) :
    Inv (b.allocSub sub).1 R ∧ (b.allocSub sub).1.store.subs.get b.store.subs.next = some sub ∧
      b.store.subs.next ∉ R.map (·.sub) ∧
      ∀ {p s}, b.store.subs.get p = some s → (b.allocSub sub).1.store.subs.get p = some s := by
  have hold : ∀ {p s}, b.store.subs.get p = some s →
      (b.allocSub sub).1.store.subs.get p = some s := fun hp => Heap.get_alloc_of_get hp
  have hfresh : b.store.subs.next ∉ R.map (·.sub) := by
    intro hmem
    obtain ⟨e, he, heq⟩ := List.mem_map.mp hmem
    exact Heap.ne_next_of_get (h.topic.get_sub he) heq
  refine ⟨⟨?_, h.names, h.clients, h.idLength, h.keys, ?_, h.registered⟩,
    Heap.get_alloc_self _ _, hfresh, hold⟩
  · refine represents_subs h.topic (fun e he => ?_) fun p s hp hnot => ?_
    · rw [h.topic.get_sub he]
      exact hold (h.topic.get_sub he)
    · rw [Heap.get_alloc] at hp
      split_ifs at hp
      · exact Option.some.inj hp ▸ hnode
      · exact h.topic.unregistered hp hnot
  · intro a c i p hc hi
    obtain ⟨s, hs, hrest⟩ := h.entries hc hi
    exact ⟨s, hold hs, hrest⟩

/-- The clients after an entry was added to the table of the client at `a`. -/
theorem get_add_entry {heap : Heap Client} {a x p : Addr} {c : Client} {identifier : CStr}
    (hc : heap.get a = some c) : (addEntry heap a identifier p).get x =
      if x = a then some { c with subs := c.subs.add identifier p } else heap.get x := by
  rw [addEntry, Heap.get_modify, hc]
  rfl

/-- Adding an entry to a client's table. The subscriber object is new; the registry either has it
or its topic is refused. -/
theorem inv_add_entry {b b' : Broker} {R R' : List Registration} (h : Inv b R) {a p : Addr}
    {c : Client} {identifier : CStr} {sub : Subscriber} (hc : b.heap.get a = some c)
    (hfind : c.subs.find identifier = none)
    (hheap : b'.heap = addEntry b.heap a identifier p)
    (hclients : b'.clients = b.clients) (htopic : Represents b'.store R')
    (hsub : b'.store.subs.get p = some sub) (hclient : sub.client = a)
    (hcid : sub.clientId = c.id) (hid : sub.id = c.id ++ identifier)
    (hreg : sub.pattern.isSome → p ∈ R'.map (·.sub))
    (hold : ∀ {q s}, q ≠ p → b.store.subs.get q = some s → b'.store.subs.get q = some s)
    (hfresh : b.store.subs.get p = none) (hR : ∀ {e}, e ∈ R' → e ∈ R ∨ e.sub = p)
    (hR' : ∀ {e}, e ∈ R → e ∈ R') : Inv b' R' := by
  have hget : ∀ {x}, b'.heap.get x = if x = a then
      some { c with subs := c.subs.add identifier p } else b.heap.get x := by
    intro x
    rw [hheap, get_add_entry hc]
  have hback : ∀ {x c'}, b'.heap.get x = some c' →
      ∃ c₀, b.heap.get x = some c₀ ∧ c'.id = c₀.id ∧ (c'.subs = c₀.subs ∨
        x = a ∧ c₀ = c ∧ c'.subs = c.subs.add identifier p) := by
    intro x c' hx
    rw [hget] at hx
    split_ifs at hx with hxa
    · rw [← Option.some.inj hx]
      exact ⟨c, hxa ▸ hc, rfl, Or.inr ⟨hxa, rfl, rfl⟩⟩
    · exact ⟨c', hx, rfl, Or.inl rfl⟩
  refine ⟨htopic, by rw [hclients]; exact h.names, fun {id x} => ?_, fun {x c'} hx => ?_,
    fun {x c'} hx => ?_, fun {x c' i q} hx hi => ?_, fun {e} he => ?_⟩
  · rw [hclients, h.clients, hget]
    split_ifs with hxa
    · simp [hxa, hc]
    · rfl
  · obtain ⟨c₀, hc₀, hid', -⟩ := hback hx
    rw [hid']
    exact h.idLength hc₀
  · obtain ⟨c₀, hc₀, -, hsubs | ⟨-, rfl, hsubs⟩⟩ := hback hx
    · rw [hsubs]
      exact h.keys hc₀
    · rw [hsubs]
      exact HashTable.nodup_add (h.keys hc₀) hfind
  · obtain ⟨c₀, hc₀, hid', hsubs⟩ := hback hx
    have hcase : (i, q) ∈ c₀.subs ∨ (i, q) = (identifier, p) ∧ x = a ∧ c₀ = c := by
      rcases hsubs with hsubs | ⟨hxa, hc', hsubs⟩
      · exact Or.inl (hsubs ▸ hi)
      · rw [hsubs] at hi
        rcases List.mem_append.mp hi with hi | hi
        · exact Or.inl (hc' ▸ hi)
        · exact Or.inr ⟨List.mem_singleton.mp hi, hxa, hc'⟩
    rcases hcase with hi₀ | ⟨heq, rfl, rfl⟩
    · obtain ⟨s, hs, hcl, hcid', hsid, hsreg⟩ := h.entries hc₀ hi₀
      have hqp : q ≠ p := by
        rintro rfl
        simp [hfresh] at hs
      refine ⟨s, hold hqp hs, hcl, hcid'.trans hid'.symm, by rw [hid']; exact hsid, fun hpat => ?_⟩
      obtain ⟨e, he, rfl⟩ := List.mem_map.mp (hsreg hpat)
      exact List.mem_map_of_mem (hR' he)
    · obtain ⟨rfl, rfl⟩ := Prod.mk.inj heq
      exact ⟨sub, hsub, hclient, hcid.trans hid'.symm, by rw [hid']; exact hid, hreg⟩
  · rcases hR he with heR | hep
    · obtain ⟨x, i, c₀, hc₀, hi⟩ := h.registered heR
      by_cases hxa : x = a
      · obtain rfl : c = c₀ := Option.some.inj (hc.symm.trans (hxa ▸ hc₀))
        exact ⟨x, i, _, by rw [hget, if_pos hxa], List.mem_append_left _ hi⟩
      · exact ⟨x, i, c₀, by rw [hget, if_neg hxa, hc₀], hi⟩
    · exact ⟨a, identifier, _, by rw [hget, if_pos rfl],
        by rw [hep]; exact List.mem_append_right _ (List.mem_singleton.mpr rfl)⟩

section Subscribe

variable (topic : CStr) (subTag : Option CStr) (a : Addr) (c : Client)

theorem new_sub_id : (subscriberNew topic subTag a c).id =
    c.id ++ subscriberMakeIdentifier topic (subTag.getD defaultTag) := by
  simp only [subscriberNew, subscriberGenId, subscriberMakeIdentifier, CStr.append_assoc]

theorem new_sub_identifier : (subscriberNew topic subTag a c).getIdentifier =
    subscriberMakeIdentifier topic (subTag.getD defaultTag) := by
  rw [Subscriber.getIdentifier, new_sub_id]
  exact CStr.append_drop _ rfl

theorem new_sub_topic : (subscriberNew topic subTag a c).getTopic = topic := by
  rw [Subscriber.getTopic]
  refine CStr.append_drop _ ?_
  simp only [subscriberNew, CStr.length_append]
  rw [show (CStr.ofString "/").length = 1 by decide]
  omega

theorem new_sub_pattern : (subscriberNew topic subTag a c).pattern =
    (levels topic).map fun toks => toks.map levelOf := by
  rw [Subscriber.pattern, new_sub_topic]

variable {topic subTag a c} {b : Broker} {R : List Registration} {p : Addr}

/-- An identifier that the client already holds is refused. -/
theorem sub0_dup (h : Inv b R) (hc : b.heap.get a = some c)
    (hfind : c.subs.find (subscriberMakeIdentifier topic (subTag.getD defaultTag)) = some p) :
    clientSub0 (b.allocSub (subscriberNew topic subTag a c)).1 a b.store.subs.next =
      some (.treeDupSubscriber, (b.allocSub (subscriberNew topic subTag a c)).1) := by
  obtain ⟨-, hsub, -, -⟩ := alloc_sub_spec h (subscriberNew topic subTag a c) rfl
  have hheap : (b.allocSub (subscriberNew topic subTag a c)).1.heap = b.heap := rfl
  unfold clientSub0
  simp only [hheap, hc, hsub, new_sub_identifier, hfind, bind, Option.bind_some]

/-- A topic that the tree refuses leaves an entry in the client's table. -/
theorem sub0_invalid (h : Inv b R) (hc : b.heap.get a = some c)
    (hfind : c.subs.find (subscriberMakeIdentifier topic (subTag.getD defaultTag)) = none)
    (hlevels : levels topic = none) :
    ∃ b', clientSub0 (b.allocSub (subscriberNew topic subTag a c)).1 a b.store.subs.next =
        some (.invalidTopic, b') ∧
      b'.heap = addEntry b.heap a (subscriberMakeIdentifier topic (subTag.getD defaultTag))
        b.store.subs.next ∧
      b'.clients = b.clients ∧ b'.store = (b.allocSub (subscriberNew topic subTag a c)).1.store ∧
      Inv b' R ∧ OthersKept a b b' R R := by
  obtain ⟨hinv, hsub, hfresh, hold⟩ := alloc_sub_spec h (subscriberNew topic subTag a c) rfl
  have hpat : (subscriberNew topic subTag a c).pattern = none := by
    rw [new_sub_pattern, hlevels]
    rfl
  have hadd := add_subscriber_invalid (fun _ => true) hsub hpat
  refine ⟨⟨b.clients, addEntry b.heap a (subscriberMakeIdentifier topic (subTag.getD defaultTag))
      b.store.subs.next, (b.allocSub (subscriberNew topic subTag a c)).1.store⟩, ?_, rfl, rfl, rfl,
    inv_add_entry h hc hfind rfl rfl hinv.topic hsub rfl rfl (new_sub_id topic subTag a c)
      (by simp [hpat]) (fun _ hq => hold hq) (Heap.get_next _) Or.inl id,
    OthersKept.of_objects (fun hx => (get_add_entry hc).trans (if_neg hx)) (Nat.le_refl _) rfl fun {e} he => ?_⟩
  · have hheap : (b.allocSub (subscriberNew topic subTag a c)).1.heap = b.heap := rfl
    unfold clientSub0
    simp only [hheap, hc, hsub, new_sub_identifier, hfind, hadd, bind, Option.bind_some]
    rfl
  · rw [h.topic.get_sub he]
    exact hold (h.topic.get_sub he)

/-- A new identifier with an accepted topic is registered. -/
theorem sub0_ok (h : Inv b R) (hc : b.heap.get a = some c)
    (hfind : c.subs.find (subscriberMakeIdentifier topic (subTag.getD defaultTag)) = none)
    {toks : List CStr} (hlevels : levels topic = some toks) :
    ∃ b', clientSub0 (b.allocSub (subscriberNew topic subTag a c)).1 a b.store.subs.next =
        some (.ok, b') ∧
      b'.heap = addEntry b.heap a (subscriberMakeIdentifier topic (subTag.getD defaultTag))
        b.store.subs.next ∧
      b'.clients = b.clients ∧
      Inv b' (R ++ [⟨b.store.subs.next, (subscriberNew topic subTag a c).id, toks.map levelOf⟩]) ∧
      OthersKept a b b' R
        (R ++ [⟨b.store.subs.next, (subscriberNew topic subTag a c).id, toks.map levelOf⟩]) ∧
      ∀ {q x}, nodeAt b.store.tree q = some x → nodeAt b'.store.tree q = some x := by
  obtain ⟨hinv, hsub, hfresh, hold⟩ := alloc_sub_spec h (subscriberNew topic subTag a c) rfl
  have hpat : (subscriberNew topic subTag a c).pattern = some (toks.map levelOf) := by
    rw [new_sub_pattern, hlevels]
    rfl
  have hid : (subscriberNew topic subTag a c).id ∉ R.map (·.id) := by
    rw [new_sub_id]
    exact h.id_not_registered hc hfind
  obtain ⟨st', hadd, hrepr, hsubs, hnodes⟩ := add_subscriber_ok hinv.topic hsub hfresh hid hpat
  have hget : ∀ {q}, q ≠ b.store.subs.next → st'.subs.get q =
      (b.allocSub (subscriberNew topic subTag a c)).1.store.subs.get q := by
    intro q hq
    rw [hsubs, Heap.get_modify, if_neg hq]
  have hnew : st'.subs.get b.store.subs.next = some { subscriberNew topic subTag a c with
      node := nodeAt st'.tree (toks.map levelOf) } := by
    rw [hsubs, Heap.get_modify, if_pos rfl, hsub]
    rfl
  have hobj : ∀ {e}, e ∈ R → st'.subs.get e.sub = b.store.subs.get e.sub := by
    intro e he
    have hne : e.sub ≠ b.store.subs.next := Heap.ne_next_of_get (h.topic.get_sub he)
    rw [hget hne, h.topic.get_sub he]
    exact hold (h.topic.get_sub he)
  refine ⟨⟨b.clients, addEntry b.heap a (subscriberMakeIdentifier topic (subTag.getD defaultTag))
      b.store.subs.next, st'⟩, ?_, rfl, rfl,
    inv_add_entry h hc hfind rfl rfl hrepr hnew rfl rfl (new_sub_id topic subTag a c)
      (fun _ => by simp) (fun hq hs => (hget hq).trans (hold hs)) (Heap.get_next _) (fun he => ?_)
      (fun he => by simp [he]), ?_, hnodes⟩
  · have hheap : (b.allocSub (subscriberNew topic subTag a c)).1.heap = b.heap := rfl
    unfold clientSub0
    simp only [hheap, hc, hsub, new_sub_identifier, hfind, hadd, bind, Option.bind_some]
    rfl
  · rcases List.mem_append.mp he with he | he
    · exact Or.inl he
    · exact Or.inr (by rw [List.mem_singleton.mp he])
  · refine ⟨fun hx => (get_add_entry hc).trans (if_neg hx), Nat.le_refl _, fun _ => Iff.rfl, ?_,
      fun he _ => hobj he⟩
    rw [List.filter_append]
    rw [List.filter_cons_of_neg (by simp [owner, Store.sub, hnew, subscriberNew]), List.filter_nil,
      List.append_nil]
    refine List.filter_congr fun e he => congrArg (fun x => decide (x ≠ a)) ?_
    simp only [owner, Store.sub, hobj he]

end Subscribe

section Unsubscribe

variable {b : Broker} {R : List Registration} {a p : Addr} {c : Client} {identifier : CStr}

/-- Taking a live object out of the tree and freeing it. -/
theorem del_free_spec {st : Store} {s : Subscriber} (h : Represents st R)
    (hget : st.subs.get p = some s) :
    ∃ st', delSubscriber st p = some (.ok, st') ∧
      Represents { st' with subs := st'.subs.free p } (R.filter fun e => e.sub ≠ p) ∧
      (∀ {q}, q ≠ p → (st'.subs.free p).get q = st.subs.get q) ∧
      ∀ {q x}, nodeAt st'.tree q = some x → nodeAt st.tree q = some x := by
  have hfree : ∀ {st'}, Represents st' (R.filter fun e => e.sub ≠ p) →
      Represents { st' with subs := st'.subs.free p } (R.filter fun e => e.sub ≠ p) := by
    intro st' h'
    refine represents_subs h' (fun e he => ?_) fun q t hq hnot => ?_
    · have hne : e.sub ≠ p := by simpa using (List.mem_filter.mp he).2
      rw [Heap.get_free, if_neg hne]
    · rw [Heap.get_free] at hq
      split_ifs at hq
      exact h'.unregistered hq hnot
  by_cases hp : p ∈ R.map (·.sub)
  · obtain ⟨e, he, rfl⟩ := List.mem_map.mp hp
    obtain ⟨st', hdel, hrepr, hsubs, hback⟩ := del_subscriber_registered h he
    refine ⟨st', hdel, hfree hrepr, fun {q} hq => ?_, hback⟩
    rw [Heap.get_free, if_neg hq, hsubs, Heap.get_modify, if_neg hq]
  · have hall : (R.filter fun e => e.sub ≠ p) = R := by
      refine List.filter_eq_self.mpr fun e he => ?_
      simpa using fun heq : e.sub = p => hp (heq ▸ List.mem_map_of_mem he)
    refine ⟨st, del_subscriber_unregistered h hget hp, hfree (hall.symm ▸ h), fun {q} hq => ?_, id⟩
    rw [Heap.get_free, if_neg hq]

/-- The clients after the entry under `identifier` was deleted from the table of the client at
`a`. -/
theorem get_del_entry {heap : Heap Client} (hc : heap.get a = some c) {x : Addr} :
    (delEntry heap a identifier).get x =
      if x = a then some { c with subs := c.subs.del identifier } else heap.get x := by
  rw [delEntry, Heap.get_modify, hc]
  rfl

/-- Removing one entry from a client's table, its object from the tree, and the object itself. -/
theorem drop_entry (h : Inv b R) (hc : b.heap.get a = some c) (hmem : (identifier, p) ∈ c.subs) :
    ∃ store, delSubscriber b.store p = some (.ok, store) ∧
      Inv ((⟨b.clients, delEntry b.heap a identifier, store⟩ : Broker).freeSub p)
        (R.filter fun e => e.sub ≠ p) ∧
      OthersKept a b ((⟨b.clients, delEntry b.heap a identifier, store⟩ : Broker).freeSub p) R
        (R.filter fun e => e.sub ≠ p) ∧
      ∀ {q x}, nodeAt store.tree q = some x → nodeAt b.store.tree q = some x := by
  obtain ⟨s, hs, hclient, -, -, -⟩ := h.entries hc hmem
  obtain ⟨store, hdel, hrepr, hkeep, hback⟩ := del_free_spec h.topic hs
  have hkeys := h.keys hc
  have hold : ∀ {x c'}, (delEntry b.heap a identifier).get x = some c' →
      ∃ c₀, b.heap.get x = some c₀ ∧ c'.id = c₀.id ∧ c'.subs.keys.Nodup ∧
        ∀ {e}, e ∈ c'.subs → e ∈ c₀.subs ∧ (x = a → e.1 ≠ identifier) := by
    intro x c' hx
    rw [get_del_entry hc] at hx
    split_ifs at hx with hxa
    · rw [← Option.some.inj hx]
      refine ⟨c, hxa ▸ hc, rfl, HashTable.nodup_del hkeys _, fun {e} he => ?_⟩
      obtain ⟨he, hne⟩ := (HashTable.mem_del_iff hkeys).mp he
      exact ⟨he, fun _ => hne⟩
    · exact ⟨c', hx, rfl, h.keys hx, fun he => ⟨he, fun heq => absurd heq hxa⟩⟩
  refine ⟨store, hdel, ⟨hrepr, h.names, fun {id x} => ?_, fun {x c'} hx => ?_, fun {x c'} hx => ?_,
    fun {x c' i q} hx hi => ?_, fun {e} he => ?_⟩, ⟨fun {x} hx => ?_, Nat.le_refl _, fun _ => Iff.rfl,
    ?_, fun {e} he hown => ?_⟩, hback⟩
  · show (id, x) ∈ b.clients ↔ ∃ c', (delEntry b.heap a identifier).get x = some c' ∧ c'.id = id
    rw [h.clients, get_del_entry hc]
    split_ifs with hxa
    · simp [hxa, hc]
    · rfl
  · obtain ⟨c₀, hc₀, hid, -, -⟩ := hold hx
    rw [hid]
    exact h.idLength hc₀
  · obtain ⟨c₀, -, -, hnodup, -⟩ := hold hx
    exact hnodup
  · obtain ⟨c₀, hc₀, hid, -, hsubs⟩ := hold hx
    obtain ⟨hi₀, hne⟩ := hsubs hi
    obtain ⟨t, ht, htclient, htid, htsub, htreg⟩ := h.entries hc₀ hi₀
    have hqp : q ≠ p := by
      rintro rfl
      obtain ⟨rfl, rfl⟩ := h.holder_unique hc₀ hi₀ hc hmem
      exact hne rfl rfl
    refine ⟨t, (hkeep hqp).trans ht, htclient, htid.trans hid.symm, by rw [hid]; exact htsub,
      fun hpat => ?_⟩
    obtain ⟨e, he, rfl⟩ := List.mem_map.mp (htreg hpat)
    exact List.mem_map_of_mem (List.mem_filter.mpr ⟨he, by simpa using hqp⟩)
  · obtain ⟨heR, hne⟩ : e ∈ R ∧ e.sub ≠ p := by simpa using he
    obtain ⟨x, i, c₀, hc₀, hi⟩ := h.registered heR
    by_cases hxa : x = a
    · obtain rfl : c = c₀ := Option.some.inj (hc.symm.trans (hxa ▸ hc₀))
      refine ⟨x, i, { c with subs := c.subs.del identifier }, ?_, ?_⟩
      · exact (get_del_entry hc).trans (if_pos hxa)
      · refine (HashTable.mem_del_iff hkeys).mpr ⟨hi, fun heq => hne ?_⟩
        exact HashTable.eq_of_mem hkeys hi (by rw [show i = identifier from heq]; exact hmem)
    · exact ⟨x, i, c₀, (get_del_entry hc).trans ((if_neg hxa).trans hc₀), hi⟩
  · exact (get_del_entry hc).trans (if_neg hx)
  · rw [List.filter_filter]
    refine List.filter_congr fun e he => ?_
    by_cases hep : e.sub = p
    · have hown : owner b e = a := by simp [owner, Store.sub, hep, hs, hclient]
      simp [hep, hown]
    · have hown : owner ((⟨b.clients, delEntry b.heap a identifier, store⟩ : Broker).freeSub p) e =
          owner b e := by
        simp only [owner, Store.sub, Broker.freeSub, hkeep hep]
      simp only [hown, hep, ne_eq, not_false_eq_true, decide_true, Bool.and_true]
  · refine hkeep fun hep => hown ?_
    simp [owner, Store.sub, hep, hs, hclient]

/-- The cases of `client__unsub0`. -/
theorem unsub0_spec (h : Inv b R) (hc : b.heap.get a = some c) (topic : CStr)
    (subTag : Option CStr) :
    (subTag = none ∧ clientUnsub0 b a topic subTag = some (.invalidArg, b)) ∨
    (∃ tag, subTag = some tag ∧ c.subs.find (subscriberMakeIdentifier topic tag) = none ∧
      clientUnsub0 b a topic subTag = some (.invalidSubscriber, b)) ∨
    ∃ tag p b', subTag = some tag ∧ c.subs.find (subscriberMakeIdentifier topic tag) = some p ∧
      clientUnsub0 b a topic subTag = some (.ok, b') ∧ b'.clients = b.clients ∧
      b'.heap = delEntry b.heap a (subscriberMakeIdentifier topic tag) ∧
      Inv b' (R.filter fun e => e.sub ≠ p) ∧ OthersKept a b b' R (R.filter fun e => e.sub ≠ p) ∧
      ∀ {q x}, nodeAt b'.store.tree q = some x → nodeAt b.store.tree q = some x := by
  cases subTag with
  | none => exact Or.inl ⟨rfl, by simp [clientUnsub0, hc]⟩
  | some tag =>
      refine Or.inr ?_
      cases hfind : c.subs.find (subscriberMakeIdentifier topic tag) with
      | none => exact Or.inl ⟨tag, rfl, hfind, by simp [clientUnsub0, hc, hfind]⟩
      | some p =>
          obtain ⟨store, hdel, hinv, hothers, hback⟩ :=
            drop_entry h hc (HashTable.mem_of_find hfind)
          refine Or.inr ⟨tag, p,
            (⟨b.clients, delEntry b.heap a (subscriberMakeIdentifier topic tag), store⟩ :
              Broker).freeSub p, rfl, hfind, ?_, rfl, rfl, hinv, hothers, hback⟩
          simp [clientUnsub0, hc, hfind, hdel]

/-- The loop of `client__unsub_all` removes the entries that it goes through, which are all that the
client has. -/
theorem unsub_all_loop (h : Inv b R) (hc : b.heap.get a = some c) :
    ∃ b', unsubAllLoop a c.subs b = some b' ∧ b'.clients = b.clients ∧
      b'.heap.get a = some { c with subs := [] } ∧
      ∃ R', Inv b' R' ∧ OthersKept a b b' R R' := by
  obtain ⟨id, subs, addr⟩ := c
  induction subs generalizing b R with
  | nil => exact ⟨b, rfl, rfl, hc, R, h, OthersKept.refl a b R⟩
  | cons e subs ih =>
      obtain ⟨key, p⟩ := e
      obtain ⟨store, hdel, hinv, hothers, -⟩ := drop_entry h hc (List.mem_cons_self)
      have hkeys := h.keys hc
      have hrest : HashTable.del ((key, p) :: subs) key = subs := by
        rw [HashTable.del_eq_filter hkeys, List.filter_cons_of_neg (by simp)]
        refine List.filter_eq_self.mpr fun e he => ?_
        simp only [HashTable.keys, List.map_cons, List.nodup_cons] at hkeys
        simpa using fun heq : e.1 = key => hkeys.1 (heq ▸ List.mem_map_of_mem he)
      have hc' : ((⟨b.clients, delEntry b.heap a key, store⟩ : Broker).freeSub p).heap.get a =
          some ⟨id, subs, addr⟩ := by
        show (delEntry b.heap a key).get a = some ⟨id, subs, addr⟩
        rw [get_del_entry hc, if_pos rfl, hrest]
      obtain ⟨b', hloop, hclients, hget, R', hinv', hothers'⟩ := ih hinv hc'
      refine ⟨b', ?_, hclients, hget, R', hinv', hothers.trans hothers'⟩
      simp only [unsubAllLoop, hdel, bind, Option.bind_some]
      exact hloop

end Unsubscribe

end Bpsp
