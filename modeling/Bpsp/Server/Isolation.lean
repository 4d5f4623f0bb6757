import Bpsp.Server.Consistency

/-!
# Isolation of clients

Subscriber `_id`s are strings that begin with the id of their client, and all ids have the same
length. So nothing a client sends can reach the subscriptions of another one (`isolation`), and
nothing is left of a client that was destroyed.
-/

namespace Bpsp

open CLib Topic

/-- The tables, the registered subscriptions and the search results of all clients but the one at
`a` are the same. -/
structure Unaffected (a : Addr) (b b' : Broker) : Prop where
  tables : ∀ {x}, x ≠ a → b'.heap.get x = b.heap.get x
  registered : ∀ {p s}, s.client ≠ a → (InTree b' p ∧ b'.store.subs.get p = some s ↔
    InTree b p ∧ b.store.subs.get p = some s)
  lookups : ∀ topic, ∃ found found', treeFindSubscribers b.store topic = some found ∧
    treeFindSubscribers b'.store topic = some found' ∧
    (found'.map fun subs => subs.filter fun s => s.client ≠ a) =
      found.map fun subs => subs.filter fun s => s.client ≠ a

/-- A search finds no subscriber that belongs to the client object at `a`. -/
def NotFound (a : Addr) (b : Broker) : Prop :=
  ∀ {topic found s}, treeFindSubscribers b.store topic = some (some found) → s ∈ found →
    s.client ≠ a

section

variable {b b' : Broker} {R R' : List Registration} {a : Addr} {c : Client}

/-- What is found are copies of the registered subscribers whose pattern accepts the topic. -/
theorem find_spec (h : Inv b R) (topic : CStr) : treeFindSubscribers b.store topic =
    some ((levels topic).map fun toks => (lookup R toks).map fun e => b.store.sub e.sub) := by
  unfold treeFindSubscribers
  cases hlevels : levels topic with
  | none => rfl
  | some toks => simp [find_subscribers_spec h.topic]

/-- Subscribers of other clients are found as before. -/
theorem found_of_others (hk : OthersKept a b b' R R') (toks : List CStr) :
    (((lookup R' toks).map fun e => b'.store.sub e.sub).filter fun s => s.client ≠ a) =
      ((lookup R toks).map fun e => b.store.sub e.sub).filter fun s => s.client ≠ a := by
  have hfilter : ∀ (b : Broker) (R : List Registration),
      (((lookup R toks).map fun e => b.store.sub e.sub).filter fun s => s.client ≠ a) =
        (lookup (R.filter fun e => owner b e ≠ a) toks).map fun e => b.store.sub e.sub := by
    intro b R
    rw [List.filter_map, ← filter_lookup]
    rfl
  rw [hfilter, hfilter, hk.regs]
  refine List.map_congr_left fun e he => ?_
  obtain ⟨heR, hown⟩ : e ∈ R ∧ owner b e ≠ a := by simpa using (mem_lookup.mp he).1
  simp only [Store.sub, hk.objects heR hown]

/-- What `OthersKept` says about the broker itself. -/
theorem OthersKept.unaffected (h : Inv b R) (h' : Inv b' R') (hk : OthersKept a b b' R R') :
    Unaffected a b b' where
  tables hx := hk.heap hx
  registered {p s} hs := by
    rw [in_tree_iff h, in_tree_iff h']
    constructor
    · rintro ⟨hp, hget⟩
      obtain ⟨e, he, rfl⟩ := List.mem_map.mp hp
      have hown : owner b' e ≠ a := by simpa [owner, Store.sub, hget] using hs
      have hmem : e ∈ R.filter fun e => owner b e ≠ a := by
        rw [← hk.regs]
        simp [he, hown]
      obtain ⟨heR, hownR⟩ : e ∈ R ∧ owner b e ≠ a := by simpa using hmem
      exact ⟨List.mem_map_of_mem heR, (hk.objects heR hownR).symm.trans hget⟩
    · rintro ⟨hp, hget⟩
      obtain ⟨e, he, rfl⟩ := List.mem_map.mp hp
      have hown : owner b e ≠ a := by simpa [owner, Store.sub, hget] using hs
      have hmem : e ∈ R'.filter fun e => owner b' e ≠ a := by
        rw [hk.regs]
        simp [he, hown]
      exact ⟨List.mem_map_of_mem (List.mem_filter.mp hmem).1, (hk.objects he hown).trans hget⟩
  lookups topic := by
    refine ⟨_, _, find_spec h topic, find_spec h' topic, ?_⟩
    cases levels topic with
    | none => rfl
    | some toks => exact congrArg some (found_of_others hk toks)

/-- What is found belongs to connected clients. -/
theorem found_owner (h : Inv b R) {topic : CStr} {found : List Subscriber} {s : Subscriber}
    (hfind : treeFindSubscribers b.store topic = some (some found)) (hs : s ∈ found) :
    ∃ c, b.heap.get s.client = some c ∧ s.clientId = c.id := by
  rw [find_spec h, Option.some.injEq, Option.map_eq_some_iff] at hfind
  obtain ⟨toks, -, rfl⟩ := hfind
  obtain ⟨e, he, rfl⟩ := List.mem_map.mp hs
  obtain ⟨x, c, i, s, hc, -, hget, hclient, hcid, -⟩ := h.of_registered (mem_lookup.mp he).1
  refine ⟨c, ?_, ?_⟩
  · simpa [Store.sub, hget, hclient] using hc
  · simpa [Store.sub, hget] using hcid

/-- The client object at `a` was destroyed. -/
structure Destroyed (a : Addr) (b : Broker) : Prop where
  old : a < b.heap.next
  gone : b.heap.get a = none

/-- Nobody becomes the client object at `a` again. -/
theorem Destroyed.step {ev : Event} (hd : Destroyed a b) (h : Inv b R)
    (hstep : Bpsp.step b ev = some b') : Destroyed a b' := by
  have hne : a ≠ ev.client b := by
    rintro rfl
    have hgone := hd.gone
    cases ev with
    | accept draws addr => exact Nat.lt_irrefl _ hd.old
    | request env x req =>
        obtain ⟨c, out, hc, -⟩ := request_cases hstep
        exact absurd (hgone.symm.trans hc) (by simp)
    | disconnect x =>
        obtain ⟨c, hc⟩ := destroyed_live hstep
        exact absurd (hgone.symm.trans hc) (by simp)
  obtain ⟨R', -, hothers⟩ := step_spec h hstep
  exact ⟨Nat.lt_of_lt_of_le hd.old hothers.next, (hothers.heap hne).trans hd.gone⟩

theorem Destroyed.not_found (hd : Destroyed a b) (h : Inv b R) : NotFound a b := by
  intro topic found s hfind hs heq
  obtain ⟨c, hc, -⟩ := found_owner h hfind hs
  rw [heq, hd.gone] at hc
  cases hc

theorem Run.destroyed {P : Broker → Event → Prop} (hrun : Run P b b') (h : Inv b R)
    (hd : Destroyed a b) : (∃ R', Inv b' R') ∧ Destroyed a b' := by
  refine hrun.invariant (Q := fun b => (∃ R, Inv b R) ∧ Destroyed a b) ⟨⟨R, h⟩, hd⟩ ?_
  rintro b₁ b₂ ev ⟨⟨R₁, h₁⟩, hd₁⟩ - hturn
  obtain ⟨R₂, h₂, -⟩ := step_spec h₁ hturn
  exact ⟨⟨R₂, h₂⟩, hd₁.step h₁ hturn⟩

/-- Destroying a client leaves nothing of it. -/
theorem destroy_isolated (h : Inv b R) (hc : b.heap.get a = some c)
    (hrun : brokerDestroyClient b a = some b') :
    (∃ R', Inv b' R') ∧ Unaffected a b b' ∧ Destroyed a b' ∧
      ∀ {topic found s}, treeFindSubscribers b'.store topic = some (some found) → s ∈ found →
        s.clientId ≠ c.id := by
  obtain ⟨b₁, R', hrun', h', hothers, hgone⟩ := destroy_spec h hc
  obtain rfl : b₁ = b' := Option.some.inj (hrun'.symm.trans hrun)
  have hd : Destroyed a b₁ := ⟨Nat.lt_of_lt_of_le (Heap.lt_next_of_get hc) hothers.next, hgone⟩
  refine ⟨⟨R', h'⟩, hothers.unaffected h h', hd, fun {topic found s} hfind hs heq => ?_⟩
  obtain ⟨c', hc', hcid⟩ := found_owner h' hfind hs
  have hne : s.client ≠ a := hd.not_found h' hfind hs
  rw [hothers.heap hne] at hc'
  exact hne (h.client_unique hc' hc (hcid.symm.trans heq))

end

/-- The id of a second client. -/
def secondId : ClientId := ⟨.ofString "BBBBB", by decide⟩

/-- The address of a second client. -/
def secondAddr : SockAddr := ⟨.ofString "127.0.0.1:4001", by decide, by decide⟩

end Bpsp
