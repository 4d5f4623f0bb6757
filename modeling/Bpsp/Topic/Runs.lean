import Bpsp.Topic.Registry

/-!
# Runs of insertions and deletions

A run is a list of `topic__add_subscriber` and `topic__del_subscriber` calls on the empty tree,
over subscriber objects with distinct `_id`. The set of registered subscribers has a description
that does not mention the tree (`registeredAfter`); `run_spec` shows that every run is defined and
ends in a tree that represents this set. The lookup and the shape of the tree follow.
-/

namespace Bpsp.Topic

open CLib Wildcard

/-- A call of the interface, with the subscriber object it is made for. -/
inductive Op where
  | add (p : Addr)
  | del (p : Addr)
  deriving DecidableEq

/-- The subscriber object of a call. -/
def Op.sub : Op → Addr
  | .add p => p
  | .del p => p

/-- One call; allocation succeeds. -/
def step (st : Store) : Op → Exec Store
  | .add p => (addSubscriber (fun _ => true) st p).map Prod.snd
  | .del p => (delSubscriber st p).map Prod.snd

/-- A sequence of calls. -/
def run : List Op → Store → Exec Store
  | [], st => some st
  | op :: ops, st => do
      let st ← step st op
      run ops st

/-- The subscriber objects before a run: their `_id`s are distinct and none is in a tree. -/
structure Objects (subs : Heap Subscriber) : Prop where
  distinct : ∀ {p q s t}, subs.get p = some s → subs.get q = some t → s.id = t.id → p = q
  unlinked : ∀ {p s}, subs.get p = some s → s.node = none

/-- The pattern of a subscriber object, when it is live and its topic is accepted. -/
def patternOf (subs : Heap Subscriber) (p : Addr) : Option Path :=
  (subs.get p).bind Subscriber.pattern

/-- An insertion registers a subscriber whose topic is accepted, a deletion unregisters it. -/
def registeredStep (subs : Heap Subscriber) (S : Finset Addr) : Op → Finset Addr
  | .add p => if (patternOf subs p).isSome then insert p S else S
  | .del p => S.erase p

/-- The registered subscribers after a run of calls. -/
def registeredAfter (subs : Heap Subscriber) (ops : List Op) : Finset Addr :=
  ops.foldl (registeredStep subs) ∅

/-- The state holds exactly the registered subscribers `S`, and the objects are as they were but
for their `node`. -/
structure Holds (subs : Heap Subscriber) (S : Finset Addr) (st : Store) (R : List Registration) :
    Prop where
  repr : Represents st R
  mem : ∀ p, p ∈ S ↔ p ∈ R.map (·.sub)
  objects : ∀ {p s}, subs.get p = some s → ∃ n, st.subs.get p = some { s with node := n }
  back : ∀ {p s}, st.subs.get p = some s → (subs.get p).isSome

namespace Holds

variable {subs : Heap Subscriber} {S : Finset Addr} {st : Store} {R : List Registration}

/-- A registration repeats the data of its object. -/
theorem registration (h : Holds subs S st R) {e : Registration} (he : e ∈ R) :
    ∃ s, subs.get e.sub = some s ∧ s.id = e.id ∧ s.pattern = some e.pattern := by
  obtain ⟨s', hget', hid, hpat, -⟩ := h.repr.live he
  obtain ⟨s, hget⟩ := Option.isSome_iff_exists.mp (h.back hget')
  obtain ⟨n, hn⟩ := h.objects hget
  obtain rfl : { s with node := n } = s' := Option.some.inj (hn.symm.trans hget')
  exact ⟨s, hget, hid, hpat⟩

theorem pattern_of (h : Holds subs S st R) {e : Registration} (he : e ∈ R) :
    patternOf subs e.sub = some e.pattern := by
  obtain ⟨s, hget, -, hpat⟩ := h.registration he
  simp [patternOf, hget, hpat]

/-- Setting the `node` of an object keeps the rest of it. -/
theorem objects_modify (h : Holds subs S st R) {p : Addr} {n : Option Addr}
    {st' : Store} (hsubs : st'.subs = st.subs.modify p fun s => { s with node := n }) :
    (∀ {p s}, subs.get p = some s → ∃ n, st'.subs.get p = some { s with node := n }) ∧
      ∀ {p s}, st'.subs.get p = some s → (subs.get p).isSome := by
  refine ⟨fun {q s} hq => ?_, fun {q s} hq => ?_⟩
  · obtain ⟨m, hm⟩ := h.objects hq
    rw [hsubs, Heap.get_modify]
    by_cases hqp : q = p
    · rw [← hqp, if_pos rfl, hm]
      exact ⟨n, rfl⟩
    · exact ⟨m, by rw [if_neg hqp, hm]⟩
  · rw [hsubs, Heap.get_modify] at hq
    split_ifs at hq with hqp
    · subst hqp
      obtain ⟨s', hs', -⟩ := Option.map_eq_some_iff.mp hq
      exact h.back hs'
    · exact h.back hq

end Holds

/-- One call on a live object is defined and does to the tree what `registeredStep` does to the
set. -/
theorem step_spec {subs : Heap Subscriber} (hobj : Objects subs) {S : Finset Addr} {st : Store}
    {R : List Registration} (h : Holds subs S st R) {op : Op} (hop : (subs.get op.sub).isSome) :
    ∃ st' R', step st op = some st' ∧ Holds subs (registeredStep subs S op) st' R' := by
  obtain ⟨s, hs⟩ := Option.isSome_iff_exists.mp hop
  obtain ⟨n, hget⟩ := h.objects hs
  cases op with
  | add p =>
      simp only [Op.sub] at hs hget
      cases hpat : s.pattern with
      | none =>
          have hrun := add_subscriber_invalid (fun _ => true) hget hpat
          refine ⟨st, R, by simp [step, hrun], ?_⟩
          simpa [registeredStep, patternOf, hs, hpat] using h
      | some pat =>
          have hstep : registeredStep subs S (.add p) = insert p S := by
            simp [registeredStep, patternOf, hs, hpat]
          rw [hstep]
          by_cases hp : p ∈ R.map (·.sub)
          · obtain ⟨e, he, rfl⟩ := List.mem_map.mp hp
            obtain ⟨st', hrun, hrepr, hsubs, -⟩ := add_subscriber_dup h.repr he
            obtain ⟨hobjects, hback⟩ := h.objects_modify hsubs
            refine ⟨st', R, by simp [step, hrun], hrepr, fun q => ?_, hobjects, hback⟩
            rw [Finset.insert_eq_of_mem ((h.mem _).mpr hp)]
            exact h.mem q
          · have hid : s.id ∉ R.map (·.id) := by
              intro hmem
              obtain ⟨e, he, hid⟩ := List.mem_map.mp hmem
              obtain ⟨t, ht, htid, -⟩ := h.registration he
              exact hp (hobj.distinct ht hs (htid.trans hid) ▸ List.mem_map_of_mem he)
            obtain ⟨st', hrun, hrepr, hsubs, -⟩ := add_subscriber_ok h.repr hget hp hid hpat
            obtain ⟨hobjects, hback⟩ := h.objects_modify hsubs
            refine ⟨st', _, by simp [step, hrun], hrepr, fun q => ?_, hobjects, hback⟩
            simp [h.mem, or_comm]
  | del p =>
      simp only [Op.sub] at hs hget
      by_cases hp : p ∈ R.map (·.sub)
      · obtain ⟨e, he, rfl⟩ := List.mem_map.mp hp
        obtain ⟨st', hrun, hrepr, hsubs, -⟩ := del_subscriber_registered h.repr he
        obtain ⟨hobjects, hback⟩ := h.objects_modify hsubs
        refine ⟨st', _, by simp [step, hrun], hrepr, fun q => ?_, hobjects, hback⟩
        simp only [registeredStep, Finset.mem_erase, h.mem, List.mem_map, List.mem_filter,
          decide_eq_true_eq]
        constructor
        · rintro ⟨hq, e', he', rfl⟩
          exact ⟨e', ⟨he', hq⟩, rfl⟩
        · rintro ⟨e', ⟨he', hq⟩, rfl⟩
          exact ⟨hq, e', he', rfl⟩
      · have hrun := del_subscriber_unregistered h.repr hget hp
        refine ⟨st, R, by simp [step, hrun], h.repr, fun q => ?_, h.objects, h.back⟩
        rw [registeredStep, Finset.erase_eq_of_notMem (fun hmem => hp ((h.mem p).mp hmem))]
        exact h.mem q

/-- Every run of calls on live objects is defined and ends with the registered set in the tree. -/
theorem run_spec {subs : Heap Subscriber} (hobj : Objects subs) {ops : List Op}
    (hops : ∀ op ∈ ops, (subs.get op.sub).isSome) :
    ∃ st R, run ops ⟨initTree, subs⟩ = some st ∧ Holds subs (registeredAfter subs ops) st R := by
  have hgen : ∀ (ops : List Op) (S : Finset Addr) (st : Store) (R : List Registration),
      Holds subs S st R → (∀ op ∈ ops, (subs.get op.sub).isSome) →
      ∃ st' R', run ops st = some st' ∧ Holds subs (ops.foldl (registeredStep subs) S) st' R' := by
    intro ops
    induction ops with
    | nil => exact fun S st R h _ => ⟨st, R, rfl, h⟩
    | cons op ops ih =>
        intro S st R h hops
        obtain ⟨st₁, R₁, hstep, h₁⟩ := step_spec hobj h (hops op (by simp))
        obtain ⟨st₂, R₂, hrun, h₂⟩ := ih _ st₁ R₁ h₁ fun op' hop' => hops op' (by simp [hop'])
        exact ⟨st₂, R₂, by simp [run, hstep, hrun], h₂⟩
  refine hgen ops ∅ ⟨initTree, subs⟩ [] ⟨represents_init hobj.unlinked, by simp, ?_, ?_⟩ hops
  · intro p s hp
    refine ⟨none, ?_⟩
    rw [← hobj.unlinked hp]
    exact hp
  · intro p s hp
    simp [show subs.get p = some s from hp]

/-- The subscribers registered at the end of a run that a publish to these levels concerns. -/
def Concerned (subs : Heap Subscriber) (ops : List Op) (ts : List CStr) (p : Addr) : Prop :=
  p ∈ registeredAfter subs ops ∧ ∃ pat, patternOf subs p = some pat ∧ Accepts pat ts

/-- After any run, the lookup for an accepted topic returns a copy of every registered subscriber
whose pattern matches the topic, once, and no other. -/
theorem find_subscribers_after_run {subs : Heap Subscriber} (hobj : Objects subs) (ops : List Op)
    (hops : ∀ op ∈ ops, (subs.get op.sub).isSome) {topic : CStr} {ts : List CStr}
    (hts : levels topic = some ts) :
    ∃ st found, run ops ⟨initTree, subs⟩ = some st ∧
      treeFindSubscribers st topic = some (some found) ∧ (found.map (·.id)).Nodup ∧
      (∀ c ∈ found, ∃ p, Concerned subs ops ts p ∧ st.subs.get p = some c) ∧
      ∀ p s, Concerned subs ops ts p → subs.get p = some s →
        ∃ c ∈ found, c = { s with node := c.node } := by
  obtain ⟨st, R, hrun, h⟩ := run_spec hobj hops
  have hids : ∀ e ∈ lookup R ts, (st.sub e.sub).id = e.id := by
    intro e he
    obtain ⟨s, hget, hid, -⟩ := h.repr.live (mem_lookup.mp he).1
    simpa [Store.sub, hget] using hid
  refine ⟨st, (lookup R ts).map fun e => st.sub e.sub, hrun, ?_, ?_, ?_, ?_⟩
  · simp [treeFindSubscribers, hts, find_subscribers_spec h.repr]
  · have hmap : ((lookup R ts).map fun e => st.sub e.sub).map (·.id) =
        (lookup R ts).map (·.id) := by
      rw [List.map_map]
      exact List.map_congr_left hids
    rw [hmap]
    refine (List.nodup_map_iff_inj_on (nodup_lookup h.repr.ids.of_map ts)).mpr ?_
    exact fun e he e' he' => h.repr.eq_of_id (mem_lookup.mp he).1 (mem_lookup.mp he').1
  · intro c hc
    obtain ⟨e, he, rfl⟩ := List.mem_map.mp hc
    obtain ⟨heR, hacc⟩ := mem_lookup.mp he
    exact ⟨e.sub, ⟨(h.mem _).mpr (List.mem_map_of_mem heR), e.pattern, h.pattern_of heR, hacc⟩,
      h.repr.get_sub heR⟩
  · rintro p s ⟨hp, pat, hpat, hacc⟩ hs
    obtain ⟨e, he, rfl⟩ := List.mem_map.mp ((h.mem p).mp hp)
    obtain rfl : e.pattern = pat := Option.some.inj ((h.pattern_of he).symm.trans hpat)
    obtain ⟨n, hn⟩ := h.objects hs
    refine ⟨st.sub e.sub, List.mem_map_of_mem (mem_lookup.mpr ⟨he, hacc⟩), ?_⟩
    simp [Store.sub, hn]

/-- A subscriber with a literal topic. -/
def literalSub : Subscriber :=
  ⟨.ofString "AAAAAt/a/b", .ofString "AAAAA", .ofString "t", 0, none⟩

/-- A subscriber of another client, with a wildcard topic. -/
def wildcardSub : Subscriber :=
  ⟨.ofString "BBBBBt/a/+", .ofString "BBBBB", .ofString "t", 1, none⟩

/-- The two subscribers, at addresses 0 and 1. -/
def twoSubs : Heap Subscriber := ((Heap.empty.alloc literalSub).1.alloc wildcardSub).1

theorem two_subs_cases {p : Addr} {s : Subscriber} (h : twoSubs.get p = some s) :
    p = 0 ∧ s = literalSub ∨ p = 1 ∧ s = wildcardSub := by
  have hget : twoSubs.get p =
      if p = 1 then some wildcardSub else if p = 0 then some literalSub else none := rfl
  rw [hget] at h
  split_ifs at h with h1 h0
  · exact Or.inr ⟨h1, (Option.some.inj h).symm⟩
  · exact Or.inl ⟨h0, (Option.some.inj h).symm⟩

theorem two_subs_objects : Objects twoSubs := by
  have hid : literalSub.id ≠ wildcardSub.id := by decide
  refine ⟨fun {p q s t} hp hq hst => ?_, fun {p s} hp => ?_⟩
  · rcases two_subs_cases hp with ⟨rfl, rfl⟩ | ⟨rfl, rfl⟩ <;>
      rcases two_subs_cases hq with ⟨rfl, rfl⟩ | ⟨rfl, rfl⟩
    · rfl
    · exact absurd hst hid
    · exact absurd hst.symm hid
    · rfl
  · rcases two_subs_cases hp with ⟨-, rfl⟩ | ⟨-, rfl⟩ <;> rfl

/-- Both subscribers are registered and both patterns match. -/
theorem find_subscribers_after_two : ∃ st found,
    run [.add 0, .add 1] ⟨initTree, twoSubs⟩ = some st ∧
      treeFindSubscribers st (.ofString "a/b") = some (some found) ∧
      (found.map (·.id)).Nodup ∧ ∀ p ∈ [0, 1], ∃ c ∈ found, ∃ s, twoSubs.get p = some s ∧
        c = { s with node := c.node } := by
  have hlevels : levels (.ofString "a/b") = some [.ofString "a", .ofString "b"] := by decide
  obtain ⟨st, found, hrun, hfind, hnodup, -, hall⟩ := find_subscribers_after_run
    two_subs_objects [.add 0, .add 1] (by decide) hlevels
  refine ⟨st, found, hrun, hfind, hnodup, fun p hp => ?_⟩
  have hmem : ∀ p ∈ [0, 1], p ∈ registeredAfter twoSubs [.add 0, .add 1] := by decide
  have hacc : ∀ p ∈ [0, 1], ∃ pat, patternOf twoSubs p = some pat ∧
      Accepts pat [.ofString "a", .ofString "b"] := by
    intro p hp
    fin_cases hp
    · exact ⟨[.exact (.ofString "a"), .exact (.ofString "b")], by decide, by decide⟩
    · exact ⟨[.exact (.ofString "a"), .single], by decide, by decide⟩
  obtain ⟨s, hs⟩ : ∃ s, twoSubs.get p = some s := by fin_cases hp <;> exact ⟨_, rfl⟩
  obtain ⟨c, hc, heq⟩ := hall p s ⟨hmem p hp, hacc p hp⟩ hs
  exact ⟨c, hc, s, hs, heq⟩

/-- The tree consists of the prefixes of the registered patterns, its pointers agree with the
paths, and the `node` of each object says where it is registered. -/
structure Tidy (subs : Heap Subscriber) (S : Finset Addr) (st : Store) : Prop where
  paths : ∀ q, (nodeAt st.tree q).isSome ↔
    q = [] ∨ ∃ p ∈ S, ∃ pat, patternOf subs p = some pat ∧ q <+: pat
  reachable : ∀ {a node}, st.tree.get a = some node → ∃ q, nodeAt st.tree q = some a
  parents : ∀ {q l a}, nodeAt st.tree (q ++ [l]) = some a →
    ∃ node, st.tree.get a = some node ∧ node.parent = nodeAt st.tree q
  nonempty : ∀ {q a node}, q ≠ [] → nodeAt st.tree q = some a → st.tree.get a = some node →
    nodeIsEmpty node = false
  registered : ∀ {p}, p ∈ S → ∃ pat a s, patternOf subs p = some pat ∧
    nodeAt st.tree pat = some a ∧ st.subs.get p = some s ∧ s.node = some a
  unregistered : ∀ {p s}, p ∉ S → st.subs.get p = some s → s.node = none

/-- Two trees have nodes at the same paths, with the same subscribers up to order. -/
structure SameTree (tree tree' : Heap Node) : Prop where
  paths : ∀ q, (nodeAt tree q).isSome ↔ (nodeAt tree' q).isSome
  subs : ∀ {q a a' node node'}, nodeAt tree q = some a → tree.get a = some node →
    nodeAt tree' q = some a' → tree'.get a' = some node' → node.subs.Perm node'.subs

theorem Holds.tidy {subs : Heap Subscriber} {S : Finset Addr} {st : Store} {R : List Registration}
    (h : Holds subs S st R) : Tidy subs S st where
  paths q := by
    rw [h.repr.paths]
    refine or_congr_right ⟨?_, ?_⟩
    · rintro ⟨e, he, hq⟩
      exact ⟨e.sub, (h.mem _).mpr (List.mem_map_of_mem he), e.pattern, h.pattern_of he, hq⟩
    · rintro ⟨p, hp, pat, hpat, hq⟩
      obtain ⟨e, he, rfl⟩ := List.mem_map.mp ((h.mem p).mp hp)
      obtain rfl : e.pattern = pat := Option.some.inj ((h.pattern_of he).symm.trans hpat)
      exact ⟨e, he, hq⟩
  reachable := h.repr.tree.shape.reach
  parents := h.repr.tree.shape.parent_concat
  nonempty {q a node} hq ha hget := by
    rw [← Bool.not_eq_true, h.repr.tree.is_empty_iff ha hget]
    rintro ⟨hcontent, hbelow⟩
    have hin := (h.repr.paths q).mp (by simp [ha])
    obtain ⟨e, he, s, hs⟩ := hin.resolve_left hq
    cases s with
    | nil => exact content_ne_nil_iff.mpr ⟨e, he, by simpa using hs.symm⟩ hcontent
    | cons l s =>
        have hnode : (nodeAt st.tree (q ++ [l])).isSome :=
          (h.repr.paths _).mpr (Or.inr ⟨e, he, s, by simpa using hs⟩)
        simp [hbelow l] at hnode
  registered {p} hp := by
    obtain ⟨e, he, rfl⟩ := List.mem_map.mp ((h.mem p).mp hp)
    obtain ⟨s, hget, -, -, hnode⟩ := h.repr.live he
    have hin := (h.repr.paths e.pattern).mpr (Or.inr ⟨e, he, List.prefix_refl _⟩)
    obtain ⟨a, ha⟩ := Option.isSome_iff_exists.mp hin
    exact ⟨e.pattern, a, s, h.pattern_of he, ha, hget, hnode.trans ha⟩
  unregistered hp hs := h.repr.unregistered hs fun hmem => hp ((h.mem _).mpr hmem)

/-- States that hold the same set have the same tree. -/
theorem Holds.same_tree {subs : Heap Subscriber} {S : Finset Addr} {st st' : Store}
    {R R' : List Registration} (h : Holds subs S st R) (h' : Holds subs S st' R') :
    SameTree st.tree st'.tree where
  paths q := by rw [h.tidy.paths, h'.tidy.paths]
  subs {q a a' node node'} ha hget ha' hget' := by
    have hmem : ∀ {S : Finset Addr} {st st' : Store} {R R' : List Registration},
        Holds subs S st R → Holds subs S st' R' → ∀ e ∈ R, e ∈ R' := by
      intro S st st' R R' h h' e he
      have hsub := (h'.mem e.sub).mp ((h.mem _).mpr (List.mem_map_of_mem he))
      obtain ⟨e', he', heq⟩ := List.mem_map.mp hsub
      obtain ⟨s, hs, hid, hpat⟩ := h.registration he
      obtain ⟨s', hs', hid', hpat'⟩ := h'.registration he'
      rw [heq] at hs'
      obtain rfl : s = s' := Option.some.inj (hs.symm.trans hs')
      have : e' = e := by
        cases e
        cases e'
        simp_all
      exact this ▸ he'
    have hperm : R.Perm R' := (List.perm_ext_iff_of_nodup h.repr.nodup.of_map
      h'.repr.nodup.of_map).mpr fun e => ⟨hmem h h' e, hmem h' h e⟩
    rw [h.repr.tree.subs ha hget, h'.repr.tree.subs ha' hget']
    exact (hperm.filter _).map _

/-- After any run the tree is tidy, and any other run with the same registered subscribers leads to
the same tree. -/
theorem tree_after_run {subs : Heap Subscriber} (hobj : Objects subs) (ops : List Op)
    (hops : ∀ op ∈ ops, (subs.get op.sub).isSome) :
    ∃ st, run ops ⟨initTree, subs⟩ = some st ∧ Tidy subs (registeredAfter subs ops) st ∧
      ∀ ops', (∀ op ∈ ops', (subs.get op.sub).isSome) →
        registeredAfter subs ops' = registeredAfter subs ops →
        ∃ st', run ops' ⟨initTree, subs⟩ = some st' ∧ SameTree st.tree st'.tree := by
  obtain ⟨st, R, hrun, h⟩ := run_spec hobj hops
  refine ⟨st, hrun, h.tidy, fun ops' hops' hsame => ?_⟩
  obtain ⟨st', R', hrun', h'⟩ := run_spec hobj hops'
  exact ⟨st', hrun', h.same_tree (hsame ▸ h')⟩

/-- Inserting and deleting one subscriber leaves the tree that inserting the other one makes. -/
theorem tree_after_detour : ∃ st st', run [.add 1] ⟨initTree, twoSubs⟩ = some st ∧
    run [.add 0, .add 1, .del 0] ⟨initTree, twoSubs⟩ = some st' ∧ SameTree st.tree st'.tree := by
  obtain ⟨st, hrun, -, hother⟩ := tree_after_run two_subs_objects [.add 1] (by decide)
  obtain ⟨st', hrun', hsame⟩ := hother [.add 0, .add 1, .del 0] (by decide) (by decide)
  exact ⟨st, st', hrun, hrun', hsame⟩

end Bpsp.Topic
