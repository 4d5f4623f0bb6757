import Bpsp.Topic.Shape

/-!
# Refinement of the registry by the topic tree

The abstract registry is a list of registrations: a subscriber object with its `_id` and the
pattern of its topic. `Represents st R` relates the heaps of the topic tree to a registry `R`; the
tree then consists of the prefixes of the registered patterns and nothing else. Adding and
deleting a subscriber are adding and deleting a registration (`add_subscriber_ok`,
`del_subscriber_registered`), and the lookup returns the registrations whose pattern accepts the
published levels (`find_subscribers_spec`).
-/

namespace Bpsp.Topic

open CLib Wildcard

/-- The pattern of a subscriber's topic, when the topic is accepted. -/
def Subscriber.pattern (sub : Subscriber) : Option Path :=
  (levels sub.getTopic).map fun toks => toks.map levelOf

/-- One entry of the registry. -/
structure Registration where
  sub : Addr
  id : CStr
  pattern : Path

/-- The subscriber table that belongs at a path. -/
def content (R : List Registration) (q : Path) : HashTable CStr Addr :=
  (R.filter fun e => e.pattern = q).map fun e => (e.id, e.sub)

/-- The registrations that a publish to these levels reaches, in the order of the search. -/
def lookup (R : List Registration) (ts : List CStr) : List Registration :=
  collect (fun q => R.filter fun e => e.pattern = q) [] ts

/-- The heaps hold the registry `R`. -/
structure Represents (st : Store) (R : List Registration) : Prop where
  nodup : (R.map (·.sub)).Nodup
  ids : (R.map (·.id)).Nodup
  live : ∀ {e}, e ∈ R → ∃ s, st.subs.get e.sub = some s ∧ s.id = e.id ∧
    s.pattern = some e.pattern ∧ s.node = nodeAt st.tree e.pattern
  unregistered : ∀ {p s}, st.subs.get p = some s → p ∉ R.map (·.sub) → s.node = none
  tree : TreeAt st.tree (nodeAt st.tree) (content R)
  paths : ∀ r, (nodeAt st.tree r).isSome ↔ r = [] ∨ ∃ e ∈ R, r <+: e.pattern

theorem content_append (R : List Registration) (e : Registration) :
    content (R ++ [e]) =
      Function.update (content R) e.pattern ((content R e.pattern).add e.id e.sub) := by
  funext q
  by_cases hq : q = e.pattern
  · subst hq
    simp [content, HashTable.add]
  · have hq' : e.pattern ≠ q := fun h => hq h.symm
    simp [content, Function.update_of_ne hq, hq']

theorem content_keys_sublist (R : List Registration) (q : Path) :
    (content R q).keys.Sublist (R.map (·.id)) := by
  simp only [content, HashTable.keys, List.map_map]
  exact List.filter_sublist.map _

theorem content_ne_nil_iff {R : List Registration} {q : Path} :
    content R q ≠ [] ↔ ∃ e ∈ R, e.pattern = q := by
  simp [content, List.filter_eq_nil_iff]

/-- Two registrations of one object are the same. -/
theorem Represents.eq_of_sub {st : Store} {R : List Registration} (h : Represents st R)
    {e e' : Registration} (he : e ∈ R) (he' : e' ∈ R) (hsub : e.sub = e'.sub) : e = e' :=
  List.inj_on_of_nodup_map h.nodup he he' hsub

/-- Two registrations under one `_id` are the same. -/
theorem Represents.eq_of_id {st : Store} {R : List Registration} (h : Represents st R)
    {e e' : Registration} (he : e ∈ R) (he' : e' ∈ R) (hid : e.id = e'.id) : e = e' :=
  List.inj_on_of_nodup_map h.ids he he' hid

theorem Represents.get_sub {st : Store} {R : List Registration} (h : Represents st R)
    {e : Registration} (he : e ∈ R) : st.subs.get e.sub = some (st.sub e.sub) := by
  obtain ⟨s, hget, -⟩ := h.live he
  simp [Store.sub, hget]

theorem content_filter {st : Store} {R : List Registration} (h : Represents st R)
    {e : Registration} (he : e ∈ R) :
    content (R.filter fun e' => e'.sub ≠ e.sub) =
      Function.update (content R) e.pattern ((content R e.pattern).del e.id) := by
  funext q
  have hkeep : ∀ e' ∈ R, e'.sub ≠ e.sub ↔ e' ≠ e := fun e' he' =>
    not_congr ⟨h.eq_of_sub he' he, fun heq => heq ▸ rfl⟩
  by_cases hq : q = e.pattern
  · subst hq
    rw [Function.update_self, HashTable.del_eq_filter (h.ids.sublist (content_keys_sublist R _))]
    simp only [content, List.filter_map, List.filter_filter]
    congr 1
    refine List.filter_congr fun e' he' => ?_
    have hid : e'.id ≠ e.id ↔ e'.sub ≠ e.sub := by
      rw [hkeep e' he']
      exact not_congr ⟨h.eq_of_id he' he, fun heq => heq ▸ rfl⟩
    by_cases hsub : e'.sub = e.sub
    · simp [hsub, not_ne_iff.mp (mt hid.mp (not_not.mpr hsub))]
    · simp [hsub, hid.mpr hsub]
  · rw [Function.update_of_ne hq]
    simp only [content, List.filter_filter]
    congr 1
    refine List.filter_congr fun e' he' => ?_
    by_cases hp : e'.pattern = q
    · have hne : e' ≠ e := fun heq => hq (heq ▸ hp.symm)
      simp [hp, (hkeep e' he').mpr hne]
    · simp [hp]

/-- The empty tree holds the empty registry, whatever unregistered objects there are. -/
theorem represents_init {subs : Heap Subscriber}
    (h : ∀ {p s}, subs.get p = some s → s.node = none) : Represents ⟨initTree, subs⟩ [] := by
  have hget : ∀ a, initTree.get a = if a = root then some initNode else none := fun a => rfl
  have hchild : ∀ l, links.child initNode l = none := by
    intro l
    cases l <;> rfl
  have hnode : ∀ q, nodeAt initTree q = if q = [] then some root else none := by
    intro q
    cases q with
    | nil => rfl
    | cons l q => simp [nodeAt, Links.walk, hget, hchild]
  refine ⟨by simp, by simp, by simp, fun hp _ => h hp, ⟨⟨hnode [], ?_, ?_, ?_, ?_⟩, ?_, ?_, ?_⟩, ?_⟩
  · intro q a ha
    rw [hnode] at ha
    split_ifs at ha with hq
    obtain rfl := Option.some.inj ha
    exact ⟨initNode, rfl, fun l => by rw [hchild, hnode]; simp, by simp [parentAt, hq, links, initNode]⟩
  · intro q l a ha
    simp [hnode] at ha
  · intro q q' a ha ha'
    rw [hnode] at ha ha'
    split_ifs at ha ha' with hq hq'
    rw [hq, hq']
  · intro a nd ha
    rw [hget] at ha
    split_ifs at ha with hroot
    exact ⟨[], by rw [hnode, hroot]; rfl⟩
  · intro q a nd ha hgetA
    rw [hget] at hgetA
    split_ifs at hgetA
    rw [← Option.some.inj hgetA]
    rfl
  · intro q _
    rfl
  · intro a nd ha
    rw [hget] at ha
    split_ifs at ha
    rw [← Option.some.inj ha]
    exact List.nodup_nil
  · intro r
    rw [hnode]
    by_cases hr : r = [] <;> simp [hr]

/-- Subscriber objects outside the registry may come and go. -/
theorem represents_subs {st : Store} {R : List Registration} (h : Represents st R)
    {subs' : Heap Subscriber} (hlive : ∀ e ∈ R, subs'.get e.sub = st.subs.get e.sub)
    (hnew : ∀ p s, subs'.get p = some s → p ∉ R.map (·.sub) → s.node = none) :
    Represents { st with subs := subs' } R := by
  refine ⟨h.nodup, h.ids, fun {e} he => ?_, fun {p s} hp hnot => hnew p s hp hnot, h.tree, h.paths⟩
  obtain ⟨s, hget, hrest⟩ := h.live he
  exact ⟨s, (hlive e he).trans hget, hrest⟩

/-- An insertion with an accepted topic walks to the node at the end of the pattern, creating what
is missing on the way, and then adds the subscriber there. -/
theorem add_subscriber_walk {st : Store} {R : List Registration} {p : Addr} {s : Subscriber}
    {pat : Path} (h : Represents st R) (hget : st.subs.get p = some s)
    (hpat : s.pattern = some pat) :
    ∃ tree' b, addSubscriber (fun _ => true) st p = nodeAddSub true { st with tree := tree' } b p ∧
      TreeAt tree' (nodeAt tree') (content R) ∧ nodeAt tree' pat = some b ∧
      (∀ {q a}, nodeAt st.tree q = some a → nodeAt tree' q = some a) ∧
      ∀ r, (nodeAt tree' r).isSome ↔ r = [] ∨ (∃ e ∈ R, r <+: e.pattern) ∨ r <+: pat := by
  simp only [Subscriber.pattern, Option.map_eq_some_iff] at hpat
  obtain ⟨toks, hlevels, rfl⟩ := hpat
  obtain ⟨hne, hstar⟩ := levels_spec hlevels
  obtain ⟨tree', A', b, hrun, htree, hb, hkeep, hsome⟩ :=
    add_loop_spec (p := p) h.tree h.tree.shape.root_eq hne hstar
  obtain rfl : nodeAt tree' = A' := htree.node_at
  refine ⟨tree', b, ?_, htree, hb, hkeep, fun r => ?_⟩
  · simpa [addSubscriber, hget, hlevels] using hrun
  · rw [hsome, h.paths, or_assoc]
    simp only [List.nil_append]
    constructor
    · rintro (hr | hr | ⟨q, -, hpre, rfl⟩)
      · exact Or.inl hr
      · exact Or.inr (Or.inl hr)
      · exact Or.inr (Or.inr hpre)
    · rintro (hr | hr | hpre)
      · exact Or.inl hr
      · exact Or.inr (Or.inl hr)
      · by_cases hr : r = []
        · exact Or.inl hr
        · exact Or.inr (Or.inr ⟨r, hr, hpre, rfl⟩)

/-- Adding an unregistered subscriber with an accepted topic registers it. No node moves. -/
theorem add_subscriber_ok {st : Store} {R : List Registration} {p : Addr} {s : Subscriber}
    {pat : Path} (h : Represents st R) (hget : st.subs.get p = some s)
    (hp : p ∉ R.map (·.sub)) (hid : s.id ∉ R.map (·.id)) (hpat : s.pattern = some pat) :
    ∃ st', addSubscriber (fun _ => true) st p = some (.ok, st') ∧
      Represents st' (R ++ [⟨p, s.id, pat⟩]) ∧
      st'.subs = st.subs.modify p (fun s => { s with node := nodeAt st'.tree pat }) ∧
      ∀ {q a}, nodeAt st.tree q = some a → nodeAt st'.tree q = some a := by
  obtain ⟨tree', b, hrun, htree, hb, hkeep, hsome⟩ := add_subscriber_walk h hget hpat
  obtain ⟨node, hnode, -, -⟩ := htree.shape.node hb
  have hfind : node.subs.find s.id ≠ some p := by
    intro hmem
    rw [htree.subs hb hnode] at hmem
    have := HashTable.mem_keys_of_mem (HashTable.mem_of_find hmem)
    exact hid ((content_keys_sublist R pat).subset this)
  have hset := set_subs_spec htree hb (fun t => t.add s.id p)
  have hnodes : nodeAt (tree'.modify b fun n => { n with subs := n.subs.add s.id p }) =
      nodeAt tree' := hset.node_at
  refine ⟨⟨tree'.modify b fun n => { n with subs := n.subs.add s.id p },
    st.subs.modify p fun s => { s with node := some b }⟩, ?_, ?_, by simp only [hnodes, hb],
    fun hq => by rw [hnodes]; exact hkeep hq⟩
  · rw [hrun]
    simp [nodeAddSub, hnode, hget, hfind]
  · refine ⟨?_, ?_, ?_, ?_, ?_, ?_⟩
    · simpa [List.nodup_append, h.nodup] using hp
    · simpa [List.nodup_append, h.ids] using hid
    · intro e he
      rcases List.mem_append.mp he with he | he
      · obtain ⟨s', hget', hid', hpat', hnode'⟩ := h.live he
        have hne : e.sub ≠ p := fun heq => hp (heq ▸ List.mem_map_of_mem he)
        have hin : (nodeAt st.tree e.pattern).isSome :=
          (h.paths _).mpr (Or.inr ⟨e, he, List.prefix_refl _⟩)
        obtain ⟨a, ha⟩ := Option.isSome_iff_exists.mp hin
        refine ⟨s', by simp [Heap.get_modify, hne, hget'], hid', hpat', ?_⟩
        rw [hnodes, hnode', ha, hkeep ha]
      · obtain rfl := List.mem_singleton.mp he
        exact ⟨{ s with node := some b }, by simp [Heap.get_modify, hget], rfl, hpat,
          by rw [hnodes, hb]⟩
    · intro p' s' hget' hp'
      have hne : p' ≠ p := fun heq => hp' (by simp [heq])
      rw [Heap.get_modify, if_neg hne] at hget'
      exact h.unregistered hget' fun hmem => hp' (by simp [hmem])
    · rw [hnodes, content_append]
      exact hset
    · intro r
      rw [hnodes, hsome]
      simp only [List.mem_append, List.mem_singleton]
      constructor
      · rintro (hr | ⟨e, he, hr⟩ | hr)
        · exact Or.inl hr
        · exact Or.inr ⟨e, Or.inl he, hr⟩
        · exact Or.inr ⟨_, Or.inr rfl, hr⟩
      · rintro (hr | ⟨e, he | rfl, hr⟩)
        · exact Or.inl hr
        · exact Or.inr (Or.inl ⟨e, he, hr⟩)
        · exact Or.inr (Or.inr hr)

/-- Adding a registered subscriber again is refused and leaves the registry alone. -/
theorem add_subscriber_dup {st : Store} {R : List Registration} {e : Registration}
    (h : Represents st R) (he : e ∈ R) :
    ∃ st', addSubscriber (fun _ => true) st e.sub = some (.treeDupSubscriber, st') ∧
      Represents st' R ∧
      st'.subs = st.subs.modify e.sub (fun s => { s with node := nodeAt st'.tree e.pattern }) ∧
      nodeAt st'.tree = nodeAt st.tree := by
  obtain ⟨s, hget, hid, hpat, hnodeS⟩ := h.live he
  obtain ⟨tree', b, hrun, htree, hb, hkeep, hsome⟩ := add_subscriber_walk h hget hpat
  obtain ⟨node, hnode, -, -⟩ := htree.shape.node hb
  have hfind : node.subs.find s.id = some e.sub := by
    rw [htree.subs hb hnode, HashTable.find_eq_some_iff (h.ids.sublist (content_keys_sublist R _))]
    simp only [content, List.mem_map, List.mem_filter, decide_eq_true_eq]
    exact ⟨e, ⟨he, rfl⟩, by rw [hid]⟩
  -- all nodes on the way were there, so the walk created none
  have hsame : nodeAt tree' = nodeAt st.tree := by
    funext r
    cases hr : nodeAt st.tree r with
    | some a => exact hkeep hr
    | none =>
        by_contra hne
        have hin := h.paths r
        rw [hr] at hin
        rcases (hsome r).mp (Option.isSome_iff_ne_none.mpr hne) with h0 | hR | hpre
        · simp [h0] at hin
        · exact absurd (hin.mpr (Or.inr hR)) (by simp)
        · exact absurd (hin.mpr (Or.inr ⟨e, he, hpre⟩)) (by simp)
  have hb' : nodeAt st.tree e.pattern = some b := hsame ▸ hb
  refine ⟨⟨tree', st.subs.modify e.sub fun s => { s with node := some b }⟩, ?_, ?_,
    by simp only [hb], hsame⟩
  · rw [hrun]
    simp [nodeAddSub, hnode, hget, hfind]
  · refine ⟨h.nodup, h.ids, ?_, ?_, htree, fun r => by rw [hsame]; exact h.paths r⟩
    · intro e' he'
      obtain ⟨s', hget', hid', hpat', hnode'⟩ := h.live he'
      by_cases heq : e'.sub = e.sub
      · obtain rfl := h.eq_of_sub he' he heq
        exact ⟨{ s' with node := some b }, by simp [Heap.get_modify, hget'], hid', hpat',
          by rw [hsame, hb']⟩
      · exact ⟨s', by simp [Heap.get_modify, heq, hget'], hid', hpat', by rw [hsame, hnode']⟩
    · intro p' s' hget' hp'
      have hne : p' ≠ e.sub := fun heq => hp' (heq ▸ List.mem_map_of_mem he)
      rw [Heap.get_modify, if_neg hne] at hget'
      exact h.unregistered hget' hp'

/-- A topic that is not accepted is refused before anything is changed. -/
theorem add_subscriber_invalid {st : Store} {p : Addr} {s : Subscriber} (mem : Nat → Bool)
    (hget : st.subs.get p = some s) (hpat : s.pattern = none) :
    addSubscriber mem st p = some (.invalidTopic, st) := by
  have hlevels : levels s.getTopic = none := by simpa [Subscriber.pattern] using hpat
  simp [addSubscriber, hget, hlevels]

/-- Deleting a registered subscriber removes its registration, prunes what only it needed, and
moves no other node. -/
theorem del_subscriber_registered {st : Store} {R : List Registration} {e : Registration}
    (h : Represents st R) (he : e ∈ R) :
    ∃ st', delSubscriber st e.sub = some (.ok, st') ∧
      Represents st' (R.filter fun e' => e'.sub ≠ e.sub) ∧
      st'.subs = st.subs.modify e.sub (fun s => { s with node := none }) ∧
      ∀ {q a}, nodeAt st'.tree q = some a → nodeAt st.tree q = some a := by
  obtain ⟨s, hget, hid, hpat, hnodeS⟩ := h.live he
  simp only [Subscriber.pattern, Option.map_eq_some_iff] at hpat
  obtain ⟨toks, hlevels, hpat⟩ := hpat
  have hin : (nodeAt st.tree e.pattern).isSome :=
    (h.paths _).mpr (Or.inr ⟨e, he, List.prefix_refl _⟩)
  obtain ⟨a, ha⟩ := Option.isSome_iff_exists.mp hin
  obtain ⟨node, hnode, -, -⟩ := h.tree.shape.node ha
  have hfind : node.subs.find s.id = some e.sub := by
    rw [h.tree.subs ha hnode, HashTable.find_eq_some_iff (h.ids.sublist (content_keys_sublist R _))]
    simp only [content, List.mem_map, List.mem_filter, decide_eq_true_eq]
    exact ⟨e, ⟨he, rfl⟩, by rw [hid]⟩
  have hset := set_subs_spec h.tree ha (fun t => t.del s.id)
  rw [hid, ← content_filter h he] at hset
  -- what remains needed are the prefixes of the other patterns
  obtain ⟨tree', A', hrun, htree, hback, hsome⟩ := prune_loop_spec
    (K := fun r => ∃ e' ∈ R.filter fun x : Registration => x.sub ≠ e.sub, r <+: e'.pattern)
    hset (by rw [hpat]; exact ha)
    (fun r => by
      rw [h.paths, hpat]
      constructor
      · rintro (hr | ⟨e', he', hr⟩)
        · exact Or.inl hr
        · by_cases heq : e'.sub = e.sub
          · exact Or.inr (Or.inl (h.eq_of_sub he' he heq ▸ hr))
          · exact Or.inr (Or.inr ⟨e', by simp [he', heq], hr⟩)
      · rintro (hr | hr | ⟨e', he', hr⟩)
        · exact Or.inl hr
        · exact Or.inr ⟨e, he, hr⟩
        · exact Or.inr ⟨e', (List.mem_filter.mp he').1, hr⟩)
    (fun {r r'} ⟨e', he', hr'⟩ hpre => ⟨e', he', hpre.trans hr'⟩)
    (fun hc => by
      obtain ⟨e', he', rfl⟩ := content_ne_nil_iff.mp hc
      exact ⟨e', he', List.prefix_refl _⟩)
    (fun {r} ⟨e', he', hr⟩ => ⟨e'.pattern, hr, content_ne_nil_iff.mpr ⟨e', he', rfl⟩⟩)
  obtain rfl : nodeAt tree' = A' := htree.node_at
  refine ⟨⟨tree', st.subs.modify e.sub fun s => { s with node := none }⟩, ?_, ?_, rfl, hback⟩
  · rw [ha] at hnodeS
    rw [hid] at hfind
    simp [delSubscriber, hget, hnodeS, hlevels, hnode, hfind, treePruneNode, hid, hrun]
  · refine ⟨h.nodup.sublist (List.filter_sublist.map _), h.ids.sublist (List.filter_sublist.map _),
      ?_, ?_, htree, hsome⟩
    · intro e' he'
      obtain ⟨hmem, hne⟩ : e' ∈ R ∧ e'.sub ≠ e.sub := by simpa using he'
      obtain ⟨s', hget', hid', hpat', hnode'⟩ := h.live hmem
      refine ⟨s', by simp [Heap.get_modify, hne, hget'], hid', hpat', ?_⟩
      have hin' : (nodeAt tree' e'.pattern).isSome :=
        (hsome _).mpr (Or.inr ⟨e', he', List.prefix_refl _⟩)
      obtain ⟨a', ha'⟩ := Option.isSome_iff_exists.mp hin'
      rw [hnode', ha', hback ha']
    · intro p s' hget' hp
      rw [Heap.get_modify] at hget'
      split_ifs at hget' with heq
      · rw [hget, Option.map_some, Option.some.injEq] at hget'
        rw [← hget']
      · refine h.unregistered hget' fun hmem => hp ?_
        obtain ⟨e', he', rfl⟩ := List.mem_map.mp hmem
        exact List.mem_map_of_mem (by simp [he', heq])

/-- Deleting a subscriber that is not registered does nothing. -/
theorem del_subscriber_unregistered {st : Store} {R : List Registration} {p : Addr}
    {s : Subscriber} (h : Represents st R) (hget : st.subs.get p = some s)
    (hp : p ∉ R.map (·.sub)) : delSubscriber st p = some (.ok, st) := by
  simp [delSubscriber, hget, h.unregistered hget hp]

/-- The search from the node at `q` finds the registrations below `q` that accept the levels. -/
theorem find_loop_spec {st : Store} {R : List Registration} (h : Represents st R) {q : Path}
    {cur : Addr} (hcur : nodeAt st.tree q = some cur) (acc : List Subscriber) (toks : List CStr) :
    findLoop st cur acc toks = some (acc ++
      (collect (fun q => R.filter fun e => e.pattern = q) q toks).map fun e => st.sub e.sub) := by
  have hpointers : collect (fun q => (content R q).map Prod.snd) q toks =
      (collect (fun q => R.filter fun e => e.pattern = q) q toks).map (·.sub) := by
    rw [map_collect]
    simp only [content, List.map_map]
    rfl
  rw [find_loop_pointers, pointers_loop_spec h.tree hcur, Option.bind_some, hpointers, copies_live,
    List.map_map]
  · rfl
  · intro p hp
    obtain ⟨e, he, rfl⟩ := List.mem_map.mp hp
    obtain ⟨r, -, hr⟩ := mem_collect.mp he
    exact h.get_sub (List.mem_filter.mp hr).1

/-- The lookup returns copies of the subscribers whose pattern accepts the levels. -/
theorem find_subscribers_spec {st : Store} {R : List Registration} (h : Represents st R)
    (toks : List CStr) :
    nodeFindSubscribers st root toks = some ((lookup R toks).map fun e => st.sub e.sub) := by
  simpa [nodeFindSubscribers, lookup] using find_loop_spec h h.tree.shape.root_eq [] toks

/-- A registration is found when its pattern accepts the levels. -/
theorem mem_lookup {R : List Registration} {ts : List CStr} {e : Registration} :
    e ∈ lookup R ts ↔ e ∈ R ∧ Accepts e.pattern ts := by
  simp only [lookup, mem_collect, List.nil_append, List.mem_filter, decide_eq_true_eq]
  constructor
  · rintro ⟨r, hr, he, rfl⟩
    exact ⟨he, hr⟩
  · rintro ⟨he, hr⟩
    exact ⟨_, hr, he, rfl⟩

/-- No registration is found twice. -/
theorem nodup_lookup {R : List Registration} (h : R.Nodup) (ts : List CStr) :
    (lookup R ts).Nodup := by
  refine nodup_collect (fun q => h.filter _) ?_ [] ts
  intro q q' e he he'
  have hq := (List.mem_filter.mp he).2
  have hq' := (List.mem_filter.mp he').2
  simp only [decide_eq_true_eq] at hq hq'
  rw [← hq, ← hq']

/-- Filtering the registrations filters what is found. -/
theorem filter_lookup (R : List Registration) (f : Registration → Bool) (ts : List CStr) :
    (lookup R ts).filter f = lookup (R.filter f) ts := by
  simp only [lookup, filter_collect]
  congr 1
  funext q
  simp only [List.filter_filter, Bool.and_comm]

end Bpsp.Topic
