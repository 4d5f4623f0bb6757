import Bpsp.Topic.Registry

/-!
# Calls on any subscriber objects, with failing allocations

Insertions in which each allocation may fail, on objects that may share an `_id`. `Tables st C` says
that the heaps hold a tree with subscriber table `C q` at path `q`; nodes without a subscriber may
be left in it. Every call that is defined keeps such a `C` (`Tables.add`, `Tables.del`).
-/

namespace Bpsp.Topic

open CLib Wildcard

/-- What becomes of the allocations of one turn of the insertion loop, or of the one for the
subscriber: `fails` is a NULL from `topic__new_node`, `topic__new_hash_node` or
`subscriber__new_hash_elt`, and `nodeFails` a NULL from the `topic__new_node` that
`topic__new_hash_node` calls. -/
inductive Alloc where
  | succeeds
  | fails
  | nodeFails
  deriving DecidableEq

/-- One turn of the loop of `topic__add_subscriber`. When the node of a new table element cannot be
allocated, `topic__new_hash_node` frees the token of the element, which was never set. -/
def descendWith (alloc : Alloc) (tree : Heap Node) (cur : Addr) (tok : CStr) :
    Exec (Option (Heap Node × Addr)) := do
  let node ← tree.get cur
  if alloc = .nodeFails ∧ tok ≠ star ∧ tok ≠ plus ∧ node.nodes.find tok = none then none
  else descend (alloc = .succeeds) tree cur tok

/-- The loop of `topic__add_subscriber`; `alloc i` is for the turn `i`, and `alloc` at the number of
turns for the subscriber. -/
def addLoopWith (alloc : Nat → Alloc) (st : Store) (cur p : Addr) :
    List CStr → Exec (Status × Store)
  | [] => some (.ok, st)
  | tok :: rest => do
      match ← descendWith (alloc 0) st.tree cur tok with
      | none => some (.noMemory, st)
      | some (tree, child) =>
          let st := { st with tree := tree }
          if tok = star ∨ rest = [] then nodeAddSub (alloc 1 = .succeeds) st child p
          else addLoopWith (fun i => alloc (i + 1)) st child p rest

/-- `topic__add_subscriber`. -/
def addSubscriberWith (alloc : Nat → Alloc) (st : Store) (p : Addr) : Exec (Status × Store) := do
  let sub ← st.subs.get p
  match levels sub.getTopic with
  | none => some (.invalidTopic, st)
  | some toks => addLoopWith alloc st root p toks

/-- The heaps hold a tree with these subscriber tables. A subscriber that points to a live node
points to the node of its pattern. -/
structure Tables (st : Store) (C : Path → HashTable CStr Addr) : Prop where
  tree : TreeAt st.tree (nodeAt st.tree) C
  fresh : ∀ {p s a}, st.subs.get p = some s → s.node = some a → a < st.tree.next
  node : ∀ {p s a nd}, st.subs.get p = some s → s.node = some a → st.tree.get a = some nd →
    ∃ pat, s.pattern = some pat ∧ nodeAt st.tree pat = some a

theorem add_loop_with_mem (toks : List CStr) : ∀ (mem : Nat → Bool) (st : Store) (cur p : Addr),
    addLoopWith (fun i => if mem i then .succeeds else .fails) st cur p toks =
      addLoop mem st cur p toks := by
  have halloc : ∀ b : Bool, decide ((if b then Alloc.succeeds else .fails) = .succeeds) = b := by
    decide
  induction toks with
  | nil => exact fun _ _ _ _ => rfl
  | cons tok rest ih =>
      intro mem st cur p
      have hdescend : descendWith (if mem 0 then .succeeds else .fails) st.tree cur tok =
          descend (mem 0) st.tree cur tok := by
        unfold descendWith
        rw [halloc]
        cases hget : st.tree.get cur with
        | none => simp [descend, hget]
        | some node => cases mem 0 <;> simp
      unfold addLoopWith addLoop
      rw [hdescend]
      cases descend (mem 0) st.tree cur tok with
      | none => rfl
      | some found =>
          cases found with
          | none => rfl
          | some r => simp only [bind, Option.bind_some, halloc, ih]

/-- When no allocation fails inside `topic__new_hash_node`, this is `topic__add_subscriber` with a
flag for each turn. -/
theorem add_subscriber_with_mem (mem : Nat → Bool) (st : Store) (p : Addr) :
    addSubscriberWith (fun i => if mem i then .succeeds else .fails) st p =
      addSubscriber mem st p := by
  unfold addSubscriberWith addSubscriber
  cases st.subs.get p with
  | none => rfl
  | some sub =>
      simp only [bind, Option.bind_some]
      cases levels sub.getTopic with
      | none => rfl
      | some toks => exact add_loop_with_mem toks mem st root p

/-- The empty tree and objects that are in no tree. -/
theorem tables_init {subs : Heap Subscriber} (h : ∀ {p s}, subs.get p = some s → s.node = none) :
    Tables ⟨initTree, subs⟩ fun _ => [] := by
  have hrepr := represents_init h
  refine ⟨hrepr.tree, fun hget hnode => ?_, fun hget hnode => ?_⟩
  · rw [h hget] at hnode
    cases hnode
  · rw [h hget] at hnode
    cases hnode

section Steps

variable {tree : Heap Node} {A : Path → Option Addr} {C : Path → HashTable CStr Addr}
  {q : Path} {cur : Addr}

/-- A failed call of `topic__new_node`, or of `topic__new_hash_node` before it made the element. -/
def FailsCleanly (alloc : Alloc) (l : Level CStr) : Prop :=
  alloc = .fails ∨ alloc = .nodeFails ∧ (l = .multi ∨ l = .single)

theorem FailsCleanly.ne_succeeds {alloc : Alloc} {l : Level CStr} (h : FailsCleanly alloc l) :
    alloc ≠ .succeeds := by
  rintro rfl
  rcases h with h | ⟨h, -⟩ <;> cases h

/-- One turn of the loop: the node is there, it is made, it cannot be made, or the failure is not
handled. -/
theorem descend_with_cases (h : TreeAt tree A C) (hcur : A q = some cur) (tok : CStr)
    (alloc : Alloc) :
    (∃ b, A (q ++ [levelOf tok]) = some b ∧
      descendWith alloc tree cur tok = some (some (tree, b))) ∨
    A (q ++ [levelOf tok]) = none ∧
      ((alloc = .succeeds ∧ ∃ tree',
        descendWith alloc tree cur tok = some (some (tree', tree.next)) ∧
        TreeAt tree' (Function.update A (q ++ [levelOf tok]) (some tree.next)) C ∧
        tree'.next = tree.next + 1) ∨
      (FailsCleanly alloc (levelOf tok) ∧ descendWith alloc tree cur tok = some none) ∨
      alloc ≠ .succeeds ∧ ¬ FailsCleanly alloc (levelOf tok) ∧
        descendWith alloc tree cur tok = none) := by
  obtain ⟨node, hget, hchild, -⟩ := h.shape.node hcur
  have hplain : ∀ hcond : ¬ (alloc = .nodeFails ∧ tok ≠ star ∧ tok ≠ plus ∧
      node.nodes.find tok = none),
      descendWith alloc tree cur tok = descend (alloc = .succeeds) tree cur tok := by
    intro hcond
    unfold descendWith
    simp only [hget, bind, Option.bind_some, hcond, if_false]
  have hexact : ∀ (hs : tok ≠ star) (hp : tok ≠ plus), levelOf tok = .exact tok := by
    intro hs hp
    simp [levelOf, hs, hp]
  rcases descend_cases h hcur tok (alloc = .succeeds) with ⟨b, hA, hrun⟩ |
    ⟨hA, tree', hrun, htree, hnext⟩
  · refine Or.inl ⟨b, hA, ?_⟩
    rw [hplain, hrun]
    rintro ⟨-, hs, hp, hfind⟩
    rw [← hchild, hexact hs hp] at hA
    rw [show links.child node (.exact tok) = node.nodes.find tok from rfl, hfind] at hA
    cases hA
  · refine Or.inr ⟨hA, ?_⟩
    by_cases hmade : alloc = .succeeds
    · refine Or.inl ⟨hmade, tree', ?_, htree, hnext⟩
      rw [hplain fun hcond => by simp [hmade] at hcond, hrun]
      simp [hmade]
    · by_cases hclean : FailsCleanly alloc (levelOf tok)
      · refine Or.inr (Or.inl ⟨hclean, ?_⟩)
        rw [hplain, hrun]
        · simp [hmade]
        · rintro ⟨halloc, hs, hp, -⟩
          rcases hclean with hf | ⟨-, hl⟩
          · rw [halloc] at hf
            cases hf
          · rw [hexact hs hp] at hl
            simp at hl
      · refine Or.inr (Or.inr ⟨hmade, hclean, ?_⟩)
        unfold FailsCleanly at hclean
        rw [not_or, not_and, not_or] at hclean
        have halloc : alloc = .nodeFails := by
          cases alloc with
          | succeeds => exact absurd rfl hmade
          | fails => exact absurd rfl hclean.1
          | nodeFails => rfl
        have hl := hclean.2 halloc
        have hs : tok ≠ star := by
          rintro rfl
          exact hl.1 (by simp [levelOf])
        have hp : tok ≠ plus := by
          rintro rfl
          exact hl.2 (by simp [levelOf, hs])
        have hfind : node.nodes.find tok = none := by
          have hA' := hA
          rw [← hchild, hexact hs hp] at hA'
          exact hA'
        unfold descendWith
        simp [hget, halloc, hs, hp, hfind]

/-- The tree got new nodes: the old ones are where they were, the others have new addresses. -/
structure Grown (tree : Heap Node) (A : Path → Option Addr) (tree' : Heap Node)
    (A' : Path → Option Addr) : Prop where
  kept : ∀ {r x}, A r = some x → A' r = some x
  new : ∀ {r x}, A' r = some x → A r = some x ∨ tree.next ≤ x
  next : tree.next ≤ tree'.next

theorem Grown.refl (tree : Heap Node) (A : Path → Option Addr) : Grown tree A tree A :=
  ⟨id, Or.inl, Nat.le_refl _⟩

theorem Grown.trans {tree₁ tree₂ : Heap Node} {A₁ A₂ : Path → Option Addr}
    (h : Grown tree A tree₁ A₁) (h' : Grown tree₁ A₁ tree₂ A₂) : Grown tree A tree₂ A₂ where
  kept hr := h'.kept (h.kept hr)
  new hr := (h'.new hr).elim h.new fun hx => Or.inr (Nat.le_trans h.next hx)
  next := Nat.le_trans h.next h'.next

theorem Grown.link {tree' : Heap Node} {q' : Path} (hA : A q' = none)
    (hnext : tree'.next = tree.next + 1) :
    Grown tree A tree' (Function.update A q' (some tree.next)) where
  kept {r x} hr := by
    rwa [Function.update_of_ne]
    rintro rfl
    rw [hA] at hr
    cases hr
  new {r x} hr := by
    by_cases hq : r = q'
    · rw [hq, Function.update_self] at hr
      exact Or.inr (Nat.le_of_eq (Option.some.inj hr))
    · rw [Function.update_of_ne hq] at hr
      exact Or.inl hr
  next := by omega

/-- The insertion loop stops when an allocation fails, with the nodes made so far, or it comes to
the node for the tokens. -/
theorem add_loop_with_cases {toks : List CStr} : ∀ {alloc : Nat → Alloc} {st : Store}
    {A : Path → Option Addr} {q : Path} {cur p : Addr} {r : Status × Store},
    TreeAt st.tree A C → A q = some cur → toks ≠ [] → (∀ t ∈ toks.dropLast, t ≠ star) →
    addLoopWith alloc st cur p toks = some r →
    ∃ tree' A', TreeAt tree' A' C ∧ Grown st.tree A tree' A' ∧
      (alloc 0 = .succeeds → ∀ tok ∈ toks.head?, (A' (q ++ [levelOf tok])).isSome) ∧
      (r = (.noMemory, { st with tree := tree' }) ∨
        ∃ b, A' (q ++ toks.map levelOf) = some b ∧
          nodeAddSub (alloc toks.length = .succeeds) { st with tree := tree' } b p = some r) := by
  induction toks with
  | nil => exact fun _ _ h => absurd rfl h
  | cons tok rest ih =>
      intro alloc st A q cur p r h hcur _ hstar hrun
      unfold addLoopWith at hrun
      -- what follows once the child is known
      have hnext : ∀ {tree₁ : Heap Node} {A₁ : Path → Option Addr} {b : Addr},
          descendWith (alloc 0) st.tree cur tok = some (some (tree₁, b)) → TreeAt tree₁ A₁ C →
          A₁ (q ++ [levelOf tok]) = some b → Grown st.tree A tree₁ A₁ →
          ∃ tree' A', TreeAt tree' A' C ∧ Grown st.tree A tree' A' ∧
            (A' (q ++ [levelOf tok])).isSome ∧
            (r = (.noMemory, { st with tree := tree' }) ∨
              ∃ b, A' (q ++ (tok :: rest).map levelOf) = some b ∧
                nodeAddSub (alloc (tok :: rest).length = .succeeds) { st with tree := tree' } b p =
                  some r) := by
        intro tree₁ A₁ b hdescend h₁ hb hgrown
        rw [hdescend] at hrun
        simp only [bind, Option.bind_some] at hrun
        cases rest with
        | nil =>
            rw [if_pos (Or.inr rfl)] at hrun
            exact ⟨tree₁, A₁, h₁, hgrown, by rw [hb]; rfl, Or.inr ⟨b, hb, hrun⟩⟩
        | cons tok₂ rest =>
            have hnot : ¬ (tok = star ∨ tok₂ :: rest = []) := by
              simpa using hstar tok (by simp)
            rw [if_neg hnot] at hrun
            obtain ⟨tree', A', h', hgrown', -, hr⟩ :=
              @ih (fun i => alloc (i + 1)) { st with tree := tree₁ } A₁ (q ++ [levelOf tok]) b p r
                h₁ hb (List.cons_ne_nil _ _) (fun t ht => hstar t (by simpa using Or.inr ht)) hrun
            refine ⟨tree', A', h', hgrown.trans hgrown', by rw [hgrown'.kept hb]; rfl, ?_⟩
            simpa using hr
      rcases descend_with_cases h hcur tok (alloc 0) with ⟨b, hb, hdescend⟩ |
        ⟨hA, ⟨-, tree', hdescend, htree, hlen⟩ | ⟨hclean, hdescend⟩ | ⟨-, -, hdescend⟩⟩
      · obtain ⟨tree', A', h', hgrown, hfirst, hr⟩ := hnext hdescend h hb (Grown.refl _ _)
        exact ⟨tree', A', h', hgrown, fun _ _ ht => Option.some.inj ht ▸ hfirst, hr⟩
      · obtain ⟨tree', A', h', hgrown, hfirst, hr⟩ :=
          hnext hdescend htree (Function.update_self _ _ _) (Grown.link hA hlen)
        exact ⟨tree', A', h', hgrown, fun _ _ ht => Option.some.inj ht ▸ hfirst, hr⟩
      · rw [hdescend] at hrun
        refine ⟨st.tree, A, h, Grown.refl _ _, fun halloc => ?_,
          Or.inl (Option.some.inj hrun).symm⟩
        exact absurd halloc hclean.ne_succeeds
      · rw [hdescend] at hrun
        cases hrun

/-- The insertion loop is defined as long as no allocation fails inside `topic__new_hash_node`. -/
theorem add_loop_with_defined {p : Addr} {s : Subscriber} {toks : List CStr} :
    ∀ {alloc : Nat → Alloc} {st : Store} {A : Path → Option Addr} {q : Path} {cur : Addr},
    TreeAt st.tree A C → A q = some cur → st.subs.get p = some s →
    (∀ i, alloc i ≠ .nodeFails) → ∃ r, addLoopWith alloc st cur p toks = some r := by
  induction toks with
  | nil => exact fun _ _ _ _ => ⟨_, rfl⟩
  | cons tok rest ih =>
      intro alloc st A q cur h hcur hget halloc
      -- what follows once the child is known
      have hnext : ∀ {tree' : Heap Node} {A' : Path → Option Addr} {b : Addr},
          descendWith (alloc 0) st.tree cur tok = some (some (tree', b)) → TreeAt tree' A' C →
          A' (q ++ [levelOf tok]) = some b →
          ∃ r, addLoopWith alloc st cur p (tok :: rest) = some r := by
        intro tree' A' b hdescend h' hb
        obtain ⟨node, hnode, -⟩ := h'.shape.node hb
        simp only [addLoopWith, hdescend, bind, Option.bind_some]
        split
        · simp only [nodeAddSub, hnode, hget, bind, Option.bind_some]
          split_ifs <;> exact ⟨_, rfl⟩
        · exact @ih _ { st with tree := tree' } A' _ b h' hb hget fun i => halloc (i + 1)
      rcases descend_with_cases h hcur tok (alloc 0) with ⟨b, hb, hdescend⟩ |
        ⟨-, ⟨-, tree', hdescend, htree, -⟩ | ⟨-, hdescend⟩ | ⟨hmade, hclean, -⟩⟩
      · exact hnext hdescend h hb
      · exact hnext hdescend htree (Function.update_self _ _ _)
      · exact ⟨_, by simp only [addLoopWith, hdescend, bind, Option.bind_some]; rfl⟩
      · cases hcase : alloc 0 with
        | succeeds => exact absurd hcase hmade
        | fails => exact absurd (Or.inl hcase) hclean
        | nodeFails => exact absurd hcase (halloc 0)

end Steps

section Calls

variable {st : Store} {C : Path → HashTable CStr Addr} {p : Addr} {s : Subscriber}

/-- What `topic__node_add_sub` does at the node of a path. -/
theorem node_add_sub_eq {A : Path → Option Addr} {pat : Path} {b : Addr} (h : TreeAt st.tree A C)
    (hb : A pat = some b) (hget : st.subs.get p = some s) (mem : Bool) :
    nodeAddSub mem st b p = some (
      let subs := st.subs.modify p fun s => { s with node := some b }
      if (C pat).find s.id = some p then (.treeDupSubscriber, { st with subs := subs })
      else if mem then
        (.ok, ⟨st.tree.modify b fun n => { n with subs := n.subs.add s.id p }, subs⟩)
      else (.noMemory, { st with subs := subs })) := by
  obtain ⟨node, hnode, -, -⟩ := h.shape.node hb
  unfold nodeAddSub
  simp only [hnode, hget, bind, Option.bind_some, h.subs hb hnode]
  split_ifs <;> rfl

/-- Pointing a subscriber to the node of its pattern. -/
theorem Tables.point (h : Tables st C) (hget : st.subs.get p = some s) {pat : Path} {b : Addr}
    (hpat : s.pattern = some pat) (hb : nodeAt st.tree pat = some b) :
    Tables { st with subs := st.subs.modify p fun s => { s with node := some b } } C := by
  obtain ⟨node, hlive, -⟩ := h.tree.shape.node hb
  refine ⟨h.tree, fun {p' s' a} hget' hnode => ?_, fun {p' s' a nd} hget' hnode hnd => ?_⟩
  · rw [Heap.get_modify] at hget'
    split_ifs at hget' with hp
    · rw [hget] at hget'
      rw [← Option.some.inj hget'] at hnode
      obtain rfl := Option.some.inj hnode
      exact Heap.lt_next_of_get hlive
    · exact h.fresh hget' hnode
  · rw [Heap.get_modify] at hget'
    split_ifs at hget' with hp
    · rw [hget] at hget'
      rw [← Option.some.inj hget'] at hnode ⊢
      obtain rfl := Option.some.inj hnode
      exact ⟨pat, hpat, hb⟩
    · exact h.node hget' hnode hnd

/-- Changing the table at a path, with the same nodes. -/
theorem Tables.set_subs (h : Tables st C) {pat : Path} {b : Addr} (hb : nodeAt st.tree pat = some b)
    (f : HashTable CStr Addr → HashTable CStr Addr) :
    Tables { st with tree := st.tree.modify b fun n => { n with subs := f n.subs } }
      (Function.update C pat (f (C pat))) := by
  have hset := set_subs_spec h.tree hb f
  have hnodes := hset.node_at
  refine ⟨hnodes ▸ hset, h.fresh, fun {p' s' a nd} hget' hnode hnd => ?_⟩
  have hlive : ∃ nd, st.tree.get a = some nd := by
    rw [Heap.get_modify] at hnd
    split_ifs at hnd with ha
    · obtain ⟨n, hn, -⟩ := Option.map_eq_some_iff.mp hnd
      exact ⟨n, ha ▸ hn⟩
    · exact ⟨nd, hnd⟩
  obtain ⟨nd', hnd'⟩ := hlive
  obtain ⟨pat', hpat', ha⟩ := h.node hget' hnode hnd'
  exact ⟨pat', hpat', by rw [hnodes, ha]⟩

/-- More nodes. -/
theorem Tables.grow (h : Tables st C) {tree' : Heap Node} {A' : Path → Option Addr}
    (htree : TreeAt tree' A' C) (hgrown : Grown st.tree (nodeAt st.tree) tree' A') :
    Tables { st with tree := tree' } C ∧ nodeAt tree' = A' := by
  obtain rfl := htree.node_at
  refine ⟨⟨htree, fun hget' hnode => ?_, fun {p' s' a nd} hget' hnode hnd => ?_⟩, rfl⟩
  · exact Nat.lt_of_lt_of_le (h.fresh hget' hnode) hgrown.next
  · -- the pointer is older than the new nodes
    obtain ⟨r, hr⟩ := htree.shape.reach hnd
    have hold := (hgrown.new hr).resolve_right (Nat.not_le.mpr (h.fresh hget' hnode))
    obtain ⟨nd', hnd', -⟩ := h.tree.shape.node hold
    obtain ⟨pat, hpat, ha⟩ := h.node hget' hnode hnd'
    exact ⟨pat, hpat, hgrown.kept ha⟩

/-- The tables after an insertion. -/
def added (C : Path → HashTable CStr Addr) (s : Subscriber) (p : Addr) (pat : Path) :
    Path → HashTable CStr Addr :=
  Function.update C pat ((C pat).add s.id p)

/-- What a defined insertion does: the topic is refused, an allocation fails, the subscriber is
already there, or it is added. -/
theorem add_subscriber_with_cases (h : Tables st C) (hget : st.subs.get p = some s)
    {alloc : Nat → Alloc} {r : Status × Store} (hrun : addSubscriberWith alloc st p = some r) :
    (s.pattern = none ∧ r = (.invalidTopic, st)) ∨
    ∃ pat tree', s.pattern = some pat ∧ Tables { st with tree := tree' } C ∧
      Grown st.tree (nodeAt st.tree) tree' (nodeAt tree') ∧
      (r = (.noMemory, { st with tree := tree' }) ∨
        ∃ b, nodeAt tree' pat = some b ∧
          let subs := st.subs.modify p fun s => { s with node := some b }
          Tables ⟨tree', subs⟩ C ∧
          (((C pat).find s.id = some p ∧ r = (.treeDupSubscriber, ⟨tree', subs⟩)) ∨
            ((C pat).find s.id ≠ some p ∧ r = (.noMemory, ⟨tree', subs⟩)) ∨
            (C pat).find s.id ≠ some p ∧ ∃ tree'', r = (.ok, ⟨tree'', subs⟩) ∧
              Tables ⟨tree'', subs⟩ (added C s p pat) ∧ nodeAt tree'' = nodeAt tree')) := by
  unfold addSubscriberWith at hrun
  rw [hget] at hrun
  simp only [bind, Option.bind_some] at hrun
  cases hlevels : levels s.getTopic with
  | none =>
      rw [hlevels] at hrun
      exact Or.inl ⟨by rw [Subscriber.pattern, hlevels]; rfl, (Option.some.inj hrun).symm⟩
  | some toks =>
      rw [hlevels] at hrun
      have hpat : s.pattern = some (toks.map levelOf) := by rw [Subscriber.pattern, hlevels]; rfl
      obtain ⟨hne, hstar⟩ := levels_spec hlevels
      obtain ⟨tree', A', htree, hgrown, -, hr⟩ :=
        add_loop_with_cases h.tree h.tree.shape.root_eq hne hstar hrun
      obtain ⟨htables, rfl⟩ := h.grow htree hgrown
      refine Or.inr ⟨_, tree', hpat, htables, hgrown, hr.imp_right ?_⟩
      rintro ⟨b, hb, hadd⟩
      rw [List.nil_append] at hb
      have hpoint := @Tables.point { st with tree := tree' } C p s htables hget _ b hpat hb
      refine ⟨b, hb, hpoint, ?_⟩
      rw [@node_add_sub_eq { st with tree := tree' } C p s _ _ b htree hb hget] at hadd
      have hr := (Option.some.inj hadd).symm
      dsimp only at hr
      split_ifs at hr with hdup hmem
      · exact Or.inl ⟨hdup, hr⟩
      · exact Or.inr (Or.inr ⟨hdup, _, hr, hpoint.set_subs hb fun t => t.add s.id p,
          (set_subs_spec htree hb fun t => t.add s.id p).node_at⟩)
      · exact Or.inr (Or.inl ⟨hdup, hr⟩)

/-- When no allocation fails, an insertion with an accepted topic is refused when the lookup of the
`_id` at the node of the pattern gives the subscriber itself, and adds it otherwise. -/
theorem add_subscriber_tables (h : Tables st C) (hget : st.subs.get p = some s) {pat : Path}
    (hpat : s.pattern = some pat) : ∃ tree' tree'' b, nodeAt tree' pat = some b ∧
      Grown st.tree (nodeAt st.tree) tree' (nodeAt tree') ∧
      let subs := st.subs.modify p fun s => { s with node := some b }
      Tables ⟨tree', subs⟩ C ∧ nodeAt tree'' = nodeAt tree' ∧
        ((C pat).find s.id = some p →
          addSubscriber (fun _ => true) st p = some (.treeDupSubscriber, ⟨tree', subs⟩)) ∧
        ((C pat).find s.id ≠ some p →
          addSubscriber (fun _ => true) st p = some (.ok, ⟨tree'', subs⟩) ∧
            Tables ⟨tree'', subs⟩ (added C s p pat)) := by
  -- the call is defined and does not run out of memory
  obtain ⟨r, hrun, hmem⟩ : ∃ r, addSubscriber (fun _ => true) st p = some r ∧ r.1 ≠ .noMemory := by
    obtain ⟨toks, hlevels, rfl⟩ := Option.map_eq_some_iff.mp hpat
    obtain ⟨hne, hstar⟩ := levels_spec hlevels
    obtain ⟨tree', A', b, hloop, htree, hb, -⟩ :=
      @add_loop_spec st _ C _ _ p _ h.tree h.tree.shape.root_eq hne hstar
    have hadd := @node_add_sub_eq { st with tree := tree' } C p s _ _ b htree hb hget true
    have hdef : addSubscriber (fun _ => true) st p = nodeAddSub true { st with tree := tree' } b p := by
      simp [addSubscriber, hget, hlevels, hloop]
    rw [hdef, hadd]
    refine ⟨_, rfl, ?_⟩
    simp only [if_true]
    split_ifs <;> exact fun h0 => Status.noConfusion h0
  have hwith := hrun
  rw [← add_subscriber_with_mem] at hwith
  rcases add_subscriber_with_cases h hget hwith with ⟨hnone, -⟩ |
    ⟨pat', tree', hpat', -, hgrown, rfl | ⟨b, hb, hpoint, hr⟩⟩
  · rw [hnone] at hpat
    cases hpat
  · exact absurd rfl hmem
  · obtain rfl := Option.some.inj (hpat.symm.trans hpat')
    rcases hr with ⟨hdup, rfl⟩ | ⟨-, rfl⟩ | ⟨hnew, tree'', rfl, hadded, hnodes⟩
    · exact ⟨tree', tree', b, hb, hgrown, hpoint, rfl, fun _ => hrun, fun hnew => absurd hdup hnew⟩
    · exact absurd rfl hmem
    · exact ⟨tree', tree'', b, hb, hgrown, hpoint, hnodes, fun hdup => absurd hdup hnew,
        fun _ => ⟨hrun, hadded⟩⟩

/-- The pruning loop removes nodes and keeps the tables. -/
theorem prune_loop_tables {toks : List CStr} : ∀ {tree : Heap Node} {A : Path → Option Addr}
    {C : Path → HashTable CStr Addr} {leaf : Addr}, TreeAt tree A C →
    A (toks.map levelOf) = some leaf → ∃ tree' A', pruneLoop tree leaf toks.reverse = some tree' ∧
      TreeAt tree' A' C ∧ (∀ {r x}, A' r = some x → A r = some x) ∧ tree'.next = tree.next := by
  induction toks using List.reverseRecOn with
  | nil => exact fun {tree A _ _} h _ => ⟨tree, A, rfl, h, id, rfl⟩
  | append_singleton toks tok ih =>
      intro tree A C leaf h hleaf
      rw [List.map_append, List.map_singleton] at hleaf
      rw [List.reverse_append, List.reverse_singleton, List.singleton_append]
      by_cases hempty : C (toks.map levelOf ++ [levelOf tok]) = [] ∧
          ∀ l, A (toks.map levelOf ++ [levelOf tok] ++ [l]) = none
      · obtain ⟨tree₁, par, hpar, hstep, h₁, hnext₁⟩ :=
          prune_step toks.reverse h hleaf hempty.1 hempty.2
        obtain ⟨tree', A', hrun, h', hback, hnext⟩ := ih h₁
          (by rw [Function.update_of_ne (by simp), hpar])
        refine ⟨tree', A', hstep.trans hrun, h', fun {r x} hr => ?_, hnext.trans hnext₁⟩
        have hr' := hback hr
        by_cases hrq : r = toks.map levelOf ++ [levelOf tok]
        · rw [hrq, Function.update_self] at hr'
          cases hr'
        · rwa [Function.update_of_ne hrq] at hr'
      · obtain ⟨node, hget, -, -⟩ := h.shape.node hleaf
        have hfull : nodeIsEmpty node = false := by
          rwa [← Bool.not_eq_true, h.is_empty_iff hleaf hget]
        exact ⟨tree, A, by simp [pruneLoop, hget, hfull], h, id, rfl⟩

/-- What a deletion does: nothing when the subscriber points to no node or its `_id` is not in the
table there, and otherwise it removes the entry that was added last under this `_id`. Following a
pointer to a node that was freed is undefined. -/
theorem del_subscriber_cases (h : Tables st C) (hget : st.subs.get p = some s) :
    (s.node = none ∧ delSubscriber st p = some (.ok, st)) ∨
    (∃ a, s.node = some a ∧ st.tree.get a = none ∧ delSubscriber st p = none) ∨
    ∃ a pat, s.node = some a ∧ s.pattern = some pat ∧ nodeAt st.tree pat = some a ∧
      ((C pat).find s.id = none ∧ delSubscriber st p = some (.ok, st) ∨
        ((C pat).find s.id).isSome ∧ ∃ tree',
          let subs := st.subs.modify p fun s => { s with node := none }
          delSubscriber st p = some (.ok, ⟨tree', subs⟩) ∧
          Tables ⟨tree', subs⟩ (Function.update C pat ((C pat).del s.id)) ∧
          ∀ {r x}, nodeAt tree' r = some x → nodeAt st.tree r = some x) := by
  cases hnode : s.node with
  | none =>
      refine Or.inl ⟨rfl, ?_⟩
      unfold delSubscriber
      simp only [hget, hnode, bind, Option.bind_some]
  | some a =>
      refine Or.inr ?_
      cases hlive : st.tree.get a with
      | none =>
          refine Or.inl ⟨a, rfl, hlive, ?_⟩
          unfold delSubscriber
          simp only [hget, hnode, hlive, bind, Option.bind_some, Option.bind_none]
          cases levels s.getTopic <;> rfl
      | some node =>
          obtain ⟨pat, hpat, ha⟩ := h.node hget hnode hlive
          refine Or.inr ⟨a, pat, rfl, hpat, ha, ?_⟩
          have hsubs := h.tree.subs ha hlive
          obtain ⟨toks, hlevels, rfl⟩ := Option.map_eq_some_iff.mp hpat
          cases hfind : (C (toks.map levelOf)).find s.id with
          | none =>
              refine Or.inl ⟨rfl, ?_⟩
              unfold delSubscriber
              simp only [hget, hnode, hlive, hlevels, hsubs, hfind, bind, Option.bind_some]
          | some p' =>
              have hset := h.set_subs ha fun t => t.del s.id
              obtain ⟨tree', A', hprune, htree, hback, hnext⟩ :=
                @prune_loop_tables toks _ _ _ a hset.tree
                  (by rw [(set_subs_spec h.tree ha fun t => t.del s.id).node_at, ha])
              obtain rfl := htree.node_at
              have hback' : ∀ {r x}, nodeAt tree' r = some x → nodeAt st.tree r = some x := by
                intro r x hr
                have := hback hr
                rwa [(set_subs_spec h.tree ha fun t => t.del s.id).node_at] at this
              refine Or.inr ⟨rfl, tree', ?_, ⟨htree, fun hget' hnode' => ?_,
                fun hget' hnode' hnd => ?_⟩, hback'⟩
              · unfold delSubscriber treePruneNode
                simp only [hget, hnode, hlive, hlevels, hsubs, hfind, hprune, bind,
                  Option.bind_some]
              · rw [Heap.get_modify] at hget'
                split_ifs at hget' with hp
                · obtain ⟨t, -, rfl⟩ := Option.map_eq_some_iff.mp hget'
                  cases hnode'
                · exact hnext ▸ h.fresh hget' hnode'
              · rw [Heap.get_modify] at hget'
                split_ifs at hget' with hp
                · obtain ⟨t, -, rfl⟩ := Option.map_eq_some_iff.mp hget'
                  cases hnode'
                · obtain ⟨r, hr⟩ := htree.shape.reach hnd
                  obtain ⟨nd', hnd', -⟩ := h.tree.shape.node (hback' hr)
                  obtain ⟨pat', hpat', ha'⟩ := h.node hget' hnode' hnd'
                  obtain rfl := h.tree.shape.inj (hback' hr) ha'
                  exact ⟨r, hpat', hr⟩

end Calls

end Bpsp.Topic
