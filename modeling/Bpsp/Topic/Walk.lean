import Bpsp.CLib.Traversal
import Bpsp.Topic.Runs

/-!
# Printing and freeing the topic tree

`topic__print_tree` and `topic__free_tree` go through the whole tree: a node, then its multi-level
child, its single-level child and the nodes of its table. Both visit the nodes that `descendants`
lists (`print_node_spec`, `free_node_spec`), so the printed tree shows every pattern with the
number of its subscribers once (`print_tree_spec`), and freeing leaves no node and frees none twice
(`free_tree_spec`).
-/

namespace Bpsp.Topic

open CLib Wildcard

/-- What `print_node` prints of one node. -/
structure Line where
  deep : Nat
  token : CStr
  numSubs : Nat
  deriving DecidableEq

/-- The call of `print_node` for a child that is there. -/
def printChild (child : Option Addr) (print : Addr → Exec (List Line)) : Exec (List Line) :=
  match child with
  | none => some []
  | some b => print b

/-- `print_node`. The nesting of nodes is bounded by their number. -/
def printNode : Nat → Heap Node → Addr → CStr → Nat → Exec (List Line)
  | 0, _, _, _, _ => none
  | fuel + 1, tree, a, token, deep => do
      let node ← tree.get a
      let ml ← printChild node.mlNode fun b => printNode fuel tree b star (deep + 1)
      let sl ← printChild node.slNode fun b => printNode fuel tree b plus (deep + 1)
      let rest ← node.nodes.mapM fun e => printNode fuel tree e.2 e.1 (deep + 1)
      some (⟨deep, token, nodeNumSubs node⟩ :: (ml ++ sl ++ rest.flatten))

/-- `topic__print_tree`. -/
def printTree (tree : Heap Node) : Exec (List Line) :=
  printNode tree.next tree root (.ofString "#root") 0

/-- `topic__free_tree`: the root is part of the tree object, which is freed with it. -/
def freeTree (tree : Heap Node) : Exec (Heap Node) := freeNode tree.next tree root

/-- The token that leads to a child. -/
def tokenOf : Level CStr → CStr
  | .multi => star
  | .single => plus
  | .exact tok => tok

/-- The children of a node in the order in which the functions go through them. -/
def kids (node : Node) : List (Level CStr × Addr) :=
  node.mlNode.toList.map (fun b => (.multi, b)) ++ node.slNode.toList.map (fun b => (.single, b)) ++
    node.nodes.map fun e => (.exact e.1, e.2)

/-- The line for the node at the end of a path. -/
def lineAt (token : CStr) (deep : Nat) (r : Path) (numSubs : Nat) : Line :=
  ⟨deep + r.length, (r.getLast?.map tokenOf).getD token, numSubs⟩

theorem lists_kids {node : Node} (hkeys : node.nodes.keys.Nodup) : Lists links kids node := by
  constructor
  · have hnodes : (node.nodes.map fun e => (Level.exact e.1 : Level CStr)).Nodup := by
      have := hkeys.map (f := (Level.exact : CStr → Level CStr)) fun _ _ h => Level.exact.inj h
      rwa [HashTable.keys, List.map_map] at this
    unfold kids
    simp only [List.map_append, List.map_map]
    cases node.mlNode <;> cases node.slNode <;>
      simpa [List.nodup_cons, Function.comp_def] using hnodes
  · intro l b
    unfold kids
    simp only [List.mem_append, List.mem_map, Option.mem_toList, Prod.mk.injEq]
    cases l with
    | multi => simp [links]
    | single => simp [links]
    | exact tok =>
        simp only [reduceCtorEq, false_and, and_false, exists_false, false_or, Level.exact.injEq,
          links, HashTable.find_eq_some_iff hkeys]
        constructor
        · rintro ⟨e, he, rfl, rfl⟩
          exact he
        · exact fun he => ⟨(tok, b), he, rfl, rfl⟩

section Print

variable {tree : Heap Node} {A : Path → Option Addr} {C : Path → HashTable CStr Addr}

/-- Printing goes through the children in order. -/
theorem print_node_step {a : Addr} {node : Node} (hget : tree.get a = some node) {fuel deep : Nat}
    {f : Level CStr × Addr → List Line}
    (hf : ∀ e ∈ kids node, printNode fuel tree e.2 (tokenOf e.1) (deep + 1) = some (f e))
    (token : CStr) : printNode (fuel + 1) tree a token deep =
      some (⟨deep, token, nodeNumSubs node⟩ :: ((kids node).map f).flatten) := by
  have hml : printChild node.mlNode (fun b => printNode fuel tree b star (deep + 1)) =
      some ((node.mlNode.toList.map fun b => f (.multi, b)).flatten) := by
    cases hchild : node.mlNode with
    | none => rfl
    | some b => simpa [printChild, tokenOf] using hf (.multi, b) (by simp [kids, hchild])
  have hsl : printChild node.slNode (fun b => printNode fuel tree b plus (deep + 1)) =
      some ((node.slNode.toList.map fun b => f (.single, b)).flatten) := by
    cases hchild : node.slNode with
    | none => rfl
    | some b => simpa [printChild, tokenOf] using hf (.single, b) (by simp [kids, hchild])
  have hnodes : (node.nodes.mapM fun e => printNode fuel tree e.2 e.1 (deep + 1)) =
      some (node.nodes.map fun e => f (.exact e.1, e.2)) :=
    mapM_some fun e he => hf (.exact e.1, e.2)
      (List.mem_append_right _ (List.mem_map_of_mem he))
  unfold printNode
  simp only [hget, hml, hsl, hnodes, bind, Option.bind_some]
  simp [kids, Function.comp_def]

/-- What is printed from a node on: one line for each node below it. -/
theorem print_node_spec (h : TreeAt tree A C) {fuel : Nat} :
    ∀ {q : Path} {a : Addr} {token : CStr} {deep : Nat} {ps : List (Path × Addr)}, A q = some a →
      descendants kids tree fuel a = some ps →
      printNode fuel tree a token deep =
        some (ps.map fun p => lineAt token deep p.1 (C (q ++ p.1)).length) := by
  induction fuel with
  | zero =>
      intro q a token deep ps _ hps
      cases hps
  | succ fuel ih =>
      intro q a token deep ps ha hps
      obtain ⟨node, hget, hchild, -⟩ := h.shape.node ha
      obtain ⟨f, hf, rfl⟩ := of_descendants hget hps
      have hkids := lists_kids (h.keys hget)
      have hbelow : ∀ e ∈ kids node, printNode fuel tree e.2 (tokenOf e.1) (deep + 1) =
          some ((f e).map fun p => lineAt (tokenOf e.1) (deep + 1) p.1
            (C (q ++ [e.1] ++ p.1)).length) := fun e he =>
        ih ((hchild e.1).symm.trans (hkids.mem_iff.mp he)) (hf e he)
      rw [print_node_step hget hbelow, List.map_cons, List.map_flatten, List.map_map]
      refine congrArg some (congrArg₂ List.cons ?_ (congrArg List.flatten ?_))
      · rw [nodeNumSubs, h.subs ha hget, List.append_nil]
        rfl
      · refine List.map_congr_left fun e _ => ?_
        rw [Function.comp_apply, List.map_map]
        refine List.map_congr_left fun p _ => ?_
        -- the last token of a path below the child is the one that leads to the child, or later
        have hlast : ((e.1 :: p.1).getLast?.map tokenOf).getD token =
            (p.1.getLast?.map tokenOf).getD (tokenOf e.1) := by
          cases p.1 with
          | nil => rfl
          | cons l r =>
              rw [List.getLast?_cons_cons, List.getLast?_eq_some_getLast (List.cons_ne_nil l r)]
              rfl
        simp only [Function.comp_apply, lineAt, hlast, List.length_cons, List.append_assoc,
          List.singleton_append, Line.mk.injEq, and_true]
        omega

/-- The printed tree has one line for each node, which are the prefixes of the registered patterns,
with the number of subscriptions that have just this pattern. -/
theorem print_tree_spec {st : Store} {R : List Registration} (h : Represents st R) :
    ∃ qs : List Path, qs.Nodup ∧ (∀ q, q ∈ qs ↔ q = [] ∨ ∃ e ∈ R, q <+: e.pattern) ∧
      printTree st.tree = some (qs.map fun q =>
        lineAt (.ofString "#root") 0 q (R.filter fun e => e.pattern = q).length) := by
  obtain ⟨ps, hps, hnodup, hmem⟩ := descendants_root h.tree.shape fun hget =>
    lists_kids (h.tree.keys hget)
  refine ⟨ps.map Prod.fst, hnodup, fun q => ?_, ?_⟩
  · rw [← h.paths, Option.isSome_iff_exists, List.mem_map]
    constructor
    · rintro ⟨p, hp, rfl⟩
      exact ⟨p.2, hmem.mp hp⟩
    · rintro ⟨b, hb⟩
      exact ⟨(q, b), hmem.mpr hb, rfl⟩
  · rw [printTree, print_node_spec h.tree h.tree.shape.root_eq hps, List.map_map]
    simp [content, Function.comp_def]

end Print

section Free

variable {tree : Heap Node} {A : Path → Option Addr} {C : Path → HashTable CStr Addr}

/-- Freeing goes through the children in order, and frees the node last. -/
theorem free_node_kids {t : Heap Node} {a : Addr} {node : Node} (hget : t.get a = some node)
    (fuel : Nat) : freeNode (fuel + 1) t a =
      ((kids node).foldlM (fun t e => freeNode fuel t e.2) t).map fun t => t.free a := by
  conv_lhs => unfold freeNode
  rw [hget]
  cases hml : node.mlNode <;> cases hsl : node.slNode <;>
    simp [kids, hml, hsl, List.foldlM_map, Option.map_eq_bind, Option.bind_assoc]

/-- The node is the one at a path or below it. -/
def Below (A : Path → Option Addr) (q : Path) (x : Addr) : Prop := ∃ r, A (q ++ r) = some x

/-- A list of subtrees is freed one after the other. -/
theorem free_kids_spec (h : TreeAt tree A C) {fuel : Nat} {q : Path}
    (hfree : ∀ {l b t}, A (q ++ [l]) = some b →
      (∀ {x}, Below A (q ++ [l]) x → t.get x = tree.get x) → ∃ t', freeNode fuel t b = some t' ∧
        (∀ {x}, Below A (q ++ [l]) x → t'.get x = none) ∧
        ∀ {x}, ¬ Below A (q ++ [l]) x → t'.get x = t.get x) (es : List (Level CStr × Addr)) :
    ∀ {t : Heap Node}, (es.map Prod.fst).Nodup → (∀ e ∈ es, A (q ++ [e.1]) = some e.2) →
      (∀ e ∈ es, ∀ {x}, Below A (q ++ [e.1]) x → t.get x = tree.get x) →
      ∃ t', es.foldlM (fun t e => freeNode fuel t e.2) t = some t' ∧
        (∀ e ∈ es, ∀ {x}, Below A (q ++ [e.1]) x → t'.get x = none) ∧
        ∀ {x}, (∀ e ∈ es, ¬ Below A (q ++ [e.1]) x) → t'.get x = t.get x := by
  induction es with
  | nil => exact fun _ _ _ => ⟨_, rfl, by simp, fun _ => rfl⟩
  | cons e es ih =>
      intro t hnodup hes ht
      rw [List.map_cons, List.nodup_cons] at hnodup
      -- two children have no node below them in common
      have hdisjoint : ∀ e' ∈ es, ∀ {x}, Below A (q ++ [e'.1]) x → ¬ Below A (q ++ [e.1]) x := by
        intro e' he' x hx' hx
        obtain ⟨r, hr⟩ := hx
        obtain ⟨r', hr'⟩ := hx'
        have heq := h.shape.inj hr hr'
        simp only [List.append_assoc, List.singleton_append, List.append_cancel_left_eq,
          List.cons.injEq] at heq
        exact hnodup.1 (heq.1 ▸ List.mem_map_of_mem he')
      obtain ⟨t₁, hrun, hgone, hkeep⟩ :=
        hfree (hes e List.mem_cons_self) (ht e List.mem_cons_self)
      obtain ⟨t₂, hrest, hgone', hkeep'⟩ := @ih t₁ hnodup.2
        (fun e' he' => hes e' (List.mem_cons_of_mem _ he')) fun e' he' x hx =>
          (hkeep (hdisjoint e' he' hx)).trans (ht e' (List.mem_cons_of_mem _ he') hx)
      refine ⟨t₂, ?_, fun e' he' x hx => ?_, fun {x} hx => ?_⟩
      · rw [List.foldlM_cons, hrun]
        exact hrest
      · by_cases hrestx : ∃ e'' ∈ es, Below A (q ++ [e''.1]) x
        · obtain ⟨e'', he'', hx''⟩ := hrestx
          exact hgone' e'' he'' hx''
        · simp only [not_exists, not_and] at hrestx
          rcases List.mem_cons.mp he' with rfl | he'
          · rw [hkeep' hrestx]
            exact hgone hx
          · exact absurd hx (hrestx e' he')
      · rw [hkeep' fun e' he' => hx e' (List.mem_cons_of_mem _ he'),
          hkeep (hx e List.mem_cons_self)]

/-- Freeing a node frees what is below it, each node once, and nothing else. -/
theorem free_node_spec (h : TreeAt tree A C) {fuel : Nat} :
    ∀ {q : Path} {a : Addr} {t : Heap Node}, A q = some a →
      (∀ r, (A (q ++ r)).isSome → r.length < fuel) →
      (∀ {x}, Below A q x → t.get x = tree.get x) → ∃ t', freeNode fuel t a = some t' ∧
        (∀ {x}, Below A q x → t'.get x = none) ∧ ∀ {x}, ¬ Below A q x → t'.get x = t.get x := by
  induction fuel with
  | zero =>
      intro q a t ha hdepth _
      exact absurd (hdepth [] (by simp [ha])) (by simp)
  | succ fuel ih =>
      intro q a t ha hdepth ht
      obtain ⟨node, hget, hchild, -⟩ := h.shape.node ha
      have hkids := lists_kids (h.keys hget)
      have hself : Below A q a := ⟨[], by simpa using ha⟩
      have hdown : ∀ {l x}, Below A (q ++ [l]) x → Below A q x := by
        rintro l x ⟨r, hr⟩
        exact ⟨l :: r, by simpa using hr⟩
      have hbelow : ∀ e ∈ kids node, A (q ++ [e.1]) = some e.2 := fun e he =>
        (hchild e.1).symm.trans (hkids.mem_iff.mp he)
      have hfree : ∀ {l b t'}, A (q ++ [l]) = some b →
          (∀ {x}, Below A (q ++ [l]) x → t'.get x = tree.get x) →
          ∃ t'', freeNode fuel t' b = some t'' ∧
            (∀ {x}, Below A (q ++ [l]) x → t''.get x = none) ∧
            ∀ {x}, ¬ Below A (q ++ [l]) x → t''.get x = t'.get x := by
        intro l b t' hb htb
        refine ih hb (fun r hr => ?_) htb
        have := hdepth (l :: r) (by simpa using hr)
        simpa using this
      obtain ⟨t₁, hrun, hgone, hkeep⟩ := free_kids_spec (q := q) h hfree (kids node) hkids.nodup
        hbelow fun e _ x hx => ht (hdown hx)
      refine ⟨t₁.free a, ?_, fun {x} hx => ?_, fun {x} hx => ?_⟩
      · rw [free_node_kids ((ht hself).trans hget), hrun]
        rfl
      · rw [Heap.get_free]
        split_ifs with hxa
        · rfl
        · obtain ⟨r, hr⟩ := hx
          cases r with
          | nil =>
              rw [List.append_nil, ha] at hr
              exact absurd (Option.some.inj hr).symm hxa
          | cons l r =>
              rw [show q ++ l :: r = q ++ [l] ++ r by simp] at hr
              obtain ⟨b, hb⟩ := h.shape.closed_append hr
              exact hgone (l, b) (hkids.mem_iff.mpr ((hchild l).trans hb)) ⟨r, hr⟩
      · have hxa : x ≠ a := fun heq => hx (heq ▸ hself)
        rw [Heap.get_free, if_neg hxa]
        exact hkeep fun e _ hx' => hx (hdown hx')

/-- Freeing the tree frees every node, and none of them twice. -/
theorem free_tree_spec (h : TreeAt tree A C) :
    ∃ t', freeTree tree = some t' ∧ ∀ x, t'.get x = none := by
  obtain ⟨t', hrun, hgone, hkeep⟩ := free_node_spec h (t := tree) h.shape.root_eq (fun r hr => by
    obtain ⟨b, hb⟩ := Option.isSome_iff_exists.mp hr
    exact h.shape.length_lt hb) fun _ => rfl
  refine ⟨t', hrun, fun x => ?_⟩
  by_cases hx : Below A [] x
  · exact hgone hx
  · rw [hkeep hx]
    cases hget : tree.get x with
    | none => rfl
    | some node =>
        obtain ⟨q, hq⟩ := h.shape.reach hget
        exact absurd ⟨q, hq⟩ hx

end Free

section Runs

variable {subs : Heap Subscriber}

/-- The registered subscribers with a pattern, counted in the list of registrations. -/
theorem Holds.card_pattern {S : Finset Addr} {st : Store} {R : List Registration}
    (h : Holds subs S st R) (q : Path) : (R.filter fun e => e.pattern = q).length =
      (S.filter fun p => patternOf subs p = some q).card := by
  have hnodup : ((R.filter fun e => e.pattern = q).map (·.sub)).Nodup :=
    h.repr.nodup.sublist (List.filter_sublist.map _)
  rw [← List.length_map (f := (·.sub)), ← List.toFinset_card_of_nodup hnodup]
  congr 1
  ext p
  simp only [List.mem_toFinset, List.mem_map, List.mem_filter, decide_eq_true_eq,
    Finset.mem_filter, h.mem]
  constructor
  · rintro ⟨e, ⟨he, rfl⟩, rfl⟩
    exact ⟨⟨e, he, rfl⟩, h.pattern_of he⟩
  · rintro ⟨⟨e, he, rfl⟩, hpat⟩
    exact ⟨e, ⟨he, Option.some.inj ((h.pattern_of he).symm.trans hpat)⟩, rfl⟩

/-- After any run, the printed tree has one line for every prefix of the pattern of a registered
subscriber, with the number of those that have just this pattern. -/
theorem print_tree_after_run (hobj : Objects subs) (ops : List Op)
    (hops : ∀ op ∈ ops, (subs.get op.sub).isSome) :
    ∃ (st : Store) (qs : List Path), run ops ⟨initTree, subs⟩ = some st ∧ qs.Nodup ∧
      (∀ q, q ∈ qs ↔ q = [] ∨
        ∃ p ∈ registeredAfter subs ops, ∃ pat, patternOf subs p = some pat ∧ q <+: pat) ∧
      printTree st.tree = some (qs.map fun q => lineAt (.ofString "#root") 0 q
        ((registeredAfter subs ops).filter fun p => patternOf subs p = some q).card) := by
  obtain ⟨st, R, hrun, h⟩ := run_spec hobj hops
  obtain ⟨qs, hnodup, hmem, hprint⟩ := print_tree_spec h.repr
  refine ⟨st, qs, hrun, hnodup, fun q => ?_, ?_⟩
  · rw [hmem, ← h.tidy.paths, h.repr.paths]
  · rw [hprint]
    simp only [h.card_pattern]

/-- The tree of two patterns that have their first level in common. -/
theorem print_tree_after_two : ∃ (st : Store) (qs : List Path),
    run [.add 0, .add 1] ⟨initTree, twoSubs⟩ = some st ∧ [.exact (.ofString "a")] ∈ qs ∧
      printTree st.tree = some (qs.map fun q => lineAt (.ofString "#root") 0 q
        ((registeredAfter twoSubs [.add 0, .add 1]).filter
          fun p => patternOf twoSubs p = some q).card) := by
  obtain ⟨st, qs, hrun, -, hmem, hprint⟩ :=
    print_tree_after_run two_subs_objects [.add 0, .add 1] (by decide)
  refine ⟨st, qs, hrun, (hmem _).mpr (Or.inr ?_), hprint⟩
  exact ⟨0, by decide, [.exact (.ofString "a"), .exact (.ofString "b")], by decide, by decide⟩

end Runs

end Bpsp.Topic
