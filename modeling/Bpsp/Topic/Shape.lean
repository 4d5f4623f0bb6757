import Bpsp.CLib.PathTree
import Bpsp.CLib.Wildcard
import Bpsp.Topic.Tree

/-!
# The shape of the topic tree

`TreeAt tree A C` says that the nodes of the heap form a tree whose paths are sequences of pattern
levels: `A q` is the node at path `q` and `C q` its table of subscribers. The three kinds of child
link of `topic__node` are the three kinds of level, so the branches of the insertion and of the
pruning loop are one operation on paths (`descend_spec`, `prune_loop_spec`).
-/

namespace Bpsp.Topic

open CLib Wildcard

/-- A position in the tree: the levels on the way from the root. -/
abbrev Path := List (Level CStr)

/-- The level that the code takes a token for. -/
def levelOf (tok : CStr) : Level CStr :=
  if tok = star then .multi else if tok = plus then .single else .exact tok

/-- The pointers of a node by level. -/
def links : Links Node (Level CStr) where
  child node
    | .multi => node.mlNode
    | .single => node.slNode
    | .exact tok => node.nodes.find tok
  parent := Node.parent

/-- The node at a path. -/
def nodeAt (tree : Heap Node) (q : Path) : Option Addr := links.walk tree root q

/-- The tree has node `A q` with subscriber table `C q` at each path `q`, and no other node. -/
structure TreeAt (tree : Heap Node) (A : Path → Option Addr)
    (C : Path → HashTable CStr Addr) : Prop where
  shape : IsTree links tree root A
  subs : ∀ {q a node}, A q = some a → tree.get a = some node → node.subs = C q
  absent : ∀ {q}, A q = none → C q = []
  keys : ∀ {a node}, tree.get a = some node → node.nodes.keys.Nodup

/-- A node without children has none of the three kinds of child link. -/
theorem no_child_iff (node : Node) :
    nodeNumChildNodes node = 0 ↔ ∀ l, links.child node l = none := by
  simp only [nodeNumChildNodes, links]
  constructor
  · intro h l
    cases hml : node.mlNode <;> cases hsl : node.slNode <;> simp [hml, hsl] at h
    cases l <;> simp_all
  · intro h
    have hnodes : node.nodes = [] := HashTable.find_eq_nil_iff.mpr fun tok => h (.exact tok)
    simp [hnodes, show node.mlNode = none from h .multi, show node.slNode = none from h .single]

namespace TreeAt

variable {tree : Heap Node} {A : Path → Option Addr} {C : Path → HashTable CStr Addr}

theorem node_at (h : TreeAt tree A C) : nodeAt tree = A := funext h.shape.walk_root

/-- A node is empty when its table and all paths below it are. -/
theorem is_empty_iff (h : TreeAt tree A C) {q : Path} {a : Addr} {node : Node}
    (ha : A q = some a) (hget : tree.get a = some node) :
    nodeIsEmpty node = true ↔ C q = [] ∧ ∀ l, A (q ++ [l]) = none := by
  obtain ⟨node', hget', hchild, -⟩ := h.shape.node ha
  obtain rfl : node' = node := Option.some.inj (hget'.symm.trans hget)
  simp only [nodeIsEmpty, Bool.and_eq_true, beq_iff_eq, no_child_iff, nodeNumSubs,
    List.length_eq_zero_iff, h.subs ha hget, hchild]

end TreeAt

/-- The heap after a new node `new` was linked below `cur` by `set`. -/
theorem get_linked {tree : Heap Node} {cur x : Addr} {node : Node} (set : Node → Node)
    (hget : tree.get cur = some node) :
    (((tree.alloc initNode).1.modify tree.next fun n => { n with parent := some cur }).modify
      cur set).get x =
      if x = cur then some (set node)
      else if x = tree.next then some { initNode with parent := some cur }
      else tree.get x := by
  have hne := Heap.ne_next_of_get hget
  by_cases hx : x = cur
  · subst hx
    simp [Heap.get_modify, Heap.get_alloc, hne, hget]
  · by_cases hx' : x = tree.next
    · simp [Heap.get_modify, Heap.get_alloc, hx', hne.symm]
    · simp [Heap.get_modify, Heap.get_alloc, hx, hx']

/-- A new node linked below the node at `q` extends the tree by one path. -/
theorem link_spec {tree tree' : Heap Node} {A : Path → Option Addr}
    {C : Path → HashTable CStr Addr} {q : Path} {l : Level CStr} {cur : Addr} {node : Node}
    (h : TreeAt tree A C) (hcur : A q = some cur) (hget : tree.get cur = some node)
    (hnone : A (q ++ [l]) = none) (set : Node → Node)
    (hset : tree' = ((tree.alloc initNode).1.modify tree.next fun n =>
      { n with parent := some cur }).modify cur set)
    (hchild : ∀ l', links.child (set node) l' =
      if l' = l then some tree.next else links.child node l')
    (hsubs : (set node).subs = node.subs) (hparent : (set node).parent = node.parent)
    (hkeys : (set node).nodes.keys.Nodup) :
    TreeAt tree' (Function.update A (q ++ [l]) (some tree.next)) C := by
  have hne := Heap.ne_next_of_get hget
  have hall : ∀ x, tree'.get x = if x = cur then some (set node)
      else if x = tree.next then some { initNode with parent := some cur } else tree.get x :=
    fun x => hset ▸ get_linked set hget
  have hnew : ∀ {r x}, A r = some x → x ≠ tree.next := by
    intro r x hr
    obtain ⟨_, hlive, _⟩ := h.shape.node hr
    exact Heap.ne_next_of_get hlive
  refine ⟨?_, ?_, ?_, ?_⟩
  · have hleaf : tree'.get tree.next = some { initNode with parent := some cur } := by
      rw [hall, if_neg hne.symm, if_pos rfl]
    have hnode : tree'.get cur = some (set node) := by rw [hall, if_pos rfl]
    refine h.shape.link hcur hnone hget (Heap.get_next tree) hleaf ?_ rfl hnode hchild hparent ?_
    · intro l'
      cases l' <;> rfl
    · intro x hxa hxb
      rw [hall, if_neg hxa, if_neg hxb]
  · intro r x nd hr hx
    rw [hall] at hx
    by_cases hrl : r = q ++ [l]
    · rw [hrl, Function.update_self, Option.some.injEq] at hr
      subst hr
      rw [if_neg hne.symm, if_pos rfl, Option.some.injEq] at hx
      rw [← hx, hrl, h.absent hnone]
      rfl
    · rw [Function.update_of_ne hrl] at hr
      rw [if_neg (hnew hr)] at hx
      by_cases hxc : x = cur
      · subst hxc
        rw [if_pos rfl, Option.some.injEq] at hx
        rw [← hx, hsubs]
        exact h.subs hr hget
      · rw [if_neg hxc] at hx
        exact h.subs hr hx
  · intro r hr
    by_cases hrl : r = q ++ [l]
    · simp [hrl] at hr
    · rw [Function.update_of_ne hrl] at hr
      exact h.absent hr
  · intro x nd hx
    rw [hall] at hx
    split_ifs at hx with h1 h2
    · exact Option.some.inj hx ▸ hkeys
    · rw [← Option.some.inj hx]
      exact List.nodup_nil
    · exact h.keys hx

/-- The tree after a new node was linked below `cur`. -/
def linked (tree : Heap Node) (cur : Addr) (set : Node → Node) : Heap Node :=
  ((tree.alloc initNode).1.modify tree.next fun n => { n with parent := some cur }).modify cur set

/-- One turn of the insertion loop, for every kind of token: the child is there, or it is linked by
one update of the node. -/
theorem descend_eq {tree : Heap Node} {cur : Addr} {node : Node} (hget : tree.get cur = some node)
    (hnodup : node.nodes.keys.Nodup) (tok : CStr) (mem : Bool) :
    ∃ set : Node → Node, descend mem tree cur tok =
        (match links.child node (levelOf tok) with
        | some b => some (some (tree, b))
        | none => if mem then some (some (linked tree cur set, tree.next)) else some none) ∧
      (∀ l', links.child (set node) l' =
        if l' = levelOf tok then some tree.next else links.child node l') ∧
      (set node).subs = node.subs ∧ (set node).parent = node.parent ∧
      (links.child node (levelOf tok) = none → (set node).nodes.keys.Nodup) := by
  by_cases hstar : tok = star
  · subst hstar
    refine ⟨fun n => { n with mlNode := some tree.next }, ?_, ?_, rfl, rfl, fun _ => hnodup⟩
    · cases hml : node.mlNode <;>
        simp [descend, hget, levelOf, links, hml, linked]
    · intro l'
      cases l' <;> simp [levelOf, links]
  by_cases hplus : tok = plus
  · subst hplus
    refine ⟨fun n => { n with slNode := some tree.next }, ?_, ?_, rfl, rfl, fun _ => hnodup⟩
    · cases hsl : node.slNode <;>
        simp [descend, hget, levelOf, links, hsl, hstar, linked]
    · intro l'
      cases l' <;> simp [levelOf, hstar, links]
  · refine ⟨fun n => { n with nodes := n.nodes.add tok tree.next }, ?_, ?_, rfl, rfl, ?_⟩
    · cases hfind : node.nodes.find tok <;>
        simp [descend, hget, levelOf, links, hfind, hstar, hplus, linked]
    · intro l'
      cases l' <;> simp [levelOf, hstar, hplus, links, HashTable.find_add, eq_comm]
    · intro hnone
      simp only [levelOf, hstar, hplus, if_false, links] at hnone
      exact HashTable.nodup_add hnodup hnone

/-- One turn of the insertion loop finds the node for the token or tries to make it. -/
theorem descend_cases {tree : Heap Node} {A : Path → Option Addr} {C : Path → HashTable CStr Addr}
    {q : Path} {cur : Addr} (h : TreeAt tree A C) (hcur : A q = some cur) (tok : CStr) (mem : Bool) :
    (∃ b, A (q ++ [levelOf tok]) = some b ∧ descend mem tree cur tok = some (some (tree, b))) ∨
    A (q ++ [levelOf tok]) = none ∧ ∃ tree',
      descend mem tree cur tok = some (if mem then some (tree', tree.next) else none) ∧
      TreeAt tree' (Function.update A (q ++ [levelOf tok]) (some tree.next)) C ∧
      tree'.next = tree.next + 1 := by
  obtain ⟨node, hget, hchild, -⟩ := h.shape.node hcur
  obtain ⟨set, hrun, hset, hsubs, hparent, hkeys⟩ := descend_eq hget (h.keys hget) tok mem
  rw [hchild] at hrun hkeys
  cases hA : A (q ++ [levelOf tok]) with
  | some b => exact Or.inl ⟨b, rfl, by rw [hrun, hA]⟩
  | none =>
      have hlink := link_spec h hcur hget hA set rfl hset hsubs hparent (hkeys hA)
      refine Or.inr ⟨rfl, linked tree cur set, ?_, hlink, rfl⟩
      rw [hrun, hA]
      cases mem <;> rfl

/-- One turn of the insertion loop ends at the node for the token, which is new exactly when the
tree had no node there. -/
theorem descend_spec {tree : Heap Node} {A : Path → Option Addr} {C : Path → HashTable CStr Addr}
    {q : Path} {cur : Addr} (h : TreeAt tree A C) (hcur : A q = some cur) (tok : CStr) :
    ∃ tree' A' b, descend true tree cur tok = some (some (tree', b)) ∧ TreeAt tree' A' C ∧
      A' (q ++ [levelOf tok]) = some b ∧ (∀ {r x}, A r = some x → A' r = some x) ∧
      ∀ r, (A' r).isSome ↔ (A r).isSome ∨ r = q ++ [levelOf tok] := by
  rcases descend_cases h hcur tok true with ⟨b, hA, hrun⟩ | ⟨hA, tree', hrun, hlink, -⟩
  · refine ⟨tree, A, b, hrun, h, hA, id, fun r => ?_⟩
    constructor
    · exact Or.inl
    · rintro (hr | rfl)
      · exact hr
      · simp [hA]
  · refine ⟨tree', _, tree.next, hrun, hlink, by simp, ?_, fun r => ?_⟩
    · intro r x hr
      have hne : r ≠ q ++ [levelOf tok] := by
        rintro rfl
        simp [hA] at hr
      rwa [Function.update_of_ne hne]
    · by_cases hr : r = q ++ [levelOf tok]
      · simp [hr]
      · simp [hr]

/-- The insertion loop reaches the node at the end of the tokens, creates the nodes that are
missing on the way, and adds the subscriber there. -/
theorem add_loop_spec {st : Store} {A : Path → Option Addr} {C : Path → HashTable CStr Addr}
    {q : Path} {cur p : Addr} {toks : List CStr} (h : TreeAt st.tree A C) (hcur : A q = some cur)
    (hne : toks ≠ []) (hstar : ∀ t ∈ toks.dropLast, t ≠ star) :
    ∃ tree' A' b, addLoop (fun _ => true) st cur p toks =
        nodeAddSub true { st with tree := tree' } b p ∧ TreeAt tree' A' C ∧
      A' (q ++ toks.map levelOf) = some b ∧ (∀ {r x}, A r = some x → A' r = some x) ∧
      ∀ r, (A' r).isSome ↔ (A r).isSome ∨ ∃ s, s ≠ [] ∧ s <+: toks.map levelOf ∧ r = q ++ s := by
  induction toks generalizing st A q cur with
  | nil => exact absurd rfl hne
  | cons tok rest ih =>
      obtain ⟨tree₁, A₁, b₁, hrun, h₁, hb₁, hkeep₁, hsome₁⟩ := descend_spec h hcur tok
      cases rest with
      | nil =>
          refine ⟨tree₁, A₁, b₁, ?_, h₁, by simpa using hb₁, hkeep₁, fun r => ?_⟩
          · simp [addLoop, hrun]
          · rw [hsome₁]
            refine or_congr_right ⟨?_, ?_⟩
            · rintro rfl
              exact ⟨[levelOf tok], by simp, by simp, rfl⟩
            · rintro ⟨s, hs, hpre, rfl⟩
              obtain ⟨l, s, rfl⟩ := List.exists_cons_of_ne_nil hs
              obtain ⟨rfl, hnil⟩ : l = levelOf tok ∧ s = [] := by
                simpa [List.cons_prefix_cons] using hpre
              rw [hnil]
      | cons tok₂ rest =>
          have htok : tok ≠ star := hstar tok (by simp)
          have hrest : ∀ t ∈ (tok₂ :: rest).dropLast, t ≠ star := fun t ht =>
            hstar t (by simpa using Or.inr ht)
          obtain ⟨tree', A', b, hloop, h', hb, hkeep, hsome⟩ :=
            @ih { st with tree := tree₁ } A₁ _ b₁ h₁ hb₁ (by simp) hrest
          refine ⟨tree', A', b, ?_, h', by simpa using hb, fun hr => hkeep (hkeep₁ hr), fun r => ?_⟩
          · simpa [addLoop, hrun, htok] using hloop
          · rw [hsome, hsome₁, or_assoc]
            refine or_congr_right ⟨?_, ?_⟩
            · rintro (rfl | ⟨s, hs, hpre, rfl⟩)
              · exact ⟨[levelOf tok], by simp, by simp, rfl⟩
              · refine ⟨levelOf tok :: s, by simp, ?_, by simp⟩
                rw [List.map_cons, List.cons_prefix_cons]
                exact ⟨rfl, hpre⟩
            · rintro ⟨s, hs, hpre, rfl⟩
              cases s with
              | nil => exact absurd rfl hs
              | cons l s =>
                  rw [List.map_cons, List.cons_prefix_cons] at hpre
                  obtain ⟨rfl, hpre⟩ := hpre
                  by_cases hnil : s = []
                  · exact Or.inl (by rw [hnil])
                  · exact Or.inr ⟨s, hnil, hpre, by simp⟩

/-- Replacing the subscriber table of the node at a path. -/
theorem set_subs_spec {tree : Heap Node} {A : Path → Option Addr}
    {C : Path → HashTable CStr Addr} {q : Path} {a : Addr} (h : TreeAt tree A C)
    (ha : A q = some a) (f : HashTable CStr Addr → HashTable CStr Addr) :
    TreeAt (tree.modify a fun n => { n with subs := f n.subs }) A
      (Function.update C q (f (C q))) := by
  obtain ⟨node, hget, -, -⟩ := h.shape.node ha
  have hall : ∀ x, (tree.modify a fun n => { n with subs := f n.subs }).get x =
      if x = a then some { node with subs := f node.subs } else tree.get x := by
    intro x
    rw [Heap.get_modify, hget]
    rfl
  refine ⟨h.shape.relabel ?_ ?_, ?_, ?_, ?_⟩
  · intro x nd hx
    rw [hall]
    by_cases hxa : x = a
    · subst hxa
      obtain rfl : node = nd := Option.some.inj (hget.symm.trans hx)
      refine ⟨_, if_pos rfl, ?_, rfl⟩
      funext l
      cases l <;> rfl
    · exact ⟨nd, by rw [if_neg hxa, hx], rfl, rfl⟩
  · intro x nd hx
    rw [hall] at hx
    by_cases hxa : x = a
    · exact ⟨node, hxa ▸ hget⟩
    · exact ⟨nd, by rwa [if_neg hxa] at hx⟩
  · intro r x nd hr hx
    rw [hall] at hx
    by_cases hrq : r = q
    · subst hrq
      obtain rfl : a = x := Option.some.inj (ha.symm.trans hr)
      rw [if_pos rfl, Option.some.injEq] at hx
      rw [← hx, Function.update_self, ← h.subs hr hget]
    · have hxa : x ≠ a := by
        rintro rfl
        exact hrq (h.shape.inj hr ha)
      rw [if_neg hxa] at hx
      rw [Function.update_of_ne hrq]
      exact h.subs hr hx
  · intro r hr
    have hrq : r ≠ q := by
      rintro rfl
      simp [ha] at hr
    rw [Function.update_of_ne hrq]
    exact h.absent hr
  · intro x nd hx
    rw [hall] at hx
    split_ifs at hx with hxa
    · rw [← Option.some.inj hx]
      exact (h.keys hget :)
    · exact h.keys hx

/-- Freeing an empty node releases its cell and nothing else. -/
theorem free_node_empty {tree : Heap Node} {a : Addr} {node : Node} {fuel : Nat}
    (hget : tree.get a = some node) (hempty : ∀ l, links.child node l = none) (hfuel : fuel ≠ 0) :
    freeNode fuel tree a = some (tree.free a) := by
  obtain ⟨n, rfl⟩ := Nat.exists_eq_succ_of_ne_zero hfuel
  have hnodes : node.nodes = [] := HashTable.find_eq_nil_iff.mpr fun tok => hempty (.exact tok)
  simp [freeNode, hget, hnodes, show node.mlNode = none from hempty .multi,
    show node.slNode = none from hempty .single]

/-- The pruning loop cuts the link for a token, of whichever kind it is, by one update of the
parent. -/
theorem cut_link (tree : Heap Node) (par : Addr) {leaf : Addr} {node : Node} {tok : CStr}
    (hnodup : node.nodes.keys.Nodup) (hlink : links.child node (levelOf tok) = some leaf) :
    ∃ set : Node → Node,
      (if tok = star then tree.modify par fun n => { n with mlNode := none }
      else if tok = plus then tree.modify par fun n => { n with slNode := none }
      else if (node.nodes.find tok).isSome then
        tree.modify par fun n => { n with nodes := n.nodes.del tok }
      else tree) = tree.modify par set ∧
      (∀ l, links.child (set node) l = if l = levelOf tok then none else links.child node l) ∧
      (set node).subs = node.subs ∧ (set node).parent = node.parent ∧
      (set node).nodes.keys.Nodup := by
  by_cases hstar : tok = star
  · subst hstar
    refine ⟨fun n => { n with mlNode := none }, by simp, fun l => ?_, rfl, rfl, hnodup⟩
    cases l <;> simp [levelOf, links]
  by_cases hplus : tok = plus
  · subst hplus
    refine ⟨fun n => { n with slNode := none }, by simp [hstar], fun l => ?_, rfl, rfl, hnodup⟩
    cases l <;> simp [levelOf, links, hstar]
  · have hfind : node.nodes.find tok = some leaf := by
      simpa [levelOf, hstar, hplus, links] using hlink
    refine ⟨fun n => { n with nodes := n.nodes.del tok }, by simp [hstar, hplus, hfind],
      fun l => ?_, rfl, rfl, HashTable.nodup_del hnodup tok⟩
    cases l <;> simp [levelOf, hstar, hplus, links, HashTable.find_del hnodup, eq_comm]

/-- Cutting off and freeing an empty node removes its path from the tree. -/
theorem unlink_spec {tree : Heap Node} {A : Path → Option Addr} {C : Path → HashTable CStr Addr}
    {q : Path} {l : Level CStr} {par leaf : Addr} {node : Node} (h : TreeAt tree A C)
    (hpar : A q = some par) (hleaf : A (q ++ [l]) = some leaf) (hget : tree.get par = some node)
    (hC : C (q ++ [l]) = []) (hbelow : ∀ l', A (q ++ [l] ++ [l']) = none) (set : Node → Node)
    (hchild : ∀ l', links.child (set node) l' = if l' = l then none else links.child node l')
    (hsubs : (set node).subs = node.subs) (hparent : (set node).parent = node.parent)
    (hkeys : (set node).nodes.keys.Nodup) :
    TreeAt ((tree.modify par set).free leaf) (Function.update A (q ++ [l]) none) C := by
  have hne : par ≠ leaf := by
    rintro rfl
    simpa using h.shape.inj hpar hleaf
  have hall : ∀ x, ((tree.modify par set).free leaf).get x = if x = leaf then none
      else if x = par then some (set node) else tree.get x := by
    intro x
    rw [Heap.get_free, Heap.get_modify, hget]
    rfl
  refine ⟨?_, ?_, ?_, ?_⟩
  · refine h.shape.unlink hpar hleaf hbelow hget ?_ ?_ hchild hparent ?_
    · rw [hall, if_pos rfl]
    · rw [hall, if_neg hne, if_pos rfl]
    · intro x hxa hxb
      rw [hall, if_neg hxb, if_neg hxa]
  · intro r x nd hr hx
    by_cases hrq : r = q ++ [l]
    · simp [hrq] at hr
    rw [Function.update_of_ne hrq] at hr
    rw [hall] at hx
    split_ifs at hx with h1 h2
    · rw [← Option.some.inj hx, hsubs]
      exact h.subs (h2 ▸ hr) hget
    · exact h.subs hr hx
  · intro r hr
    by_cases hrq : r = q ++ [l]
    · rw [hrq, hC]
    · rw [Function.update_of_ne hrq] at hr
      exact h.absent hr
  · intro x nd hx
    rw [hall] at hx
    split_ifs at hx with h1 h2
    · exact Option.some.inj hx ▸ hkeys
    · exact h.keys hx

/-- One turn of the pruning loop at an empty node. -/
theorem prune_step {tree : Heap Node} {A : Path → Option Addr} {C : Path → HashTable CStr Addr}
    {q : Path} {tok : CStr} {leaf : Addr} (rest : List CStr) (h : TreeAt tree A C)
    (hleaf : A (q ++ [levelOf tok]) = some leaf) (hC : C (q ++ [levelOf tok]) = [])
    (hbelow : ∀ l, A (q ++ [levelOf tok] ++ [l]) = none) :
    ∃ tree' par, A q = some par ∧
      pruneLoop tree leaf (tok :: rest) = pruneLoop tree' par rest ∧
      TreeAt tree' (Function.update A (q ++ [levelOf tok]) none) C ∧ tree'.next = tree.next := by
  obtain ⟨node, hget, hchild, hparent⟩ := h.shape.node hleaf
  obtain ⟨par, hpar⟩ := h.shape.closed hleaf
  obtain ⟨parNode, hgetPar, hchildPar, -⟩ := h.shape.node hpar
  have hempty := (h.is_empty_iff hleaf hget).mpr ⟨hC, hbelow⟩
  have hparent' : node.parent = some par :=
    hparent.trans ((IsTree.parentAt_concat q (levelOf tok)).trans hpar)
  obtain ⟨set, hset, hsetChild, hsetSubs, hsetParent, hsetKeys⟩ :=
    cut_link tree par (h.keys hgetPar) ((hchildPar _).trans hleaf)
  have hne : leaf ≠ par := by
    rintro rfl
    simpa using h.shape.inj hleaf hpar
  have hgetLeaf : (tree.modify par set).get leaf = some node := by
    rw [Heap.get_modify, if_neg hne, hget]
  have hnext : tree.next ≠ 0 := by
    intro h0
    have := tree.fresh leaf (by omega)
    exact absurd (hget.symm.trans this) (by simp)
  have hfree := free_node_empty hgetLeaf (fun l => (hchild l).trans (hbelow l)) hnext
  refine ⟨_, par, hpar, ?_, unlink_spec h hpar hleaf hgetPar hC hbelow set hsetChild hsetSubs
    hsetParent hsetKeys, rfl⟩
  simp only [pruneLoop, hget, hempty, if_true, hparent', hgetPar, hset, hfree, bind,
    Option.bind_some]

/-- The pruning loop removes the nodes on the way to `q` that no needed path (`K`) runs through,
and keeps all others at their addresses. -/
theorem prune_loop_spec {tree : Heap Node} {A : Path → Option Addr}
    {C : Path → HashTable CStr Addr} {K : Path → Prop} {toks : List CStr} {leaf : Addr}
    (h : TreeAt tree A C) (hleaf : A (toks.map levelOf) = some leaf)
    (hsome : ∀ r, (A r).isSome ↔ r = [] ∨ r <+: toks.map levelOf ∨ K r)
    (hK : ∀ {r r'}, K r' → r <+: r' → K r) (hC : ∀ {r}, C r ≠ [] → K r)
    (hneed : ∀ {r}, K r → ∃ r', r <+: r' ∧ C r' ≠ []) :
    ∃ tree' A', pruneLoop tree leaf toks.reverse = some tree' ∧ TreeAt tree' A' C ∧
      (∀ {r x}, A' r = some x → A r = some x) ∧ ∀ r, (A' r).isSome ↔ r = [] ∨ K r := by
  induction toks using List.reverseRecOn generalizing tree A leaf with
  | nil =>
      refine ⟨tree, A, rfl, h, id, fun r => ?_⟩
      rw [hsome]
      simp only [List.map_nil, List.prefix_nil]
      tauto
  | append_singleton toks tok ih =>
      rw [List.map_append, List.map_singleton] at hleaf hsome
      generalize toks.map levelOf = q at *
      rw [List.reverse_append, List.reverse_singleton, List.singleton_append]
      by_cases hempty : C (q ++ [levelOf tok]) = [] ∧ ∀ l, A (q ++ [levelOf tok] ++ [l]) = none
      · have hnotK : ¬ K (q ++ [levelOf tok]) := by
          intro hk
          obtain ⟨r', ⟨s, rfl⟩, hr'⟩ := hneed hk
          cases s with
          | nil => exact hr' (by simpa using hempty.1)
          | cons l s =>
              have hin : (A (q ++ [levelOf tok] ++ l :: s)).isSome :=
                (hsome _).mpr (Or.inr (Or.inr (hC hr')))
              rw [List.append_cons, h.shape.none_append (hempty.2 l)] at hin
              simp at hin
        obtain ⟨tree₁, par, hpar, hstep, h₁, -⟩ :=
          prune_step toks.reverse h hleaf hempty.1 hempty.2
        obtain ⟨tree', A', hrun, h', hback, hsome'⟩ := ih h₁
          (by rw [Function.update_of_ne (by simp), hpar]) (fun r => by
            by_cases hrq : r = q ++ [levelOf tok]
            · subst hrq
              have hlong : ¬ q ++ [levelOf tok] <+: q := fun hp => by
                simpa using hp.length_le
              simp [hnotK, hlong]
            · rw [Function.update_of_ne hrq, hsome, List.prefix_concat_iff]
              tauto)
        refine ⟨tree', A', hstep.trans hrun, h', ?_, hsome'⟩
        intro r x hr
        have hr' := hback hr
        by_cases hrq : r = q ++ [levelOf tok]
        · rw [hrq, Function.update_self] at hr'
          simp at hr'
        · rwa [Function.update_of_ne hrq] at hr'
      · obtain ⟨node, hget, -, -⟩ := h.shape.node hleaf
        have hfull : nodeIsEmpty node = false := by
          rwa [← Bool.not_eq_true, h.is_empty_iff hleaf hget]
        have hKq : K (q ++ [levelOf tok]) := by
          by_contra hnot
          refine hempty ⟨by_contra fun hc => hnot (hC hc), fun l => ?_⟩
          by_contra hsomeL
          have hin := (hsome (q ++ [levelOf tok] ++ [l])).mp
            (Option.isSome_iff_ne_none.mpr hsomeL)
          rcases hin with h0 | hp | hk
          · simp at h0
          · have := hp.length_le
            simp at this
          · exact hnot (hK hk (List.prefix_append _ _))
        refine ⟨tree, A, by simp [pruneLoop, hget, hfull], h, id, fun r => ?_⟩
        rw [hsome]
        constructor
        · rintro (h0 | hp | hk)
          · exact Or.inl h0
          · exact Or.inr (hK hKq hp)
          · exact Or.inr hk
        · rintro (h0 | hk)
          · exact Or.inl h0
          · exact Or.inr (Or.inr hk)

/-- What a child contributes, when the link to it is set. -/
def childPointers (child : Option Addr) (found : Addr → Exec (List Addr)) : Exec (List Addr) :=
  match child with
  | none => some []
  | some a => found a

/-- The lookup with the pointers to the subscribers in the place of their copies. -/
def pointersLoop (tree : Heap Node) : Addr → List CStr → Exec (List Addr)
  | cur, [] => (tree.get cur).map fun node => node.subs.map Prod.snd
  | cur, tok :: rest => do
      let node ← tree.get cur
      let ml ← childPointers node.mlNode fun ml =>
        (tree.get ml).map fun mlNode => mlNode.subs.map Prod.snd
      let sl ← childPointers node.slNode fun sl => pointersLoop tree sl rest
      let next ← childPointers (node.nodes.find tok) fun next => pointersLoop tree next rest
      some (ml ++ sl ++ next)

/-- `topic__tree_find_subscribers`, with pointers. -/
def treeFindPointers (tree : Heap Node) (topic : CStr) : Exec (Option (List Addr)) :=
  match levels topic with
  | none => some none
  | some toks => (pointersLoop tree root toks).map some

/-- Copies of what the pointers refer to, after what was found before. -/
def copies (st : Store) (acc : List Subscriber) (pointers : List Addr) : Exec (List Subscriber) :=
  (pointers.mapM st.subs.get).map (acc ++ ·)

theorem copies_nil (st : Store) (acc : List Subscriber) : copies st acc [] = some acc := by
  simp [copies]

theorem copies_append (st : Store) (acc : List Subscriber) (ps ps' : List Addr) :
    copies st acc (ps ++ ps') = (copies st acc ps).bind fun acc => copies st acc ps' := by
  unfold copies
  rw [List.mapM_append]
  cases ps.mapM st.subs.get with
  | none => rfl
  | some subs => cases ps'.mapM st.subs.get <;> simp

theorem copies_live {st : Store} {pointers : List Addr}
    (h : ∀ p ∈ pointers, st.subs.get p = some (st.sub p)) (acc : List Subscriber) :
    copies st acc pointers = some (acc ++ pointers.map st.sub) := by
  have hall : pointers.mapM st.subs.get = some (pointers.map st.sub) := by
    induction pointers with
    | nil => rfl
    | cons p ps ih =>
        rw [List.mapM_cons, h p List.mem_cons_self, ih fun p' hp' => h p' (List.mem_cons_of_mem _ hp')]
        rfl
  unfold copies
  rw [hall]
  rfl

theorem copy_to_array_copies (st : Store) (acc : List Subscriber) (subs : HashTable CStr Addr) :
    ((copyToArray st subs).bind fun found => some (acc ++ found)) =
      copies st acc (subs.map Prod.snd) := by
  unfold copies copyToArray
  rw [List.mapM_map]
  exact (Option.map_eq_bind).symm

/-- What a child contributes, with copies and with pointers. -/
theorem concat_child_copies {st : Store} {child : Option Addr} {acc : List Subscriber}
    {found : Addr → Exec (List Subscriber)} {pointers : Addr → Exec (List Addr)}
    (h : ∀ a, (found a).map (acc ++ ·) = (pointers a).bind (copies st acc)) :
    concatChild child acc found = (childPointers child pointers).bind (copies st acc) := by
  cases child with
  | none => exact (copies_nil st acc).symm
  | some a => exact h a

/-- The lookup returns copies of what the pointers refer to. -/
theorem find_loop_pointers (st : Store) (toks : List CStr) : ∀ (cur : Addr) (acc : List Subscriber),
    findLoop st cur acc toks = (pointersLoop st.tree cur toks).bind (copies st acc) := by
  induction toks with
  | nil =>
      intro cur acc
      unfold findLoop pointersLoop
      cases st.tree.get cur with
      | none => rfl
      | some node => exact copy_to_array_copies st acc node.subs
  | cons tok rest ih =>
      intro cur acc
      unfold findLoop pointersLoop
      cases st.tree.get cur with
      | none => rfl
      | some node =>
          have hml : concatChild node.mlNode acc (fun ml => do
              let mlNode ← st.tree.get ml
              copyToArray st mlNode.subs) = (childPointers node.mlNode fun ml =>
              (st.tree.get ml).map fun mlNode => mlNode.subs.map Prod.snd).bind (copies st acc) := by
            refine concat_child_copies fun a => ?_
            cases st.tree.get a with
            | none => rfl
            | some mlNode =>
                rw [Option.map_eq_bind]
                exact copy_to_array_copies st acc mlNode.subs
          have hsl : ∀ acc, concatChild node.slNode acc (fun sl => findLoop st sl [] rest) =
              (childPointers node.slNode fun sl => pointersLoop st.tree sl rest).bind
                (copies st acc) := by
            refine fun acc => concat_child_copies fun a => ?_
            rw [ih, Option.map_bind]
            refine congrArg _ (funext fun ps => ?_)
            simp [copies]
          have hnext : ∀ acc, (match node.nodes.find tok with
              | none => some acc
              | some next => findLoop st next acc rest) =
              (childPointers (node.nodes.find tok) fun next => pointersLoop st.tree next rest).bind
                (copies st acc) := by
            intro acc
            cases node.nodes.find tok with
            | none => exact (copies_nil st acc).symm
            | some next => exact ih next acc
          simp only [bind, Option.bind_some] at hml ⊢
          simp only [hml, hsl, Option.bind_assoc, Option.bind_some, copies_append]
          -- a copy that fails and a pointer that is missing come to the same
          cases childPointers node.mlNode _ with
          | none => rfl
          | some ml =>
              cases childPointers node.slNode _ with
              | none =>
                  simp only [Option.bind_some, Option.bind_none]
                  cases copies st acc ml <;> rfl
              | some sl =>
                  simp only [Option.bind_some]
                  have hnone : ∀ x : Option (List Addr),
                      (x.bind fun _ => (none : Option (List Subscriber))) = none := by
                    rintro (_ | _) <;> rfl
                  cases copies st acc ml with
                  | none => exact (hnone _).symm
                  | some acc₁ =>
                      simp only [Option.bind_some]
                      cases copies st acc₁ sl with
                      | none => exact (hnone _).symm
                      | some acc₂ => exact hnext acc₂

/-- The lookup from the node at `q` visits the tables of the accepting paths. -/
theorem pointers_loop_spec {tree : Heap Node} {A : Path → Option Addr}
    {C : Path → HashTable CStr Addr} (h : TreeAt tree A C) {q : Path} {cur : Addr}
    (hcur : A q = some cur) (toks : List CStr) :
    pointersLoop tree cur toks = some (collect (fun q => (C q).map Prod.snd) q toks) := by
  induction toks generalizing q cur with
  | nil =>
      obtain ⟨node, hget, -, -⟩ := h.shape.node hcur
      simp [pointersLoop, hget, h.subs hcur hget, collect]
  | cons tok rest ih =>
      obtain ⟨node, hget, hchild, -⟩ := h.shape.node hcur
      have hml : (childPointers node.mlNode fun ml =>
          (tree.get ml).map fun mlNode => mlNode.subs.map Prod.snd) =
          some ((C (q ++ [.multi])).map Prod.snd) := by
        rw [show node.mlNode = A (q ++ [.multi]) from hchild .multi]
        cases hb : A (q ++ [.multi]) with
        | none =>
            rw [h.absent hb]
            rfl
        | some b =>
            obtain ⟨nodeB, hgetB, -, -⟩ := h.shape.node hb
            simp only [childPointers, hgetB, Option.map_some, h.subs hb hgetB]
      have hlink : ∀ l, (childPointers (links.child node l) fun b => pointersLoop tree b rest) =
          some (collect (fun q => (C q).map Prod.snd) (q ++ [l]) rest) := by
        intro l
        rw [hchild]
        cases hb : A (q ++ [l]) with
        | none =>
            refine congrArg some (collect_eq_nil (fun r => ?_) rest).symm
            rw [h.absent (h.shape.none_append hb r), List.map_nil]
        | some b => exact ih hb
      have hsl := hlink .single
      have hnext := hlink (.exact tok)
      simp only [links] at hsl hnext
      unfold pointersLoop collect
      simp only [hget, hml, hsl, hnext, bind, Option.bind_some]

end Bpsp.Topic
