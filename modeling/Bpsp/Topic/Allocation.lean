import Bpsp.Topic.Runs
import Bpsp.Topic.Tables

/-!
# Insertions that run out of memory

`topic__add_subscriber` makes the missing nodes one by one and does not remove them when a later
allocation fails, and `topic__node_add_sub` has set the `node` of the subscriber before it allocates
the table element. So a failed call leaves the tree as it was exactly when the first allocation that
it makes is the one that fails, and is not the one for the subscriber (`add_undone_iff`).
-/

namespace Bpsp.Topic

open CLib Wildcard

/-- A call, with what becomes of its allocations. -/
inductive AllocOp where
  | add (p : Addr) (alloc : Nat → Alloc)
  | del (p : Addr)

/-- One call. -/
def stepWith (st : Store) : AllocOp → Exec Store
  | .add p alloc => (addSubscriberWith alloc st p).map Prod.snd
  | .del p => (delSubscriber st p).map Prod.snd

/-- A sequence of calls. -/
def runWith : List AllocOp → Store → Exec Store
  | [], st => some st
  | op :: ops, st => do
      let st ← stepWith st op
      runWith ops st

/-- No table of the tree has the subscriber. -/
def Unregistered (st : Store) (p : Addr) : Prop :=
  ∀ a node id, st.tree.get a = some node → (id, p) ∉ node.subs

/-- The call returned, and when it returned an error the tree is as before and a subscriber that was
in no table still points to no node. -/
def UndoneBy (st : Store) (p : Addr) (result : Exec (Status × Store)) : Prop :=
  ∃ r, result = some r ∧ (r.1 ≠ .ok → r.2.tree = st.tree ∧
    (Unregistered st p → (st.sub p).node = none → (r.2.sub p).node = none))

/-- The number of levels of a pattern below `q` that have a node already. -/
def existing (tree : Heap Node) (q : Path) : Path → Nat
  | [] => 0
  | l :: rest =>
      if (nodeAt tree (q ++ [l])).isSome then existing tree (q ++ [l]) rest + 1 else 0

/-- With `d` levels that have a node: either the first allocation is for the level after them, and
it fails cleanly or no allocation fails, or the only allocation is the one for the subscriber, and
it succeeds or the subscriber was not off the tree (`off`). -/
def Recovers (alloc : Nat → Alloc) (d : Nat) (pat : Path) (off : Prop) : Prop :=
  (∃ l, pat[d]? = some l ∧
    (FailsCleanly (alloc d) l ∨ ∀ i, d ≤ i → i ≤ pat.length → alloc i = .succeeds)) ∨
  d = pat.length ∧ (alloc pat.length = .succeeds ∨ ¬ off)

/-- The subscriber is in no table and points to no node. -/
def Off (st : Store) (p : Addr) : Prop := Unregistered st p ∧ (st.sub p).node = none

theorem step_with_tables {st st' : Store} {C : Path → HashTable CStr Addr} (h : Tables st C)
    {op : AllocOp} (hstep : stepWith st op = some st') : ∃ C', Tables st' C' := by
  cases op with
  | add p alloc =>
      obtain ⟨r, hrun, rfl⟩ := Option.map_eq_some_iff.mp hstep
      cases hget : st.subs.get p with
      | none =>
          unfold addSubscriberWith at hrun
          rw [hget] at hrun
          cases hrun
      | some s =>
          rcases add_subscriber_with_cases h hget hrun with ⟨-, rfl⟩ |
            ⟨pat, tree', -, htree, -, rfl | ⟨b, -, hpoint, hr⟩⟩
          · exact ⟨C, h⟩
          · exact ⟨C, htree⟩
          · rcases hr with ⟨-, rfl⟩ | ⟨-, rfl⟩ | ⟨-, tree'', rfl, hadded, -⟩
            · exact ⟨C, hpoint⟩
            · exact ⟨C, hpoint⟩
            · exact ⟨_, hadded⟩
  | del p =>
      obtain ⟨r, hrun, rfl⟩ := Option.map_eq_some_iff.mp hstep
      cases hget : st.subs.get p with
      | none =>
          unfold delSubscriber at hrun
          rw [hget] at hrun
          cases hrun
      | some s =>
          rcases del_subscriber_cases h hget with ⟨-, hdel⟩ | ⟨a, -, -, hdel⟩ |
            ⟨a, pat, -, -, -, ⟨-, hdel⟩ | ⟨-, tree', hdel, htables, -⟩⟩
          · rw [hdel] at hrun
            exact ⟨C, Option.some.inj hrun ▸ h⟩
          · rw [hdel] at hrun
            cases hrun
          · rw [hdel] at hrun
            exact ⟨C, Option.some.inj hrun ▸ h⟩
          · rw [hdel] at hrun
            obtain rfl := Option.some.inj hrun
            exact ⟨_, htables⟩

/-- Every run of calls that is defined ends in a tree. -/
theorem run_with_tables (ops : List AllocOp) : ∀ {st st' : Store} {C : Path → HashTable CStr Addr},
    Tables st C → runWith ops st = some st' → ∃ C', Tables st' C' := by
  induction ops with
  | nil =>
      intro st st' C h hrun
      exact ⟨C, Option.some.inj hrun ▸ h⟩
  | cons op ops ih =>
      intro st st' C h hrun
      obtain ⟨mid, hstep, hrest⟩ := Option.bind_eq_some_iff.mp hrun
      obtain ⟨C₁, h₁⟩ := step_with_tables h hstep
      exact ih h₁ hrest

section Insertion

variable {C : Path → HashTable CStr Addr} {p : Addr} {s : Subscriber}

/-- When the first level has no node, everything has to be made. -/
theorem add_loop_fresh {toks : List CStr} : ∀ {alloc : Nat → Alloc} {st : Store}
    {A : Path → Option Addr} {q : Path} {cur : Addr}, TreeAt st.tree A C → A q = some cur →
    (∀ tok ∈ toks.head?, A (q ++ [levelOf tok]) = none) → toks ≠ [] →
    (∀ t ∈ toks.dropLast, t ≠ star) → st.subs.get p = some s →
    ((∃ st', addLoopWith alloc st cur p toks = some (.ok, st')) ↔
      ∀ i ≤ toks.length, alloc i = .succeeds) := by
  induction toks with
  | nil => exact fun _ _ _ h => absurd rfl h
  | cons tok rest ih =>
      intro alloc st A q cur h hcur hleaf _ hstar hget
      unfold addLoopWith
      rcases descend_with_cases h hcur tok (alloc 0) with ⟨b, hb, -⟩ |
        ⟨hA, ⟨halloc, tree', hdescend, htree, -⟩ | ⟨hclean, hdescend⟩ | ⟨hnot, -, hdescend⟩⟩
      · rw [hleaf tok rfl] at hb
        cases hb
      · rw [hdescend]
        simp only [bind, Option.bind_some]
        have hb : Function.update A (q ++ [levelOf tok]) (some st.tree.next) (q ++ [levelOf tok]) =
          some st.tree.next := Function.update_self _ _ _
        cases rest with
        | nil =>
            have hempty : C (q ++ [levelOf tok]) = [] := h.absent hA
            rw [if_pos (Or.inr rfl),
              @node_add_sub_eq { st with tree := tree' } C p s _ _ _ htree hb hget]
            simp only [hempty, HashTable.find_nil, reduceCtorEq, if_false, List.length_singleton,
              decide_eq_true_eq]
            constructor
            · rintro ⟨st', hr⟩ i hi
              split_ifs at hr with hmem
              · interval_cases i
                · exact halloc
                · exact hmem
              · cases (Prod.mk.inj (Option.some.inj hr)).1
            · intro hall
              rw [if_pos (hall 1 (Nat.le_refl _))]
              exact ⟨_, rfl⟩
        | cons tok₂ rest =>
            have hnot : ¬ (tok = star ∨ tok₂ :: rest = []) := by simpa using hstar tok (by simp)
            rw [if_neg hnot, @ih (fun i => alloc (i + 1)) { st with tree := tree' } _
              (q ++ [levelOf tok]) _ htree hb ?_ (List.cons_ne_nil _ _)
              (fun t ht => hstar t (by simpa using Or.inr ht)) hget]
            · constructor
              · intro hall i hi
                cases i with
                | zero => exact halloc
                | succ i => exact hall i (by simpa using hi)
              · exact fun hall i hi => hall (i + 1) (by simpa using hi)
            · intro t _
              rw [Function.update_of_ne (by simp)]
              exact h.shape.none_append hA [levelOf t]
      · rw [hdescend]
        refine iff_of_false ?_ fun hall => ?_
        · rintro ⟨st', hr⟩
          cases (Prod.mk.inj (Option.some.inj hr)).1
        · exact hclean.ne_succeeds (hall 0 (Nat.zero_le _))
      · rw [hdescend]
        refine iff_of_false ?_ fun hall => hnot (hall 0 (Nat.zero_le _))
        rintro ⟨st', hr⟩
        cases hr

theorem recovers_succ (alloc : Nat → Alloc) (d : Nat) (l : Level CStr) (pat : Path) (off : Prop) :
    Recovers alloc (d + 1) (l :: pat) off ↔ Recovers (fun i => alloc (i + 1)) d pat off := by
  unfold Recovers
  have hall : (∀ i, d + 1 ≤ i → i ≤ (l :: pat).length → alloc i = .succeeds) ↔
      ∀ i, d ≤ i → i ≤ pat.length → alloc (i + 1) = .succeeds := by
    constructor
    · exact fun h i hd hi => h (i + 1) (by omega) (by simpa using hi)
    · intro h i hd hi
      obtain ⟨j, rfl⟩ : ∃ j, i = j + 1 := ⟨i - 1, by omega⟩
      exact h j (by omega) (by simpa using hi)
  rw [hall]
  simp

/-- An insertion that made a node and then failed has changed the tree. -/
theorem add_loop_changed {st : Store} (h : TreeAt st.tree (nodeAt st.tree) C) {q : Path}
    {cur : Addr} (hcur : nodeAt st.tree q = some cur) {tok : CStr} {rest : List CStr}
    (hstar : ∀ t ∈ (tok :: rest).dropLast, t ≠ star) (hget : st.subs.get p = some s)
    (hmissing : nodeAt st.tree (q ++ [levelOf tok]) = none) {alloc : Nat → Alloc}
    (halloc : alloc 0 = .succeeds) {r : Status × Store}
    (hrun : addLoopWith alloc st cur p (tok :: rest) = some r) (hr : r.1 ≠ .ok) :
    r.2.tree ≠ st.tree := by
  obtain ⟨tree', A', htree, -, hfirst, hcases⟩ :=
    add_loop_with_cases h hcur (List.cons_ne_nil _ _) hstar hrun
  have hnode := hfirst halloc tok rfl
  have htree' : r.2.tree = tree' := by
    rcases hcases with rfl | ⟨b, hb, hadd⟩
    · rfl
    · rw [@node_add_sub_eq { st with tree := tree' } C p s _ _ b htree hb hget] at hadd
      rw [← Option.some.inj hadd] at hr ⊢
      dsimp only at hr ⊢
      split_ifs at hr ⊢ with hdup hmem
      · rfl
      · exact absurd rfl hr
      · rfl
  intro hsame
  rw [← htree.node_at, ← htree', hsame, hmissing] at hnode
  cases hnode

/-- The last step of an insertion: nothing is undone when the subscriber was off the tree and its
element cannot be allocated. -/
theorem node_add_undone_iff {st : Store} (h : TreeAt st.tree (nodeAt st.tree) C) {q : Path}
    {b : Addr} (hb : nodeAt st.tree q = some b) (hget : st.subs.get p = some s) (mem : Bool) :
    UndoneBy st p (nodeAddSub mem st b p) ↔ mem = true ∨ ¬ Off st p := by
  obtain ⟨node, hnode, -, -⟩ := h.shape.node hb
  rw [node_add_sub_eq h hb hget]
  have hlinked : ∀ status, status ≠ .ok → (UndoneBy st p (some (status,
      { st with subs := st.subs.modify p fun s => { s with node := some b } })) ↔ ¬ Off st p) := by
    intro status hstatus
    have hsub : Store.sub ⟨st.tree, st.subs.modify p fun s => { s with node := some b }⟩ p =
        { s with node := some b } := by
      simp [Store.sub, Heap.get_modify, hget]
    constructor
    · rintro ⟨r, hr, hundone⟩ ⟨hfree, hnone⟩
      rw [← Option.some.inj hr] at hundone
      have hleft := (hundone hstatus).2 hfree hnone
      rw [hsub] at hleft
      cases hleft
    · exact fun hoff => ⟨_, rfl, fun _ => ⟨rfl, fun hfree hnone => absurd ⟨hfree, hnone⟩ hoff⟩⟩
  dsimp only
  split_ifs with hdup hmem
  · have hreg : ¬ Off st p := by
      intro hoff
      refine hoff.1 b node s.id hnode ?_
      rw [h.subs hb hnode]
      exact HashTable.mem_of_find hdup
    exact iff_of_true ((hlinked _ (by decide)).mpr hreg) (Or.inr hreg)
  · exact iff_of_true ⟨_, rfl, fun hne => absurd rfl hne⟩ (Or.inl hmem)
  · rw [hlinked _ (by decide), or_iff_right hmem]

/-- The insertion loop from a node of the tree. -/
theorem add_loop_undone_iff {st : Store} (h : TreeAt st.tree (nodeAt st.tree) C)
    (hget : st.subs.get p = some s) {toks : List CStr} : ∀ {alloc : Nat → Alloc} {q : Path}
    {cur : Addr}, nodeAt st.tree q = some cur → toks ≠ [] → (∀ t ∈ toks.dropLast, t ≠ star) →
    (UndoneBy st p (addLoopWith alloc st cur p toks) ↔
      Recovers alloc (existing st.tree q (toks.map levelOf)) (toks.map levelOf) (Off st p)) := by
  induction toks with
  | nil => exact fun _ h => absurd rfl h
  | cons tok rest ih =>
      intro alloc q cur hcur _ hstar
      rw [List.map_cons]
      rcases descend_with_cases h hcur tok (alloc 0) with ⟨b, hb, hdescend⟩ | ⟨hA, hmade⟩
      · -- the node is there, and the store stays as it is
        rw [show existing st.tree q (levelOf tok :: rest.map levelOf) =
          existing st.tree (q ++ [levelOf tok]) (rest.map levelOf) + 1 from
            if_pos (by rw [hb]; rfl), recovers_succ]
        unfold addLoopWith
        rw [hdescend]
        simp only [bind, Option.bind_some]
        cases rest with
        | nil =>
            rw [if_pos (Or.inr rfl), node_add_undone_iff h hb hget, decide_eq_true_eq]
            simp [Recovers, existing]
        | cons tok₂ rest =>
            have hnot : ¬ (tok = star ∨ tok₂ :: rest = []) := by simpa using hstar tok (by simp)
            rw [if_neg hnot]
            exact ih hb (List.cons_ne_nil _ _) fun t ht => hstar t (by simpa using Or.inr ht)
      · rw [show existing st.tree q (levelOf tok :: rest.map levelOf) = 0 from
          if_neg (by rw [hA]; exact Bool.noConfusion)]
        have hfresh := @add_loop_fresh C p s (tok :: rest) alloc st _ q cur h hcur
          (fun t ht => by rwa [← Option.some.inj ht]) (List.cons_ne_nil _ _) hstar hget
        have hrec : Recovers alloc 0 (levelOf tok :: rest.map levelOf) (Off st p) ↔
            FailsCleanly (alloc 0) (levelOf tok) ∨
              ∀ i ≤ (tok :: rest).length, alloc i = .succeeds := by
          unfold Recovers
          simp
        rw [hrec]
        rcases hmade with ⟨halloc, -⟩ | ⟨hclean, hdescend⟩ | ⟨hnot, hclean, hdescend⟩
        · rw [or_iff_right fun hclean => hclean.ne_succeeds halloc, ← hfresh]
          constructor
          · rintro ⟨⟨status, st'⟩, hrun, hundone⟩
            by_cases hok : status = .ok
            · exact ⟨st', by rw [hrun, hok]⟩
            · exact absurd (hundone hok).1
                (add_loop_changed h hcur hstar hget hA halloc hrun hok)
          · rintro ⟨st', hrun⟩
            exact ⟨_, hrun, fun hne => absurd rfl hne⟩
        · refine iff_of_true ⟨(.noMemory, st), ?_, fun _ => ⟨rfl, fun _ => id⟩⟩ (Or.inl hclean)
          unfold addLoopWith
          rw [hdescend]
          rfl
        · refine iff_of_false ?_ ?_
          · rintro ⟨r, hrun, -⟩
            unfold addLoopWith at hrun
            rw [hdescend] at hrun
            cases hrun
          · rintro (h0 | hall)
            · exact hclean h0
            · exact hnot (hall 0 (Nat.zero_le _))

end Insertion

/-- What the allocations have to be like for an insertion to leave nothing behind: when the topic is
accepted, they recover with the levels of the pattern that have a node already. -/
def LeavesNothing (st : Store) (p : Addr) (alloc : Nat → Alloc) : Prop :=
  ∀ pat, (st.sub p).pattern = some pat → Recovers alloc (existing st.tree [] pat) pat (Off st p)

/-- In every state that calls lead to, whatever allocations fail in them: an insertion that returns
an error leaves the tree, and the pointer of a subscriber off the tree, as they were, exactly when
the first allocation that it makes fails and is not the one for the subscriber, or none fails. -/
theorem add_undone_iff {subs : Heap Subscriber} (hsubs : ∀ p s, subs.get p = some s → s.node = none)
    {ops : List AllocOp} {st : Store} (hrun : runWith ops ⟨initTree, subs⟩ = some st) {p : Addr}
    (hp : (st.subs.get p).isSome) (alloc : Nat → Alloc) :
    UndoneBy st p (addSubscriberWith alloc st p) ↔ LeavesNothing st p alloc := by
  obtain ⟨C, h⟩ := run_with_tables ops (tables_init fun {p s} => hsubs p s) hrun
  obtain ⟨s, hget⟩ := Option.isSome_iff_exists.mp hp
  have hsub : st.sub p = s := by simp [Store.sub, hget]
  unfold addSubscriberWith LeavesNothing
  rw [hget, hsub]
  simp only [bind, Option.bind_some]
  cases hlevels : levels s.getTopic with
  | none =>
      refine iff_of_true ⟨_, rfl, fun _ => ⟨rfl, fun _ => id⟩⟩ fun pat hpat => ?_
      rw [Subscriber.pattern, hlevels] at hpat
      cases hpat
  | some toks =>
      obtain ⟨hne, hstar⟩ := levels_spec hlevels
      have hpat : s.pattern = some (toks.map levelOf) := by rw [Subscriber.pattern, hlevels]; rfl
      rw [hpat]
      dsimp only
      rw [add_loop_undone_iff h.tree hget h.tree.shape.root_eq hne hstar]
      exact ⟨fun hrec pat heq => Option.some.inj heq ▸ hrec, fun hall => hall _ rfl⟩

/-- The allocation for the first level fails. -/
theorem add_undone_first : UndoneBy ⟨initTree, twoSubs⟩ 0
    (addSubscriberWith (fun _ => .fails) ⟨initTree, twoSubs⟩ 0) := by
  refine (@add_undone_iff twoSubs (fun p s => two_subs_objects.unlinked) [] _ rfl 0 (by decide)
    _).mpr fun pat hpat => ?_
  obtain rfl : [.exact (.ofString "a"), .exact (.ofString "b")] = pat :=
    Option.some.inj ((by decide : (Store.sub ⟨initTree, twoSubs⟩ 0).pattern = _).symm.trans hpat)
  exact Or.inl ⟨.exact (.ofString "a"), by decide, Or.inl (Or.inl rfl)⟩

/-- When the allocation for the second level fails, the node of the first is left in the tree. When
the one for the subscriber fails, it points to a node that does not have it. -/
theorem add_undone_fails :
    ¬ UndoneBy ⟨initTree, twoSubs⟩ 0 (addSubscriberWith
      (fun i => if i = 1 then .fails else .succeeds) ⟨initTree, twoSubs⟩ 0) ∧
    (addSubscriberWith (fun i => if i = 2 then .fails else .succeeds) ⟨initTree, twoSubs⟩ 0).map
      (fun r => (r.1, (r.2.sub 0).node)) = some (.noMemory, some 2) := by
  have hrun : ((addSubscriberWith (fun i => if i = 1 then .fails else .succeeds)
      ⟨initTree, twoSubs⟩ 0).map fun r => (r.1, r.2.tree.next)) = some (.noMemory, 2) := by
    decide
  refine ⟨?_, by decide⟩
  rintro ⟨r, hr, hundone⟩
  rw [hr] at hrun
  obtain ⟨hstatus, hnext⟩ := Prod.mk.inj (Option.some.inj hrun)
  have htree := (hundone (by rw [hstatus]; decide)).1
  rw [htree] at hnext
  exact absurd hnext (by decide)

end Bpsp.Topic
