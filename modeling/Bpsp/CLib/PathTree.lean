import Bpsp.CLib.Heap

/-!
# Pointer trees described by paths

Trees built from heap nodes with labelled child pointers and a parent pointer. `IsTree L h root A`
says that the live nodes of `h` form a tree below `root` in which the node at the end of a path
`q` of labels is `A q`. All pointers of a node are fixed by `A`, so a change of the tree is a
change of `A` at one path: `IsTree.link` adds a leaf, `IsTree.unlink` removes one, and
`IsTree.relabel` changes what a node holds beside its pointers.
-/

namespace CLib

/-- How the pointers of a node are read. -/
structure Links (ν τ : Type) where
  child : ν → τ → Option Addr
  parent : ν → Option Addr

variable {ν τ : Type}

namespace Links

/-- The address reached from `a` by following a path of labels. -/
def walk (L : Links ν τ) (h : Heap ν) : Addr → List τ → Option Addr
  | a, [] => some a
  | a, t :: rest =>
      match h.get a with
      | none => none
      | some nd =>
          match L.child nd t with
          | none => none
          | some b => walk L h b rest

end Links

/-- The address of the parent of the node at path `q`. -/
def parentAt (A : List τ → Option Addr) (q : List τ) : Option Addr :=
  if q = [] then none else A q.dropLast

/-- The live nodes of `h` form a tree below `root`, with node `A q` at path `q`. -/
structure IsTree (L : Links ν τ) (h : Heap ν) (root : Addr) (A : List τ → Option Addr) : Prop where
  root_eq : A [] = some root
  node : ∀ {q a}, A q = some a → ∃ nd, h.get a = some nd ∧
    (∀ t, L.child nd t = A (q ++ [t])) ∧ L.parent nd = parentAt A q
  closed : ∀ {q t a}, A (q ++ [t]) = some a → ∃ b, A q = some b
  inj : ∀ {q q' a}, A q = some a → A q' = some a → q = q'
  reach : ∀ {a nd}, h.get a = some nd → ∃ q, A q = some a

namespace IsTree

variable {L : Links ν τ} {h h' : Heap ν} {root : Addr} {A : List τ → Option Addr}

theorem closed_append (hA : IsTree L h root A) {q r : List τ} {a : Addr}
    (ha : A (q ++ r) = some a) : ∃ b, A q = some b := by
  induction r using List.reverseRecOn generalizing a with
  | nil => exact ⟨a, by simpa using ha⟩
  | append_singleton r t ih =>
      rw [← List.append_assoc] at ha
      obtain ⟨b, hb⟩ := hA.closed ha
      exact ih hb

/-- Below a missing node there is nothing. -/
theorem none_append (hA : IsTree L h root A) {q : List τ} (hq : A q = none) (r : List τ) :
    A (q ++ r) = none := by
  cases h : A (q ++ r) with
  | none => rfl
  | some a =>
      obtain ⟨b, hb⟩ := hA.closed_append h
      simp [hq] at hb

theorem walk_append (hA : IsTree L h root A) {q : List τ} {a : Addr} (ha : A q = some a)
    (r : List τ) : L.walk h a r = A (q ++ r) := by
  induction r generalizing q a with
  | nil => simpa [Links.walk] using ha.symm
  | cons t rest ih =>
      obtain ⟨nd, hget, hchild, -⟩ := hA.node ha
      simp only [Links.walk, hget, hchild]
      cases hb : A (q ++ [t]) with
      | none =>
          rw [List.append_cons, hA.none_append hb]
      | some b =>
          simp only []
          rw [ih hb, List.append_cons q t rest]

/-- Following a path from the root ends at the node that `A` names. -/
theorem walk_root (hA : IsTree L h root A) (q : List τ) : L.walk h root q = A q := by
  simpa using hA.walk_append hA.root_eq q

theorem parentAt_concat (q : List τ) (t : τ) : parentAt A (q ++ [t]) = A q := by
  simp [parentAt]

/-- The parent pointer of a node is the node that holds it. -/
theorem parent_concat (hA : IsTree L h root A) {q : List τ} {t : τ} {b : Addr}
    (hb : A (q ++ [t]) = some b) : ∃ nd, h.get b = some nd ∧ L.parent nd = A q := by
  obtain ⟨nd, hget, -, hparent⟩ := hA.node hb
  exact ⟨nd, hget, hparent.trans (parentAt_concat q t)⟩

/-- Nodes may change in what they hold beside their pointers. -/
theorem relabel (hA : IsTree L h root A)
    (hnode : ∀ a nd, h.get a = some nd → ∃ nd', h'.get a = some nd' ∧
      L.child nd' = L.child nd ∧ L.parent nd' = L.parent nd)
    (hlive : ∀ a nd', h'.get a = some nd' → ∃ nd, h.get a = some nd) :
    IsTree L h' root A where
  root_eq := hA.root_eq
  node ha := by
    obtain ⟨nd, hget, hchild, hparent⟩ := hA.node ha
    obtain ⟨nd', hget', hc, hp⟩ := hnode _ _ hget
    exact ⟨nd', hget', fun t => by rw [hc, hchild], hp.trans hparent⟩
  closed := hA.closed
  inj := hA.inj
  reach hget := by
    obtain ⟨nd, hget'⟩ := hlive _ _ hget
    exact hA.reach hget'

variable [DecidableEq τ]

/-- Adding a leaf `b` under label `t` of the node at `q`. -/
theorem link (hA : IsTree L h root A) {q : List τ} {t : τ} {a b : Addr} {nd nd' leaf : ν}
    (ha : A q = some a) (hnone : A (q ++ [t]) = none) (hget : h.get a = some nd)
    (hfresh : h.get b = none) (hb : h'.get b = some leaf)
    (hleaf : ∀ t', L.child leaf t' = none) (hleafParent : L.parent leaf = some a)
    (hnd : h'.get a = some nd')
    (hchild : ∀ t', L.child nd' t' = if t' = t then some b else L.child nd t')
    (hparent : L.parent nd' = L.parent nd)
    (hother : ∀ x, x ≠ a → x ≠ b → h'.get x = h.get x) :
    IsTree L h' root (Function.update A (q ++ [t]) (some b)) := by
  have hnew : ∀ {r x}, A r = some x → x ≠ b := by
    rintro r x hr rfl
    obtain ⟨_, hlive, _⟩ := hA.node hr
    simp [hfresh] at hlive
  have hold : ∀ {r x}, A r = some x → Function.update A (q ++ [t]) (some b) r = some x := by
    intro r x hr
    have hne : r ≠ q ++ [t] := by
      rintro rfl
      simp [hnone] at hr
    rw [Function.update_of_ne hne, hr]
  have hdrop : ∀ r, r ≠ [] → r ≠ q ++ [t] → A r ≠ none →
      Function.update A (q ++ [t]) (some b) r.dropLast = A r.dropLast := by
    intro r hr _ hsome
    have hne : r.dropLast ≠ q ++ [t] := by
      intro heq
      have hcat := List.dropLast_concat_getLast hr
      rw [heq] at hcat
      exact hsome (hcat ▸ hA.none_append hnone _)
    exact Function.update_of_ne hne _ _
  refine ⟨hold hA.root_eq, ?_, ?_, ?_, ?_⟩
  · intro r x hr
    by_cases hrq : r = q ++ [t]
    · subst hrq
      rw [Function.update_self, Option.some.injEq] at hr
      subst hr
      refine ⟨leaf, hb, fun t' => ?_, ?_⟩
      · rw [hleaf, Function.update_of_ne (by simp), hA.none_append hnone]
      · rw [hleafParent, parentAt_concat, hold ha]
    · rw [Function.update_of_ne hrq] at hr
      obtain ⟨ndr, hgetr, hchildr, hparentr⟩ := hA.node hr
      have hup : parentAt (Function.update A (q ++ [t]) (some b)) r = parentAt A r := by
        by_cases hnil : r = []
        · simp [parentAt, hnil]
        · simp only [parentAt, hnil, if_false]
          exact hdrop r hnil hrq (by simp [hr])
      by_cases hxa : x = a
      · subst hxa
        obtain rfl : r = q := hA.inj hr ha
        obtain rfl : ndr = nd := Option.some.inj (hgetr.symm.trans hget)
        refine ⟨nd', hnd, fun t' => ?_, hparent.trans (hparentr.trans hup.symm)⟩
        by_cases ht : t' = t
        · simp [hchild, ht]
        · rw [hchild, if_neg ht, hchildr, Function.update_of_ne (by simpa using ht)]
      · refine ⟨ndr, (hother x hxa (hnew hr)).trans hgetr, fun t' => ?_, hparentr.trans hup.symm⟩
        have hne : r ++ [t'] ≠ q ++ [t] := by
          intro heq
          have hrq' : r = q := (List.append_inj' heq rfl).1
          exact hxa (Option.some.inj (hr.symm.trans (hrq' ▸ ha)))
        rw [hchildr, Function.update_of_ne hne]
  · intro r s x hx
    by_cases hrq : r ++ [s] = q ++ [t]
    · have : r = q := (List.append_inj' hrq rfl).1
      exact ⟨a, hold (this ▸ ha)⟩
    · rw [Function.update_of_ne hrq] at hx
      obtain ⟨y, hy⟩ := hA.closed hx
      exact ⟨y, hold hy⟩
  · intro r r' x hr hr'
    by_cases h1 : r = q ++ [t] <;> by_cases h2 : r' = q ++ [t]
    · rw [h1, h2]
    · rw [h1, Function.update_self] at hr
      rw [Function.update_of_ne h2] at hr'
      exact absurd (Option.some.inj hr).symm (hnew hr')
    · rw [h2, Function.update_self] at hr'
      rw [Function.update_of_ne h1] at hr
      exact absurd (Option.some.inj hr').symm (hnew hr)
    · rw [Function.update_of_ne h1] at hr
      rw [Function.update_of_ne h2] at hr'
      exact hA.inj hr hr'
  · intro x ndx hx
    by_cases hxb : x = b
    · exact ⟨q ++ [t], by rw [hxb, Function.update_self]⟩
    · by_cases hxa : x = a
      · exact ⟨q, hold (hxa ▸ ha)⟩
      · obtain ⟨r, hr⟩ := hA.reach ((hother x hxa hxb).symm.trans hx)
        exact ⟨r, hold hr⟩

/-- Removing the leaf `b` at label `t` of the node at `q`. -/
theorem unlink (hA : IsTree L h root A) {q : List τ} {t : τ} {a b : Addr} {nd nd' : ν}
    (ha : A q = some a) (hb : A (q ++ [t]) = some b) (hleaf : ∀ t', A (q ++ [t] ++ [t']) = none)
    (hget : h.get a = some nd) (hfreed : h'.get b = none) (hnd : h'.get a = some nd')
    (hchild : ∀ t', L.child nd' t' = if t' = t then none else L.child nd t')
    (hparent : L.parent nd' = L.parent nd)
    (hother : ∀ x, x ≠ a → x ≠ b → h'.get x = h.get x) :
    IsTree L h' root (Function.update A (q ++ [t]) none) := by
  have hold : ∀ {r x}, r ≠ q ++ [t] → A r = some x →
      Function.update A (q ++ [t]) none r = some x := by
    intro r x hne hr
    rw [Function.update_of_ne hne, hr]
  have hback : ∀ {r x}, Function.update A (q ++ [t]) none r = some x →
      r ≠ q ++ [t] ∧ A r = some x := by
    intro r x hr
    by_cases hrq : r = q ++ [t]
    · simp [hrq] at hr
    · exact ⟨hrq, by rwa [Function.update_of_ne hrq] at hr⟩
  refine ⟨hold (by simp) hA.root_eq, ?_, ?_, ?_, ?_⟩
  · intro r x hr
    obtain ⟨hrq, hr⟩ := hback hr
    obtain ⟨ndr, hgetr, hchildr, hparentr⟩ := hA.node hr
    have hup : parentAt (Function.update A (q ++ [t]) none) r = parentAt A r := by
      by_cases hnil : r = []
      · simp [parentAt, hnil]
      · simp only [parentAt, hnil, if_false]
        refine Function.update_of_ne (fun heq => ?_) _ _
        have hcat := List.dropLast_concat_getLast hnil
        rw [heq] at hcat
        rw [← hcat, hleaf] at hr
        simp at hr
    have hxb : x ≠ b := by
      rintro rfl
      exact hrq (hA.inj hr hb)
    by_cases hxa : x = a
    · subst hxa
      obtain rfl : r = q := hA.inj hr ha
      obtain rfl : ndr = nd := Option.some.inj (hgetr.symm.trans hget)
      refine ⟨nd', hnd, fun t' => ?_, hparent.trans (hparentr.trans hup.symm)⟩
      by_cases ht : t' = t
      · simp [hchild, ht]
      · rw [hchild, if_neg ht, hchildr, Function.update_of_ne (by simpa using ht)]
    · refine ⟨ndr, (hother x hxa hxb).trans hgetr, fun t' => ?_, hparentr.trans hup.symm⟩
      have hne : r ++ [t'] ≠ q ++ [t] := by
        intro heq
        have hrq' : r = q := (List.append_inj' heq rfl).1
        exact hxa (Option.some.inj (hr.symm.trans (hrq' ▸ ha)))
      rw [hchildr, Function.update_of_ne hne]
  · intro r s x hx
    obtain ⟨-, hx⟩ := hback hx
    obtain ⟨y, hy⟩ := hA.closed hx
    refine ⟨y, hold ?_ hy⟩
    rintro rfl
    rw [hleaf] at hx
    simp at hx
  · intro r r' x hr hr'
    exact hA.inj (hback hr).2 (hback hr').2
  · intro x ndx hx
    have hxb : x ≠ b := by
      rintro rfl
      simp [hfreed] at hx
    by_cases hxa : x = a
    · exact ⟨q, hold (by simp) (hxa ▸ ha)⟩
    · obtain ⟨r, hr⟩ := hA.reach ((hother x hxa hxb).symm.trans hx)
      refine ⟨r, hold (fun hrq => hxb ?_) hr⟩
      exact Option.some.inj (hr.symm.trans (hrq ▸ hb))

end IsTree

end CLib
