import Bpsp.CLib.PathTree

/-!
# Walking through a pointer tree

A recursive function that visits a node and then its children, for a tree as in `IsTree`.
`descendants kids h fuel a` lists what it visits: the nodes below `a`, each with the path that leads
to it. In a tree it visits each node once (`descendants_spec`), and the number of objects that were
ever allocated is fuel enough (`IsTree.length_lt`).
-/

namespace CLib

variable {ν τ : Type}

/-- The children that a function goes through, in its order, are those of the node. -/
structure Lists (L : Links ν τ) (kids : ν → List (τ × Addr)) (nd : ν) : Prop where
  nodup : ((kids nd).map Prod.fst).Nodup
  mem_iff : ∀ {t b}, (t, b) ∈ kids nd ↔ L.child nd t = some b

/-- The nodes that are visited from `a` on, with the path to each. -/
def descendants (kids : ν → List (τ × Addr)) (h : Heap ν) :
    Nat → Addr → Option (List (List τ × Addr))
  | 0, _ => none
  | fuel + 1, a => do
      let nd ← h.get a
      let below ← (kids nd).mapM fun e => do
        let ps ← descendants kids h fuel e.2
        some (ps.map fun p => (e.1 :: p.1, p.2))
      some (([], a) :: below.flatten)

/-- A function that is defined on all elements of a list. -/
theorem mapM_some {α β : Type} {f : α → Option β} {g : α → β} {l : List α}
    (h : ∀ x ∈ l, f x = some (g x)) : l.mapM f = some (l.map g) := by
  induction l with
  | nil => rfl
  | cons x l ih =>
      rw [List.mapM_cons, h x List.mem_cons_self, ih fun y hy => h y (List.mem_cons_of_mem _ hy)]
      rfl

theorem of_mapM_some {α β : Type} [Inhabited β] {f : α → Option β} {l : List α} {ys : List β}
    (h : l.mapM f = some ys) : (∀ x ∈ l, f x = some ((f x).getD default)) ∧
      ys = l.map fun x => (f x).getD default := by
  induction l generalizing ys with
  | nil => exact ⟨by simp, (Option.some.inj h).symm⟩
  | cons x l ih =>
      simp only [List.mapM_cons, bind, Option.bind_eq_some_iff, pure] at h
      obtain ⟨y, hy, zs, hzs, heq⟩ := h
      obtain ⟨hall, rfl⟩ := ih hzs
      refine ⟨fun z hz => ?_, by rw [← Option.some.inj heq, List.map_cons, hy]; rfl⟩
      rcases List.mem_cons.mp hz with rfl | hz
      · rw [hy]
        rfl
      · exact hall z hz

section Spec

variable {L : Links ν τ} {kids : ν → List (τ × Addr)} {h : Heap ν} {root : Addr}
  {A : List τ → Option Addr}

/-- The nodes on the way to a node are different objects. -/
theorem IsTree.length_lt (hA : IsTree L h root A) {q : List τ} {a : Addr} (ha : A q = some a) :
    q.length < h.next := by
  have hsome : ∀ n ≤ q.length, ∃ b, A (q.take n) = some b := fun n _ =>
    hA.closed_append (r := q.drop n) (by rw [List.take_append_drop]; exact ha)
  choose! f hf using hsome
  have hlt : ∀ n ∈ Finset.range (q.length + 1), f n ∈ Finset.range h.next := by
    intro n hn
    obtain ⟨nd, hget, -⟩ := hA.node (hf n (by simpa [Nat.lt_succ_iff] using hn))
    exact Finset.mem_range.mpr (Heap.lt_next_of_get hget)
  have hinj : Set.InjOn f (Finset.range (q.length + 1)) := by
    intro n hn m hm heq
    have hn' : n ≤ q.length := by simpa [Nat.lt_succ_iff] using hn
    have hm' : m ≤ q.length := by simpa [Nat.lt_succ_iff] using hm
    have htake := hA.inj (hf n hn') (by rw [heq]; exact hf m hm')
    have hlen := congrArg List.length htake
    simp only [List.length_take] at hlen
    omega
  have hcard := Finset.card_le_card_of_injOn f hlt hinj
  simp only [Finset.card_range] at hcard
  omega

/-- In a tree, each node below the start is visited once. -/
theorem descendants_spec (hA : IsTree L h root A)
    (hkids : ∀ {a nd}, h.get a = some nd → Lists L kids nd) {fuel : Nat} :
    ∀ {q : List τ} {a : Addr}, A q = some a → (∀ r, (A (q ++ r)).isSome → r.length < fuel) →
      ∃ ps, descendants kids h fuel a = some ps ∧ (ps.map Prod.fst).Nodup ∧
        ∀ {r b}, (r, b) ∈ ps ↔ A (q ++ r) = some b := by
  induction fuel with
  | zero =>
      intro q a ha hdepth
      exact absurd (hdepth [] (by simp [ha])) (by simp)
  | succ fuel ih =>
      intro q a ha hdepth
      obtain ⟨nd, hget, hchild, -⟩ := hA.node ha
      obtain ⟨hnodup, hmem⟩ := hkids hget
      -- what is visited below each child
      have hbelow : ∀ e ∈ kids nd, ∃ ps, descendants kids h fuel e.2 = some ps ∧
          (ps.map Prod.fst).Nodup ∧ ∀ {r b}, (r, b) ∈ ps ↔ A (q ++ [e.1] ++ r) = some b := by
        intro e he
        refine ih ((hchild e.1).symm.trans (hmem.mp he)) fun r hr => ?_
        have := hdepth (e.1 :: r) (by simpa using hr)
        simpa using this
      choose! f hf using hbelow
      have hmap : ((kids nd).mapM fun e => do
          let ps ← descendants kids h fuel e.2
          some (ps.map fun p => (e.1 :: p.1, p.2))) =
          some ((kids nd).map fun e => (f e).map fun p => (e.1 :: p.1, p.2)) := by
        refine mapM_some fun e he => ?_
        rw [(hf e he).1]
        rfl
      refine ⟨([], a) :: ((kids nd).map fun e => (f e).map fun p => (e.1 :: p.1, p.2)).flatten,
        ?_, ?_, ?_⟩
      · unfold descendants
        rw [hget, Option.bind_eq_bind, Option.bind_some, hmap]
        rfl
      · rw [List.map_cons, List.nodup_cons, List.map_flatten, List.map_map]
        refine ⟨?_, List.nodup_flatten.mpr ⟨fun l hl => ?_, ?_⟩⟩
        · simp only [List.mem_flatten, List.mem_map]
          rintro ⟨l, ⟨e, -, rfl⟩, hl⟩
          simp at hl
        · obtain ⟨e, he, rfl⟩ := List.mem_map.mp hl
          simp only [Function.comp_apply, List.map_map]
          rw [show (Prod.fst ∘ fun p : List τ × Addr => (e.1 :: p.1, p.2)) =
            (List.cons e.1) ∘ Prod.fst from rfl, ← List.map_map]
          exact (hf e he).2.1.map List.cons_injective
        · rw [List.pairwise_map]
          refine (List.pairwise_map.mp hnodup).imp fun {e e'} hne => ?_
          intro r hr hr'
          simp only [Function.comp_apply, List.map_map, List.mem_map] at hr hr'
          obtain ⟨p, -, rfl⟩ := hr
          obtain ⟨p', -, heq⟩ := hr'
          exact hne (List.cons.inj heq).1.symm
      · intro r b
        rw [List.mem_cons, List.mem_flatten]
        cases r with
        | nil =>
            rw [List.append_nil, ha]
            constructor
            · rintro (heq | ⟨l, hl, hb⟩)
              · rw [(Prod.mk.inj heq).2]
              · obtain ⟨e, -, rfl⟩ := List.mem_map.mp hl
                simp at hb
            · intro heq
              exact Or.inl (by rw [Option.some.inj heq])
        | cons t r =>
            constructor
            · rintro (heq | ⟨l, hl, hb⟩)
              · exact absurd (Prod.mk.inj heq).1 (by simp)
              · obtain ⟨e, he, rfl⟩ := List.mem_map.mp hl
                obtain ⟨p, hp, heq⟩ := List.mem_map.mp hb
                obtain ⟨hpath, rfl⟩ := Prod.mk.inj heq
                obtain ⟨rfl, rfl⟩ := List.cons.inj hpath
                have := (hf e he).2.2.mp hp
                simpa using this
            · intro hb
              have hstep : q ++ t :: r = q ++ [t] ++ r := by simp
              rw [hstep] at hb
              obtain ⟨c, hc⟩ := hA.closed_append hb
              have he : (t, c) ∈ kids nd := hmem.mpr ((hchild t).trans hc)
              refine Or.inr ⟨_, List.mem_map_of_mem he, List.mem_map.mpr ⟨(r, b), ?_, rfl⟩⟩
              exact (hf (t, c) he).2.2.mpr hb

/-- What is visited from a node on is the node and what is visited from its children on. -/
theorem of_descendants {fuel : Nat} {a : Addr} {nd : ν} {ps : List (List τ × Addr)}
    (hget : h.get a = some nd) (hps : descendants kids h (fuel + 1) a = some ps) :
    ∃ f : τ × Addr → List (List τ × Addr),
      (∀ e ∈ kids nd, descendants kids h fuel e.2 = some (f e)) ∧
      ps = ([], a) :: ((kids nd).map fun e => (f e).map fun p => (e.1 :: p.1, p.2)).flatten := by
  unfold descendants at hps
  rw [hget, Option.bind_eq_bind, Option.bind_some, Option.bind_eq_bind,
    Option.bind_eq_some_iff] at hps
  obtain ⟨below, hbelow, heq⟩ := hps
  obtain ⟨hall, rfl⟩ := of_mapM_some hbelow
  have hsome : ∀ e ∈ kids nd, ∃ rs, descendants kids h fuel e.2 = some rs := by
    intro e he
    obtain ⟨rs, hrs, -⟩ := Option.bind_eq_some_iff.mp (hall e he)
    exact ⟨rs, hrs⟩
  choose! f hf using hsome
  refine ⟨f, hf, ?_⟩
  rw [← Option.some.inj heq]
  congr 2
  refine List.map_congr_left fun e he => ?_
  rw [hf e he]
  rfl

/-- All nodes of a tree, from its root. -/
theorem descendants_root (hA : IsTree L h root A)
    (hkids : ∀ {a nd}, h.get a = some nd → Lists L kids nd) :
    ∃ ps, descendants kids h h.next root = some ps ∧ (ps.map Prod.fst).Nodup ∧
      ∀ {r b}, (r, b) ∈ ps ↔ A r = some b := by
  obtain ⟨ps, hps, hnodup, hmem⟩ := descendants_spec hA hkids hA.root_eq fun r hr => by
    obtain ⟨b, hb⟩ := Option.isSome_iff_exists.mp hr
    exact hA.length_lt hb
  exact ⟨ps, hps, hnodup, hmem⟩

end Spec

end CLib
