import Bpsp.Topic.Runs
import Bpsp.Topic.Tables

/-!
# Subscribers with one `_id`

`topic__node_add_sub` compares objects, so two objects with the same `_id` can stand in one table;
`topic__del_subscriber` and the lookup of the duplicate check go by `_id`, and get the entry that
was added last. A run keeps registered objects apart exactly when no insertion puts a second object
under the `_id` of a registered one at the same node (`separates_iff`).
-/

namespace Bpsp.Topic

open CLib Wildcard

variable {subs : Heap Subscriber}

/-- Two objects with one `_id` and one pattern: their entries are in one table under one key. -/
def Clash (subs : Heap Subscriber) (p q : Addr) : Prop :=
  p ≠ q ∧ ∃ s t, subs.get p = some s ∧ subs.get q = some t ∧ s.id = t.id ∧
    ∃ pat, s.pattern = some pat ∧ t.pattern = some pat

/-- No insertion of the run is of an object that clashes with a registered one. -/
def Clear (subs : Heap Subscriber) (ops : List Op) : Prop :=
  ∀ ops₁ p ops₂, ops = ops₁ ++ .add p :: ops₂ → ∀ q ∈ registeredAfter subs ops₁, ¬ Clash subs p q

/-- The lookups return the objects in `S` whose patterns match, once, and no other. -/
def Finds (subs : Heap Subscriber) (S : Finset Addr) (st : Store) : Prop :=
  ∀ topic ts, levels topic = some ts → ∃ pointers,
    treeFindPointers st.tree topic = some (some pointers) ∧ pointers.Nodup ∧
      ∀ p, p ∈ pointers ↔ p ∈ S ∧ ∃ pat, patternOf subs p = some pat ∧ Accepts pat ts

/-- The registered objects are kept apart: the lookups find them, adding one of them again is
refused, and deleting one of them removes it and no other. -/
structure Separates (subs : Heap Subscriber) (S : Finset Addr) (st : Store) : Prop where
  find : Finds subs S st
  again : ∀ a ∈ S, ∃ st', addSubscriber (fun _ => true) st a = some (.treeDupSubscriber, st') ∧
    Finds subs S st'
  del : ∀ a ∈ S, ∃ st', delSubscriber st a = some (.ok, st') ∧ Finds subs (S.erase a) st'

/-- The tables hold the objects in `S`, each under its `_id` at its pattern, and these point to
their nodes. -/
structure Keeps (subs : Heap Subscriber) (S : Finset Addr) (st : Store)
    (C : Path → HashTable CStr Addr) : Prop where
  tables : Tables st C
  objects : ∀ {p s}, subs.get p = some s → ∃ n, st.subs.get p = some { s with node := n }
  entries : ∀ {q id p}, (id, p) ∈ C q ↔
    p ∈ S ∧ ∃ s, subs.get p = some s ∧ s.id = id ∧ s.pattern = some q
  patterns : ∀ {p}, p ∈ S → (patternOf subs p).isSome
  keys : ∀ q, (C q).keys.Nodup
  linked : ∀ {p s}, st.subs.get p = some s → p ∈ S → ∃ pat a, s.pattern = some pat ∧
    s.node = some a ∧ nodeAt st.tree pat = some a
  unlinked : ∀ {p s}, st.subs.get p = some s → p ∉ S → s.node = none

section Lookup

variable {S : Finset Addr} {st : Store} {C : Path → HashTable CStr Addr}

/-- The lookups in a tree with these tables. -/
theorem find_pointers_eq (h : Tables st C) {topic : CStr} {ts : List CStr}
    (hts : levels topic = some ts) : treeFindPointers st.tree topic =
      some (some (collect (fun q => (C q).map Prod.snd) [] ts)) := by
  unfold treeFindPointers
  rw [hts]
  dsimp only
  rw [pointers_loop_spec h.tree h.tree.shape.root_eq]
  rfl

theorem mem_pointers_iff {q : Path} {p : Addr} : p ∈ (C q).map Prod.snd ↔ ∃ id, (id, p) ∈ C q := by
  simp

theorem Keeps.finds (h : Keeps subs S st C) : Finds subs S st := by
  intro topic ts hts
  refine ⟨_, find_pointers_eq h.tables hts, ?_, fun p => ?_⟩
  · refine nodup_collect (fun q => ?_) (fun {q q' p} hp hp' => ?_) [] ts
    · refine (List.nodup_map_iff_inj_on (h.keys q).of_map).mpr ?_
      rintro ⟨id, p⟩ he ⟨id', p'⟩ he' rfl
      obtain ⟨-, s, hs, hid, -⟩ := h.entries.mp he
      obtain ⟨-, s', hs', hid', -⟩ := h.entries.mp he'
      obtain rfl := Option.some.inj (hs.symm.trans hs')
      rw [← hid, hid']
    · obtain ⟨id, he⟩ := mem_pointers_iff.mp hp
      obtain ⟨id', he'⟩ := mem_pointers_iff.mp hp'
      obtain ⟨-, s, hs, -, hpat⟩ := h.entries.mp he
      obtain ⟨-, s', hs', -, hpat'⟩ := h.entries.mp he'
      obtain rfl := Option.some.inj (hs.symm.trans hs')
      exact Option.some.inj (hpat.symm.trans hpat')
  · rw [mem_collect]
    simp only [List.nil_append, mem_pointers_iff, h.entries]
    constructor
    · rintro ⟨q, hacc, id, hp, s, hs, -, hpat⟩
      exact ⟨hp, q, by rw [patternOf, hs]; exact hpat, hacc⟩
    · rintro ⟨hp, pat, hpat, hacc⟩
      obtain ⟨s, hs, hpat⟩ := Option.bind_eq_some_iff.mp hpat
      exact ⟨pat, hacc, s.id, hp, s, hs, rfl, hpat⟩

/-- The entry of a registered object is the only one under its `_id`. -/
theorem Keeps.find_entry (h : Keeps subs S st C) {p : Addr} {s : Subscriber} {pat : Path}
    (hs : subs.get p = some s) (hpat : s.pattern = some pat) (hp : p ∈ S) :
    (C pat).find s.id = some p :=
  (HashTable.find_eq_some_iff (h.keys pat)).mpr (h.entries.mpr ⟨hp, s, hs, rfl, hpat⟩)

/-- Registered objects do not clash. -/
theorem Keeps.not_clash (h : Keeps subs S st C) {p q : Addr} (hp : p ∈ S) (hq : q ∈ S) :
    ¬ Clash subs p q := by
  rintro ⟨hne, s, t, hs, ht, hid, pat, hpat, hpat'⟩
  have hfind := h.find_entry hs hpat hp
  rw [hid, h.find_entry ht hpat' hq] at hfind
  exact hne (Option.some.inj hfind).symm

theorem Keeps.objects_point (h : Keeps subs S st C) (p : Addr) (n : Option Addr) {q : Addr}
    {t : Subscriber} (ht : subs.get q = some t) :
    ∃ m, (st.subs.modify p fun s => { s with node := n }).get q = some { t with node := m } := by
  obtain ⟨m, hm⟩ := h.objects ht
  rw [Heap.get_modify]
  by_cases hqp : q = p
  · rw [← hqp, if_pos rfl, hm]
    exact ⟨n, rfl⟩
  · exact ⟨m, by rw [if_neg hqp, hm]⟩

/-- Pointing an object to the node of its pattern, in a tree that may have got more nodes. -/
theorem Keeps.linked_point (h : Keeps subs S st C) {p : Addr} {s : Subscriber} {n : Option Addr}
    (hget : st.subs.get p = some { s with node := n }) {pat : Path} (hpat : s.pattern = some pat)
    {tree' : Heap Node} (hgrown : Grown st.tree (nodeAt st.tree) tree' (nodeAt tree')) {b : Addr}
    (hb : nodeAt tree' pat = some b) {q : Addr} {t : Subscriber}
    (ht : (st.subs.modify p fun s => { s with node := some b }).get q = some t)
    (hq : q = p ∨ q ∈ S) : ∃ pat a, t.pattern = some pat ∧ t.node = some a ∧
      nodeAt tree' pat = some a := by
  rw [Heap.get_modify] at ht
  split_ifs at ht with hqp
  · rw [hget] at ht
    rw [← Option.some.inj ht]
    exact ⟨pat, b, hpat, rfl, hb⟩
  · obtain ⟨pat', a, hpat', hnode, ha⟩ := h.linked ht (hq.resolve_left hqp)
    exact ⟨pat', a, hpat', hnode, hgrown.kept ha⟩

theorem Keeps.unlinked_point (h : Keeps subs S st C) {p : Addr} {n : Option Addr} {q : Addr}
    {t : Subscriber} (ht : (st.subs.modify p fun s => { s with node := n }).get q = some t)
    (hqp : q ≠ p) (hq : q ∉ S) : t.node = none := by
  rw [Heap.get_modify, if_neg hqp] at ht
  exact h.unlinked ht hq

/-- Adding a registered object is refused, and the tables stay as they are. -/
theorem Keeps.add_again (h : Keeps subs S st C) {p : Addr} (hp : p ∈ S) :
    ∃ st', addSubscriber (fun _ => true) st p = some (.treeDupSubscriber, st') ∧
      Keeps subs S st' C := by
  obtain ⟨pat, hsome⟩ := Option.isSome_iff_exists.mp (h.patterns hp)
  obtain ⟨s, hs, hpat⟩ := Option.bind_eq_some_iff.mp hsome
  obtain ⟨n, hget⟩ := h.objects hs
  obtain ⟨tree', tree'', b, hb, hgrown, htables, -, hdup, -⟩ :=
    add_subscriber_tables h.tables hget hpat
  have hfind := h.find_entry hs hpat hp
  refine ⟨_, hdup hfind, htables, h.objects_point p _, h.entries,
    h.patterns, h.keys, fun ht hq => ?_, fun {q t} ht hq => ?_⟩
  · exact h.linked_point hget hpat hgrown hb ht (Or.inr hq)
  · exact h.unlinked_point ht (fun heq => hq (heq ▸ hp)) hq

/-- Adding an object puts its entry last in the table of its pattern. -/
theorem Keeps.add_new (h : Keeps subs S st C) {p : Addr} {s : Subscriber} {pat : Path}
    (hs : subs.get p = some s) (hpat : s.pattern = some pat) (hp : p ∉ S) :
    ∃ st', addSubscriber (fun _ => true) st p = some (.ok, st') ∧ Tables st' (added C s p pat) ∧
      (∀ {q t}, subs.get q = some t → ∃ n, st'.subs.get q = some { t with node := n }) ∧
      (∀ {q t}, st'.subs.get q = some t → q = p ∨ q ∈ S → ∃ pat a, t.pattern = some pat ∧
        t.node = some a ∧ nodeAt st'.tree pat = some a) ∧
      ∀ {q t}, st'.subs.get q = some t → q ≠ p → q ∉ S → t.node = none := by
  obtain ⟨n, hget⟩ := h.objects hs
  obtain ⟨tree', tree'', b, hb, hgrown, -, hnodes, -, hnew⟩ :=
    add_subscriber_tables h.tables hget hpat
  have hfind : (C pat).find s.id ≠ some p := by
    intro hfind
    exact hp (h.entries.mp (HashTable.mem_of_find hfind)).1
  obtain ⟨hrun, htables⟩ := hnew hfind
  refine ⟨_, hrun, htables, h.objects_point p _, fun ht hq => ?_, h.unlinked_point⟩
  rw [hnodes]
  exact h.linked_point hget hpat hgrown hb ht hq

/-- Adding an object that clashes with no registered one registers it. -/
theorem Keeps.add_clear (h : Keeps subs S st C) {p : Addr} {s : Subscriber} {pat : Path}
    (hs : subs.get p = some s) (hpat : s.pattern = some pat) (hp : p ∉ S)
    (hclear : ∀ q ∈ S, ¬ Clash subs p q) :
    ∃ st', addSubscriber (fun _ => true) st p = some (.ok, st') ∧
      Keeps subs (insert p S) st' (added C s p pat) := by
  obtain ⟨st', hrun, htables, hobjects, hlinked, hunlinked⟩ := h.add_new hs hpat hp
  have hmem : ∀ q e, e ∈ added C s p pat q ↔ e ∈ C q ∨ q = pat ∧ e = (s.id, p) := by
    intro q e
    unfold added
    by_cases hq : q = pat
    · rw [hq, Function.update_self]
      simp [HashTable.add]
    · rw [Function.update_of_ne hq]
      simp [hq]
  refine ⟨st', hrun, htables, hobjects, fun {q id p'} => ?_, fun {q} hq => ?_, fun q => ?_,
    fun ht hq => hlinked ht (Finset.mem_insert.mp hq), fun ht hq => ?_⟩
  · rw [hmem, h.entries, Finset.mem_insert]
    constructor
    · rintro (⟨hp', hrest⟩ | ⟨rfl, heq⟩)
      · exact ⟨Or.inr hp', hrest⟩
      · obtain ⟨rfl, rfl⟩ := Prod.mk.inj heq
        exact ⟨Or.inl rfl, s, hs, rfl, hpat⟩
    · rintro ⟨rfl | hp', s', hs', hid, hpat'⟩
      · obtain rfl := Option.some.inj (hs.symm.trans hs')
        exact Or.inr ⟨Option.some.inj (hpat'.symm.trans hpat), by rw [hid]⟩
      · exact Or.inl ⟨hp', s', hs', hid, hpat'⟩
  · rcases Finset.mem_insert.mp hq with rfl | hq
    · rw [patternOf, hs]
      exact Option.isSome_iff_exists.mpr ⟨pat, hpat⟩
    · exact h.patterns hq
  · unfold added
    by_cases hq : q = pat
    · rw [hq, Function.update_self]
      refine HashTable.nodup_add (h.keys pat) ?_
      cases hfind : (C pat).find s.id with
      | none => rfl
      | some p' =>
          -- the entry is of an object that clashes
          obtain ⟨hp', s', hs', hid, hpat'⟩ := h.entries.mp (HashTable.mem_of_find hfind)
          refine absurd ⟨?_, s, s', hs, hs', hid.symm, pat, hpat, hpat'⟩ (hclear p' hp')
          rintro rfl
          exact hp hp'
    · rw [Function.update_of_ne hq]
      exact h.keys q
  · rw [Finset.mem_insert, not_or] at hq
    exact hunlinked ht hq.1 hq.2

/-- Deleting a registered object removes its entry. -/
theorem Keeps.del (h : Keeps subs S st C) {p : Addr} (hp : p ∈ S) :
    ∃ st' C', delSubscriber st p = some (.ok, st') ∧ Keeps subs (S.erase p) st' C' := by
  obtain ⟨pat, hsome⟩ := Option.isSome_iff_exists.mp (h.patterns hp)
  obtain ⟨s, hs, hpat⟩ := Option.bind_eq_some_iff.mp hsome
  obtain ⟨n, hget⟩ := h.objects hs
  obtain ⟨pat', a, hpat', hnode, ha⟩ := h.linked hget hp
  obtain ⟨nd, hlive, -⟩ := h.tables.tree.shape.node ha
  have hfind := h.find_entry hs hpat hp
  rcases del_subscriber_cases h.tables hget with ⟨hnone, -⟩ | ⟨a', hnode', hdead, -⟩ |
    ⟨a', pat'', -, hpat'', -, ⟨hnone, -⟩ | ⟨-, tree', hrun, htables, hback⟩⟩
  · rw [hnode] at hnone
    cases hnone
  · obtain rfl := Option.some.inj (hnode.symm.trans hnode')
    rw [hlive] at hdead
    cases hdead
  · obtain rfl := Option.some.inj (hpat.symm.trans hpat'')
    rw [hfind] at hnone
    cases hnone
  · obtain rfl := Option.some.inj (hpat.symm.trans hpat'')
    have hmem : ∀ q e, e ∈ Function.update C pat ((C pat).del s.id) q ↔
        e ∈ C q ∧ ¬ (q = pat ∧ e.1 = s.id) := by
      intro q e
      by_cases hq : q = pat
      · rw [hq, Function.update_self, HashTable.mem_del_iff (h.keys pat)]
        simp
      · rw [Function.update_of_ne hq]
        simp [hq]
    have hentries : ∀ {q id p'}, (id, p') ∈ Function.update C pat ((C pat).del s.id) q ↔
        p' ∈ S.erase p ∧ ∃ s, subs.get p' = some s ∧ s.id = id ∧ s.pattern = some q := by
      intro q id p'
      rw [hmem, h.entries, Finset.mem_erase]
      constructor
      · rintro ⟨⟨hp', s', hs', hid, hpat'⟩, hnot⟩
        refine ⟨⟨?_, hp'⟩, s', hs', hid, hpat'⟩
        rintro rfl
        obtain rfl := Option.some.inj (hs.symm.trans hs')
        exact hnot ⟨Option.some.inj (hpat'.symm.trans hpat), hid.symm⟩
      · rintro ⟨⟨hne, hp'⟩, s', hs', hid, hpat'⟩
        refine ⟨⟨hp', s', hs', hid, hpat'⟩, ?_⟩
        rintro ⟨rfl, hid'⟩
        exact h.not_clash hp' hp ⟨hne, s', s, hs', hs, hid.trans hid', q, hpat', hpat⟩
    refine ⟨_, _, hrun, htables, h.objects_point p none, hentries,
      fun hq => h.patterns (Finset.mem_of_mem_erase hq), fun q => ?_, fun {q t} ht hq => ?_,
      fun {q t} ht hq => ?_⟩
    · by_cases hq : q = pat
      · rw [hq, Function.update_self]
        exact HashTable.nodup_del (h.keys pat) s.id
      · rw [Function.update_of_ne hq]
        exact h.keys q
    · have hqS := Finset.mem_of_mem_erase hq
      rw [Heap.get_modify, if_neg (Finset.ne_of_mem_erase hq)] at ht
      obtain ⟨pat', x, hpat', hnode', hx⟩ := h.linked ht hqS
      refine ⟨pat', x, hpat', hnode', ?_⟩
      -- its table is not empty, so its node is still there
      cases hx' : nodeAt tree' pat' with
      | some y => rw [← hback hx', hx]
      | none =>
          have hempty := htables.tree.absent hx'
          obtain ⟨t', ht', hpatq⟩ := Option.bind_eq_some_iff.mp
            (Option.isSome_iff_exists.mp (h.patterns hqS)).choose_spec
          obtain ⟨m, hm⟩ := h.objects ht'
          obtain rfl := Option.some.inj (hm.symm.trans ht)
          have hentry := hentries.mpr ⟨hq, t', ht', rfl, hpat'⟩
          rw [hempty] at hentry
          cases hentry
    · by_cases hqp : q = p
      · rw [Heap.get_modify, if_pos hqp, ← hqp] at ht
        obtain ⟨t', -, rfl⟩ := Option.map_eq_some_iff.mp ht
        rfl
      · exact h.unlinked_point ht hqp fun hqS => hq (Finset.mem_erase.mpr ⟨hqp, hqS⟩)

/-- Where the tables hold the registered objects, these are kept apart. -/
theorem Keeps.separates (h : Keeps subs S st C) : Separates subs S st where
  find := h.finds
  again a ha := by
    obtain ⟨st', hrun, h'⟩ := h.add_again ha
    exact ⟨st', hrun, h'.finds⟩
  del a ha := by
    obtain ⟨st', C', hrun, h'⟩ := h.del ha
    exact ⟨st', hrun, h'.finds⟩

/-- A topic, read as a pattern, accepts its own levels. -/
theorem accepts_own {toks : List CStr} (hstar : ∀ t ∈ toks.dropLast, t ≠ star) :
    Accepts (toks.map levelOf) toks := by
  induction toks with
  | nil => exact .nil
  | cons tok rest ih =>
      rw [List.map_cons]
      unfold levelOf
      cases rest with
      | nil =>
          split_ifs
          · exact .multi tok []
          · exact .single tok .nil
          · exact .exact tok .nil
      | cons tok₂ rest =>
          have hrest := ih fun t ht => hstar t (by simpa using Or.inr ht)
          split_ifs with h1 h2
          · exact absurd h1 (hstar tok (by simp))
          · exact .single tok hrest
          · exact .exact tok hrest

/-- After an insertion that clashes with a registered object, deleting that object removes the entry
of the new one. -/
theorem Keeps.clash_not_separates (h : Keeps subs S st C) {p q : Addr} (hq : q ∈ S)
    (hclash : Clash subs p q) {st' : Store} (hstep : step st (.add p) = some st') :
    ¬ Separates subs (insert p S) st' := by
  intro hsep
  have hp : p ∉ S := fun hp => h.not_clash hp hq hclash
  obtain ⟨hne, s, t, hs, ht, hid, pat, hpat, hpat'⟩ := hclash
  obtain ⟨st₁, hrun, htables, hobjects, hlinked, -⟩ := h.add_new hs hpat hp
  obtain rfl : st₁ = st' := by
    have hstep' : step st (.add p) = some st₁ := by simp [step, hrun]
    exact Option.some.inj (hstep'.symm.trans hstep)
  obtain ⟨st₂, hdel, hfinds⟩ := hsep.del q (Finset.mem_insert_of_mem hq)
  obtain ⟨n, hget⟩ := hobjects ht
  obtain ⟨pat₁, a, hpat₁, hnode, ha⟩ := hlinked hget (Or.inr hq)
  obtain rfl : pat = pat₁ := Option.some.inj (hpat'.symm.trans hpat₁)
  obtain ⟨nd, hlive, -⟩ := htables.tree.shape.node ha
  have hfind : (added C s p pat pat).find t.id = some p := by
    unfold added
    rw [Function.update_self, ← hid, HashTable.find_add_self]
  rcases del_subscriber_cases htables hget with ⟨hnone, -⟩ | ⟨a', hnode', hdead, -⟩ |
    ⟨a', pat₂, -, hpat₂, -, ⟨hnone, -⟩ | ⟨-, tree', hrun', htables', -⟩⟩
  · rw [hnode] at hnone
    cases hnone
  · obtain rfl := Option.some.inj (hnode.symm.trans hnode')
    rw [hlive] at hdead
    cases hdead
  · obtain rfl := Option.some.inj (hpat'.symm.trans hpat₂)
    rw [hfind] at hnone
    cases hnone
  · obtain rfl := Option.some.inj (hpat'.symm.trans hpat₂)
    rw [hdel] at hrun'
    obtain ⟨-, rfl⟩ := Prod.mk.inj (Option.some.inj hrun')
    -- the table is what it was before the insertion
    have hback : Function.update (added C s p pat) pat ((added C s p pat pat).del t.id) pat =
        C pat := by
      unfold added
      rw [Function.update_self, Function.update_self, ← hid, HashTable.del_add]
    obtain ⟨toks, hlevels, rfl⟩ := Option.map_eq_some_iff.mp hpat'
    obtain ⟨pointers, hpointers, -, hmem⟩ := hfinds _ toks hlevels
    rw [find_pointers_eq htables' hlevels] at hpointers
    obtain rfl := Option.some.inj (Option.some.inj hpointers)
    have hin : q ∈ collect (fun r => (Function.update (added C s p (toks.map levelOf))
        (toks.map levelOf) ((added C s p (toks.map levelOf) (toks.map levelOf)).del t.id) r).map
          Prod.snd) [] toks := by
      refine mem_collect.mpr ⟨_, accepts_own (levels_spec hlevels).2, ?_⟩
      rw [List.nil_append, mem_pointers_iff]
      refine ⟨t.id, ?_⟩
      rw [hback]
      exact h.entries.mpr ⟨hq, t, ht, rfl, hpat'⟩
    exact Finset.notMem_erase q _ ((hmem q).mp hin).1

/-- One call whose insertion clashes with no registered object. -/
theorem Keeps.step (h : Keeps subs S st C) {op : Op} (hop : (subs.get op.sub).isSome)
    (hclear : ∀ p, op = .add p → ∀ q ∈ S, ¬ Clash subs p q) :
    ∃ st' C', step st op = some st' ∧ Keeps subs (registeredStep subs S op) st' C' := by
  obtain ⟨s, hs⟩ := Option.isSome_iff_exists.mp hop
  obtain ⟨n, hget⟩ := h.objects hs
  cases op with
  | add p =>
      simp only [Op.sub] at hs hget
      cases hpat : s.pattern with
      | none =>
          have hrun := add_subscriber_invalid (fun _ => true) hget hpat
          refine ⟨st, C, by simp [Topic.step, hrun], ?_⟩
          have hskip : registeredStep subs S (.add p) = S :=
            if_neg (by rw [patternOf, hs]; simp [hpat])
          rwa [hskip]
      | some pat =>
          have hreg : registeredStep subs S (.add p) = insert p S :=
            if_pos (by rw [patternOf, hs]; simp [hpat])
          rw [hreg]
          by_cases hp : p ∈ S
          · obtain ⟨st', hrun, h'⟩ := h.add_again hp
            exact ⟨st', C, by simp [Topic.step, hrun], by rwa [Finset.insert_eq_of_mem hp]⟩
          · obtain ⟨st', hrun, h'⟩ := h.add_clear hs hpat hp (hclear p rfl)
            exact ⟨st', _, by simp [Topic.step, hrun], h'⟩
  | del p =>
      simp only [Op.sub] at hs hget
      by_cases hp : p ∈ S
      · obtain ⟨st', C', hrun, h'⟩ := h.del hp
        exact ⟨st', C', by simp [Topic.step, hrun], h'⟩
      · obtain rfl : n = none := h.unlinked hget hp
        refine ⟨st, C, by simp [Topic.step, delSubscriber, hget], ?_⟩
        rwa [show registeredStep subs S (.del p) = S from Finset.erase_eq_of_notMem hp]

end Lookup

section Runs

theorem run_concat (ops : List Op) (op : Op) : ∀ st : Store,
    run (ops ++ [op]) st = (run ops st).bind fun st => step st op := by
  induction ops with
  | nil =>
      intro st
      show (step st op).bind some = step st op
      cases step st op <;> rfl
  | cons op₁ ops ih =>
      intro st
      show (step st op₁).bind (run (ops ++ [op])) = ((step st op₁).bind (run ops)).bind _
      rw [Option.bind_assoc]
      exact congrArg _ (funext ih)

theorem registered_concat (ops : List Op) (op : Op) :
    registeredAfter subs (ops ++ [op]) = registeredStep subs (registeredAfter subs ops) op := by
  unfold registeredAfter
  rw [List.foldl_append]
  rfl

/-- A run is clear when what comes before its last call is, and the last call is. -/
theorem clear_concat (ops : List Op) (op : Op) : Clear subs (ops ++ [op]) ↔ Clear subs ops ∧
    ∀ p, op = .add p → ∀ q ∈ registeredAfter subs ops, ¬ Clash subs p q := by
  constructor
  · intro h
    refine ⟨fun ops₁ p ops₂ heq => h ops₁ p (ops₂ ++ [op]) (by rw [heq]; simp), ?_⟩
    rintro p rfl
    exact h ops p [] rfl
  · rintro ⟨hops, hlast⟩ ops₁ p ops₂ heq
    rcases List.eq_nil_or_concat ops₂ with rfl | ⟨ops₂, op', rfl⟩
    · obtain ⟨rfl, hop⟩ := List.append_inj' heq rfl
      exact hlast p (List.cons.inj hop).1
    · rw [List.concat_eq_append, ← List.cons_append, ← List.append_assoc] at heq
      exact hops ops₁ p ops₂ (List.append_inj' heq rfl).1

theorem keeps_init (hsubs : ∀ p s, subs.get p = some s → s.node = none) :
    Keeps subs ∅ ⟨initTree, subs⟩ fun _ => [] where
  tables := tables_init fun {p s} => hsubs p s
  objects {p s} hs := ⟨none, by rw [← hsubs p s hs]; exact hs⟩
  entries := by simp
  patterns := by simp
  keys _ := List.nodup_nil
  linked _ hp := by simp at hp
  unlinked {p s} hs _ := hsubs p s hs

/-- A clear run is defined, and the tables hold what is registered. -/
theorem run_keeps (hsubs : ∀ p s, subs.get p = some s → s.node = none) (ops : List Op) :
    (∀ op ∈ ops, (subs.get op.sub).isSome) → Clear subs ops →
    ∃ st C, run ops ⟨initTree, subs⟩ = some st ∧ Keeps subs (registeredAfter subs ops) st C := by
  induction ops using List.reverseRecOn with
  | nil => exact fun _ _ => ⟨_, _, rfl, keeps_init hsubs⟩
  | append_singleton ops op ih =>
      intro hops hclear
      obtain ⟨hbefore, hlast⟩ := (clear_concat ops op).mp hclear
      obtain ⟨st, C, hrun, h⟩ := ih (fun op' hop' => hops op' (by simp [hop'])) hbefore
      obtain ⟨st', C', hstep, h'⟩ := h.step (hops op (by simp)) hlast
      refine ⟨st', C', ?_, by rwa [registered_concat]⟩
      rw [run_concat, hrun, Option.bind_some, hstep]

/-- In a run of insertions and deletions, in which allocation succeeds, all states that are reached
keep the registered objects apart exactly when no insertion of the run is of an object that clashes
with a registered one. -/
theorem separates_iff (hsubs : ∀ p s, subs.get p = some s → s.node = none) {ops : List Op}
    (hops : ∀ op ∈ ops, (subs.get op.sub).isSome) :
    (∀ ops₁, ops₁ <+: ops → ∃ st, run ops₁ ⟨initTree, subs⟩ = some st ∧
      Separates subs (registeredAfter subs ops₁) st) ↔ Clear subs ops := by
  constructor
  · induction ops using List.reverseRecOn with
    | nil => exact fun _ ops₁ p ops₂ heq => by simp at heq
    | append_singleton ops op ih =>
        intro hall
        have hbefore : ∀ op' ∈ ops, (subs.get op'.sub).isSome := fun op' hop' =>
          hops op' (by simp [hop'])
        have hclear := ih hbefore fun ops₁ hpre => hall ops₁ (hpre.trans (List.prefix_append _ _))
        refine (clear_concat ops op).mpr ⟨hclear, ?_⟩
        rintro p rfl q hq hclash
        obtain ⟨st, C, hrun, h⟩ := run_keeps hsubs ops hbefore hclear
        obtain ⟨st', hrun', hsep⟩ := hall _ (List.prefix_refl _)
        rw [run_concat, hrun, Option.bind_some] at hrun'
        refine h.clash_not_separates hq hclash hrun' ?_
        obtain ⟨-, s, -, hs, -, -, pat, hpat, -⟩ := hclash
        have hreg : registeredStep subs (registeredAfter subs ops) (.add p) =
            insert p (registeredAfter subs ops) :=
          if_pos (by rw [patternOf, hs]; simp [hpat])
        rwa [registered_concat, hreg] at hsep
  · rintro hclear ops₁ ⟨ops₂, rfl⟩
    have hclear₁ : Clear subs ops₁ := fun ops₃ p ops₄ heq =>
      hclear ops₃ p (ops₄ ++ ops₂) (by rw [heq]; simp)
    obtain ⟨st, C, hrun, h⟩ := run_keeps hsubs ops₁ (fun op hop => hops op (by simp [hop])) hclear₁
    exact ⟨st, hrun, h.separates⟩

end Runs

/-- Two objects with the `_id`, the client and the topic of one subscription. -/
def sameSubs : Heap Subscriber := ((Heap.empty.alloc literalSub).1.alloc literalSub).1

theorem same_subs_unlinked : ∀ p s, sameSubs.get p = some s → s.node = none := by
  intro p s h
  have hget : sameSubs.get p =
      if p = 1 then some literalSub else if p = 0 then some literalSub else none := rfl
  rw [hget] at h
  split_ifs at h <;> rw [← Option.some.inj h] <;> rfl

/-- One of the two objects is added, deleted and added again. -/
theorem separates_one : ∃ st, run [.add 0, .del 0, .add 0] ⟨initTree, sameSubs⟩ = some st ∧
    Separates sameSubs (registeredAfter sameSubs [.add 0, .del 0, .add 0]) st := by
  refine (separates_iff same_subs_unlinked (by decide)).mpr ?_ _ (List.prefix_refl _)
  have hnone : ∀ ops, registeredAfter sameSubs ops = ∅ →
      ∀ p, Op.add 0 = .add p → ∀ q ∈ registeredAfter sameSubs ops, ¬ Clash sameSubs p q := by
    intro ops h p _ q hq
    rw [h] at hq
    exact absurd hq (Finset.notMem_empty q)
  show Clear sameSubs ([] ++ [.add 0] ++ [.del 0] ++ [.add 0])
  rw [clear_concat, clear_concat, clear_concat]
  refine ⟨⟨⟨fun ops₁ p ops₂ heq => ?_, hnone [] rfl⟩, fun p heq => ?_⟩, hnone _ (by decide)⟩
  · simp at heq
  · cases heq

/-- When both objects are added, deleting the first leaves it in the tree and removes the second. -/
theorem separates_fails : ∃ st, run [.add 0, .add 1] ⟨initTree, sameSubs⟩ = some st ∧
    (delSubscriber st 0).bind (fun r => treeFindPointers r.2.tree (.ofString "a/b")) =
      some (some [0]) ∧
    ¬ Separates sameSubs (registeredAfter sameSubs [.add 0, .add 1]) st := by
  have hlookup : (run [.add 0, .add 1] ⟨initTree, sameSubs⟩).bind (fun st =>
      (delSubscriber st 0).bind fun r => treeFindPointers r.2.tree (.ofString "a/b")) =
      some (some [0]) := by decide
  obtain ⟨st, hrun, hfound⟩ := Option.bind_eq_some_iff.mp hlookup
  refine ⟨st, hrun, hfound, fun hsep => ?_⟩
  obtain ⟨st', hdel, hfinds⟩ := hsep.del 0 (by decide)
  rw [hdel] at hfound
  obtain ⟨pointers, hpointers, -, hmem⟩ := hfinds (.ofString "a/b")
    [.ofString "a", .ofString "b"] (by decide)
  obtain rfl := Option.some.inj (Option.some.inj (hpointers.symm.trans hfound))
  exact Finset.notMem_erase 0 _ ((hmem 0).mp List.mem_cons_self).1

end Bpsp.Topic
