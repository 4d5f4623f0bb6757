import Mathlib

/-!
# Insertion-ordered hash tables

The interface of an intrusive hash table as the program uses it: elements are kept in insertion
order, which is the order of iteration; `find` returns the most recently added element with a
key, as long as the buckets are not expanded; adding does not look for an element with the same key.
Most tables are only added to after an unsuccessful `find`, and for those (`(keys t).Nodup`) a table
is a finite map.
-/

namespace CLib

/-- A hash table: its elements in the order in which they were added. -/
abbrev HashTable (κ α : Type) := List (κ × α)

namespace HashTable

variable {κ α : Type}

/-- The keys in iteration order. -/
def keys (t : HashTable κ α) : List κ := t.map Prod.fst

/-- `HASH_ADD`: the new element comes last. -/
def add (t : HashTable κ α) (k : κ) (v : α) : HashTable κ α := t ++ [(k, v)]

@[simp] theorem keys_nil : keys ([] : HashTable κ α) = [] := rfl

@[simp] theorem keys_append (t u : HashTable κ α) : keys (t ++ u) = keys t ++ keys u :=
  List.map_append

@[simp] theorem keys_add (t : HashTable κ α) (k : κ) (v : α) : keys (t.add k v) = keys t ++ [k] :=
  List.map_append

theorem mem_keys_of_mem {t : HashTable κ α} {k : κ} {v : α} (h : (k, v) ∈ t) : k ∈ keys t :=
  List.mem_map.mpr ⟨(k, v), h, rfl⟩

theorem mem_keys_iff {t : HashTable κ α} {k : κ} : k ∈ keys t ↔ ∃ v, (k, v) ∈ t := by
  simp [keys]

/-- With distinct keys, an element is determined by its key. -/
theorem eq_of_mem {t : HashTable κ α} (h : (keys t).Nodup) {k : κ} {v w : α}
    (hv : (k, v) ∈ t) (hw : (k, w) ∈ t) : v = w := by
  have := List.inj_on_of_nodup_map h hv hw rfl
  exact (Prod.mk.inj this).2

/-- A table is determined by the order of its keys and its elements. -/
theorem eq_of_keys {t u : HashTable κ α} (hkeys : keys t = keys u) (h : (keys u).Nodup)
    (hmem : ∀ e ∈ t, e ∈ u) : t = u := by
  induction t generalizing u with
  | nil =>
      cases u with
      | nil => rfl
      | cons e u => cases hkeys
  | cons e t ih =>
      cases u with
      | nil => cases hkeys
      | cons e' u =>
          obtain ⟨hk, hrest⟩ := List.cons.inj hkeys
          have hhead : e = e' := Prod.ext hk (eq_of_mem h
            (by rw [← hk]; exact hmem e List.mem_cons_self) List.mem_cons_self)
          simp only [keys, List.map_cons, List.nodup_cons] at h
          rw [hhead, ih hrest h.2 fun x hx => ?_]
          refine (List.mem_cons.mp (hmem x (List.mem_cons_of_mem _ hx))).resolve_left ?_
          rintro rfl
          have hx' : x.1 ∈ List.map Prod.fst t := List.mem_map_of_mem hx
          rw [show List.map Prod.fst t = List.map Prod.fst u from hrest] at hx'
          exact h.1 hx'

variable [DecidableEq κ]

/-- `HASH_FIND`: the element with this key that was added last. -/
def find (t : HashTable κ α) (k : κ) : Option α :=
  (t.reverse.find? fun e => e.1 = k).map Prod.snd

/-- `HASH_DEL` of the element that `find` returns for this key. -/
def del (t : HashTable κ α) (k : κ) : HashTable κ α :=
  (t.reverse.eraseP fun e => e.1 = k).reverse

/-- Overwrites the value of the elements with this key in place. -/
def update (t : HashTable κ α) (k : κ) (v : α) : HashTable κ α :=
  t.map fun e => if e.1 = k then (e.1, v) else e

@[simp] theorem find_nil (k : κ) : find ([] : HashTable κ α) k = none := rfl

theorem find_add (t : HashTable κ α) (k k' : κ) (v : α) :
    (t.add k v).find k' = if k = k' then some v else t.find k' := by
  by_cases h : k = k' <;> simp [find, add, h]

@[simp] theorem find_add_self (t : HashTable κ α) (k : κ) (v : α) :
    (t.add k v).find k = some v := by simp [find_add]

theorem mem_of_find {t : HashTable κ α} {k : κ} {v : α} (h : t.find k = some v) : (k, v) ∈ t := by
  simp only [find, Option.map_eq_some_iff] at h
  obtain ⟨⟨k', v'⟩, hfind, rfl⟩ := h
  have hk : k' = k := by simpa using List.find?_some hfind
  subst hk
  exact List.mem_reverse.mp (List.mem_of_find?_eq_some hfind)

theorem find_eq_none_iff {t : HashTable κ α} {k : κ} : t.find k = none ↔ k ∉ keys t := by
  simp only [find, Option.map_eq_none_iff, List.find?_eq_none, mem_keys_iff, List.mem_reverse]
  constructor
  · rintro h ⟨v, hv⟩
    simpa using h _ hv
  · rintro h ⟨k', v⟩ hmem hk
    simp only [decide_eq_true_eq] at hk
    exact h ⟨v, hk ▸ hmem⟩

theorem find_isSome_iff {t : HashTable κ α} {k : κ} : (t.find k).isSome ↔ k ∈ keys t := by
  rw [← not_iff_not, Option.not_isSome_iff_eq_none, find_eq_none_iff]

/-- With distinct keys, `find` returns exactly the stored element. -/
theorem find_eq_some_iff {t : HashTable κ α} (h : (keys t).Nodup) {k : κ} {v : α} :
    t.find k = some v ↔ (k, v) ∈ t := by
  refine ⟨mem_of_find, fun hmem => ?_⟩
  cases hf : t.find k with
  | none => exact absurd (mem_keys_of_mem hmem) (find_eq_none_iff.mp hf)
  | some w => rw [eq_of_mem h hmem (mem_of_find hf)]

/-- With distinct keys, `find` does not depend on the order of the elements. -/
theorem find_perm {t u : HashTable κ α} (hperm : List.Perm t u) (h : (keys u).Nodup) (k : κ) :
    t.find k = u.find k := by
  have ht : (keys t).Nodup := (hperm.map Prod.fst).nodup_iff.mpr h
  refine Option.ext fun v => ?_
  rw [find_eq_some_iff ht, find_eq_some_iff h, hperm.mem_iff]

theorem nodup_add {t : HashTable κ α} {k : κ} {v : α} (h : (keys t).Nodup)
    (hk : t.find k = none) : (keys (t.add k v)).Nodup := by
  have hnot := find_eq_none_iff.mp hk
  simp only [keys_add, List.nodup_append, h, List.nodup_singleton, true_and, List.mem_singleton]
  rintro a ha b rfl rfl
  exact hnot ha

/-- Deleting what was just added restores the table. -/
@[simp] theorem del_add (t : HashTable κ α) (k : κ) (v : α) : (t.add k v).del k = t := by
  simp [del, add]

/-- With distinct keys, deletion keeps exactly the elements with other keys, in order. -/
theorem del_eq_filter {t : HashTable κ α} (h : (keys t).Nodup) (k : κ) :
    t.del k = t.filter fun e => e.1 ≠ k := by
  induction t with
  | nil => rfl
  | cons e rest ih =>
      simp only [keys, List.map_cons, List.nodup_cons] at h
      have hrest := ih h.2
      simp only [del] at hrest ⊢
      rw [List.reverse_cons, List.filter_cons]
      by_cases hmem : k ∈ keys rest
      · obtain ⟨v, hv⟩ := mem_keys_iff.mp hmem
        have hne : e.1 ≠ k := fun heq => h.1 (heq ▸ hmem)
        rw [List.eraseP_append_left (a := (k, v)) (by simp) [e] (List.mem_reverse.mpr hv)]
        simp [hne, hrest]
      · have hnone : ∀ x ∈ rest.reverse, ¬ (decide (x.1 = k)) = true := by
          rintro ⟨k', v⟩ hx hk
          simp only [decide_eq_true_eq] at hk
          exact hmem (mem_keys_of_mem (hk ▸ List.mem_reverse.mp hx))
        rw [List.eraseP_append_right _ hnone]
        rw [List.eraseP_of_forall_not hnone] at hrest
        rw [← hrest]
        by_cases hk : e.1 = k <;> simp [hk]

theorem mem_del_iff {t : HashTable κ α} (h : (keys t).Nodup) {k : κ} {e : κ × α} :
    e ∈ t.del k ↔ e ∈ t ∧ e.1 ≠ k := by
  simp [del_eq_filter h]

theorem nodup_del {t : HashTable κ α} (h : (keys t).Nodup) (k : κ) : (keys (t.del k)).Nodup := by
  rw [del_eq_filter h]
  exact h.sublist (List.filter_sublist.map _)

theorem find_del {t : HashTable κ α} (h : (keys t).Nodup) (k k' : κ) :
    (t.del k).find k' = if k = k' then none else t.find k' := by
  by_cases hk : k = k'
  · subst hk
    rw [if_pos rfl, find_eq_none_iff, mem_keys_iff]
    rintro ⟨v, hv⟩
    exact ((mem_del_iff h).mp hv).2 rfl
  · rw [if_neg hk]
    ext v
    rw [find_eq_some_iff (nodup_del h k), find_eq_some_iff h, mem_del_iff h]
    exact ⟨And.left, fun hv => ⟨hv, fun heq => hk heq.symm⟩⟩

theorem find_eq_nil_iff {t : HashTable κ α} : t = [] ↔ ∀ k, t.find k = none := by
  simp only [find_eq_none_iff]
  refine ⟨fun h k => by simp [h], fun h => ?_⟩
  cases t with
  | nil => rfl
  | cons e rest => exact absurd (by simp [keys]) (h e.1)

@[simp] theorem keys_update (t : HashTable κ α) (k : κ) (v : α) : keys (t.update k v) = keys t := by
  simp only [keys, update, List.map_map]
  refine List.map_congr_left fun e _ => ?_
  by_cases h : e.1 = k <;> simp [h]

/-- Overwriting the value of a key that is not there does nothing. -/
theorem update_of_not_mem {t : HashTable κ α} {k : κ} (h : k ∉ keys t) (v : α) :
    t.update k v = t := by
  have hid : ∀ e ∈ t, (if e.1 = k then (e.1, v) else e) = e := by
    intro e he
    refine if_neg fun hk => h ?_
    exact mem_keys_iff.mpr ⟨e.2, by rw [← hk]; exact he⟩
  rw [update, List.map_congr_left hid, List.map_id']

theorem mem_update_iff {t : HashTable κ α} {k k' : κ} {v w : α} :
    (k', w) ∈ t.update k v ↔ if k = k' then k ∈ keys t ∧ w = v else (k', w) ∈ t := by
  simp only [update, List.mem_map, Prod.exists]
  constructor
  · rintro ⟨a, b, hmem, heq⟩
    by_cases ha : a = k
    · rw [if_pos ha, Prod.mk.injEq] at heq
      obtain ⟨rfl, rfl⟩ := heq
      exact if_pos ha.symm ▸ ⟨ha ▸ mem_keys_of_mem hmem, rfl⟩
    · rw [if_neg ha, Prod.mk.injEq] at heq
      obtain ⟨rfl, rfl⟩ := heq
      rwa [if_neg fun h => ha h.symm]
  · intro h
    by_cases hk : k = k'
    · rw [if_pos hk] at h
      obtain ⟨b, hb⟩ := mem_keys_iff.mp h.1
      exact ⟨k, b, hb, by simp [← hk, h.2]⟩
    · rw [if_neg hk] at h
      exact ⟨k', w, h, if_neg fun heq => hk heq.symm⟩

theorem find_update {t : HashTable κ α} (h : (keys t).Nodup) {k : κ} (hk : k ∈ keys t) (k' : κ)
    (v : α) : (t.update k v).find k' = if k = k' then some v else t.find k' := by
  ext w
  rw [find_eq_some_iff (by simpa using h), mem_update_iff]
  by_cases heq : k = k'
  · simp [heq ▸ hk, heq, eq_comm]
  · simp [heq, find_eq_some_iff h]

/-- Overwriting a value changes a sum over the elements by the difference of two summands. -/
theorem sum_update (w : κ × α → Nat) {t : HashTable κ α} (hnodup : (keys t).Nodup) {k : κ}
    {v old : α} (hfind : t.find k = some old) :
    ((t.update k v).map w).sum + w (k, old) = (t.map w).sum + w (k, v) := by
  have hmem := mem_of_find hfind
  clear hfind
  induction t with
  | nil => simp at hmem
  | cons e t ih =>
      simp only [keys, List.map_cons, List.nodup_cons] at hnodup
      obtain ⟨k', v'⟩ := e
      have hcons : update ((k', v') :: t) k v =
          (if k' = k then (k', v) else (k', v')) :: update t k v := rfl
      rcases List.mem_cons.mp hmem with heq | hmem
      · obtain ⟨rfl, rfl⟩ := Prod.mk.inj heq
        rw [hcons, update_of_not_mem hnodup.1]
        simp only [if_true, List.map_cons, List.sum_cons]
        omega
      · have hne : k' ≠ k := by
          rintro rfl
          exact hnodup.1 (mem_keys_of_mem hmem)
        have := ih hnodup.2 hmem
        rw [hcons]
        simp only [hne, if_false, List.map_cons, List.sum_cons]
        omega

end HashTable

end CLib
