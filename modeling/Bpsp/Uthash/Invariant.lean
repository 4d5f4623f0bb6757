import Bpsp.Uthash.Buckets

/-!
# The elements of a table

`Hash.Lists h l` says that a table is in order and has the elements `l`, in the order in which they
were added. Adding an object that is not in the table puts it at the end, deleting an element takes
it out, and neither depends on the keys: a table may have several elements with one key.
-/

namespace Bpsp.Uthash

open CLib

variable {ι : Type}

/-- A table that starts with `head` has the elements `l`, in this order. -/
structure Holds (m : Handles ι) (head : ι) (t : Table ι) (l : List ι) : Prop where
  head : l.head? = some head
  tail : l.getLast? = some t.tail
  order : Chain m.next m.prev none l none
  nodup : l.Nodup
  numItems : t.numItems = l.length
  numBuckets : t.numBuckets = 2 ^ t.log2NumBuckets
  chains : ∃ C, Chains m t.numBuckets t.buckets {b | b ∈ l} C

/-- A table has the elements `l`: the variable is NULL when there are none. -/
def Hash.Lists (h : Hash ι) (l : List ι) : Prop :=
  match h.head with
  | none => l = []
  | some (head, t) => Holds h.mem head t l

/-- The keys of all objects are the same. -/
structure SameKeys (m m' : Handles ι) : Prop where
  key : m'.key = m.key
  keylen : m'.keylen = m.keylen
  hashv : m'.hashv = m.hashv

theorem SameOrder.sameKeys {m m' : Handles ι} (h : SameOrder m m') : SameKeys m m' :=
  ⟨h.key, h.keylen, h.hashv⟩

variable {m : Handles ι} {first a : ι} {t : Table ι} {l l₁ l₂ : List ι} {h : Hash ι}

theorem Holds.numBuckets_pos (hholds : Holds m first t l) : 0 < t.numBuckets := by
  rw [hholds.numBuckets]
  exact Nat.two_pow_pos _

theorem Hash.lists_none (hhead : h.head = none) : h.Lists l ↔ l = [] := by
  rw [Hash.Lists, hhead]

theorem Hash.lists_some (hhead : h.head = some (first, t)) : h.Lists l ↔ Holds h.mem first t l := by
  rw [Hash.Lists, hhead]

theorem Hash.Lists.nodup (hl : h.Lists l) : l.Nodup := by
  cases hhead : h.head with
  | none =>
      rw [(Hash.lists_none hhead).mp hl]
      exact List.nodup_nil
  | some p => exact ((Hash.lists_some hhead).mp hl).nodup

theorem Hash.Lists.count (hl : h.Lists l) : hashCount h = l.length := by
  cases hhead : h.head with
  | none =>
      rw [(Hash.lists_none hhead).mp hl, hashCount, hhead]
      rfl
  | some p =>
      rw [hashCount, hhead]
      exact ((Hash.lists_some hhead).mp hl).numItems

/-- The variable points to the first element. -/
theorem Hash.Lists.head (hl : h.Lists l) : h.head.map Prod.fst = l.head? := by
  cases hhead : h.head with
  | none =>
      rw [(Hash.lists_none hhead).mp hl]
      rfl
  | some p => exact ((Hash.lists_some hhead).mp hl).head.symm

/-- The variable of a table without elements is NULL. -/
theorem Hash.Lists.head_eq_none (hl : h.Lists []) : h.head = none :=
  Option.map_eq_none_iff.mp hl.head

/-- The elements are linked in their order. -/
theorem Hash.Lists.order (hl : h.Lists l) : Chain h.mem.next h.mem.prev none l none := by
  cases hhead : h.head with
  | none =>
      rw [(Hash.lists_none hhead).mp hl]
      trivial
  | some p => exact ((Hash.lists_some hhead).mp hl).order

/-- An element is followed by the one that was added after it. -/
theorem Hash.Lists.next (hl : h.Lists (l₁ ++ a :: l₂)) : h.mem.next a = l₂.head? := by
  rw [hl.order.neighbours.2, Option.or_none]

/-- `HASH_FIND_BYHASHVALUE` finds an element with the key when there is one. -/
theorem Hash.Lists.find (hl : h.Lists l) (key : CStr) (keylen hashval : UInt32) :
    ∃ out, hashFindByhashvalue h key keylen hashval = some out ∧
      (∀ a, out = some a → a ∈ l ∧ h.mem.isFound key keylen hashval a) ∧
      (out = none → ∀ a ∈ l, ¬ h.mem.isFound key keylen hashval a) := by
  cases hhead : h.head with
  | none =>
      have hnil := (Hash.lists_none hhead).mp hl
      refine ⟨none, ?_, fun a ha => ?_, fun _ a ha => ?_⟩
      · rw [hashFindByhashvalue, hhead]
      · cases ha
      · rw [hnil] at ha
        cases ha
  | some p =>
      obtain ⟨first, t⟩ := p
      have hholds := (Hash.lists_some hhead).mp hl
      obtain ⟨C, hC⟩ := hholds.chains
      have hfuel : (C (hashToBkt hashval t.numBuckets)).length ≤ t.numItems := by
        rw [hholds.numItems]
        exact hC.length_le _
      refine ⟨(C (hashToBkt hashval t.numBuckets)).find? (h.mem.isFound key keylen hashval), ?_,
        fun a ha => ?_, fun hnone a ha hfound => ?_⟩
      · rw [hashFindByhashvalue, hhead]
        dsimp only
        rw [hC.head, (hC.chain _).search _ hfuel]
      · have hmem := (hC.mem_iff _ a).mp (List.mem_of_find?_eq_some ha)
        exact ⟨hmem.1, List.find?_some ha⟩
      · have hmem : a ∈ C (hashToBkt hashval t.numBuckets) := by
          rw [← (of_decide_eq_true hfound).1]
          exact hC.mem_bkt ha
        exact List.find?_eq_none.mp hnone a hmem hfound

/-- The rule for `HASH_ITER`: `I` relates the elements that are left and the state, in which the
next one is still found from the current one. -/
theorem hashIter_rule {σ : Type} {table : σ → Hash ι} {body : ι → σ → Exec σ} {s : σ}
    (I : List ι → σ → Prop) (hl : (table s).Lists l) (hstart : I l s)
    (hnext : ∀ el rest s, I (el :: rest) s → (table s).mem.next el = rest.head?)
    (hbody : ∀ el rest s, I (el :: rest) s → ∃ s', body el s = some s' ∧ I rest s') :
    ∃ s', hashIter table body s = some s' ∧ I [] s' := by
  rw [hashIter, hl.head, hl.count]
  exact iterate_rule I hnext hbody hstart le_rfl

variable [DecidableEq ι]

/-- The end of adding an element, which is the last in the order already. -/
theorem hashAddToTable_lists {C : Nat → List ι} {hashval : UInt32}
    (hhead : (l ++ [a]).head? = some first) (htail : t.tail = a)
    (horder : Chain m.next m.prev none (l ++ [a]) none) (hnodup : (l ++ [a]).Nodup)
    (hitems : t.numItems = l.length) (hpow : t.numBuckets = 2 ^ t.log2NumBuckets)
    (hchains : Chains m t.numBuckets t.buckets {b | b ∈ l} C) (hhashv : m.hashv a = hashval) :
    ∃ h', hashAddToTable m first t hashval a = some h' ∧ h'.Lists (l ++ [a]) ∧
      SameKeys m h'.mem := by
  let t₁ : Table ι := { t with numItems := t.numItems + 1 }
  have ha : a ∉ {b | b ∈ l} := by
    intro hmem
    exact (List.nodup_append.mp hnodup).2.2 a hmem a List.mem_cons_self rfl
  have hpos : 0 < t₁.numBuckets := by
    rw [show t₁.numBuckets = 2 ^ t.log2NumBuckets from hpow]
    exact Nat.two_pow_pos _
  have hshort : ∀ i, (C i).length < t₁.numItems := by
    intro i
    have hle := hchains.length_le i
    change (C i).length < t.numItems + 1
    omega
  obtain ⟨m', t', heq, hrebuilt⟩ := hashAddToBkt_rebuilt
    (show Chains m t₁.numBuckets t₁.buckets _ C from hchains) ha hpos hshort (i := _)
    (by rw [hhashv])
  refine ⟨⟨m', some (first, t')⟩, ?_, ?_, hrebuilt.same.sameKeys⟩
  · rw [hashAddToTable]
    simp only [t₁] at heq
    rw [heq]
    rfl
  · refine Holds.mk hhead ?_ ?_ hnodup ?_ (hrebuilt.numBuckets hpow) ?_
    · rw [List.getLast?_concat, hrebuilt.tail]
      exact congrArg some htail.symm
    · rw [hrebuilt.same.next, hrebuilt.same.prev]
      exact horder
    · rw [hrebuilt.numItems, List.length_append]
      exact congrArg (· + 1) hitems
    · obtain ⟨C', hC'⟩ := hrebuilt.chains
      have hset : {b | b ∈ l ++ [a]} = insert a {b | b ∈ l} := by
        ext b
        simp only [List.mem_append, List.mem_singleton, Set.mem_ofPred_eq, Set.mem_insert_iff]
        exact or_comm
      exact ⟨C', by rw [hset]; exact hC'⟩

/-- `HASH_ADD_KEYPTR_BYHASHVALUE` of an object that is not in the table. -/
theorem Hash.Lists.add (hl : h.Lists l) (ha : a ∉ l) (key : CStr) (keylen hashval : UInt32) :
    ∃ h', hashAddKeyptrByhashvalue h key keylen hashval a = some h' ∧ h'.Lists (l ++ [a]) ∧
      SameKeys (h.mem.setKey a key keylen hashval) h'.mem := by
  let m := h.mem.setKey a key keylen hashval
  have hhashv : m.hashv a = hashval := Function.update_self _ _ _
  have hnodup : (l ++ [a]).Nodup := by
    refine List.nodup_append.mpr ⟨hl.nodup, List.nodup_singleton a, fun b hb c hc => ?_⟩
    rw [List.mem_singleton.mp hc]
    exact ne_of_mem_of_not_mem hb ha
  cases hhead : h.head with
  | none =>
      have hnil := (Hash.lists_none hhead).mp hl
      subst hnil
      rw [hashAddKeyptrByhashvalue, hhead]
      have hempty : {b : ι | b ∈ ([] : List ι)} = ∅ := by simp
      let m₁ : Handles ι :=
        { m with next := Function.update m.next a none, prev := Function.update m.prev a none }
      have hchains :
          Chains m₁ 32 (hashMakeTable a).buckets {b | b ∈ ([] : List ι)} fun _ => [] := by
        rw [hempty]
        exact chains_empty m₁ 32
      have horder : Chain m₁.next m₁.prev none ([] ++ [a]) none :=
        ⟨Function.update_self _ _ _, Function.update_self _ _ _, trivial⟩
      obtain ⟨h', heq, hlists, hkeys⟩ : ∃ h',
          hashAddToTable m₁ a (hashMakeTable a) hashval a = some h' ∧ h'.Lists ([] ++ [a]) ∧
            SameKeys m₁ h'.mem :=
        hashAddToTable_lists rfl rfl horder hnodup rfl rfl hchains hhashv
      exact ⟨h', heq, hlists, hkeys.key, hkeys.keylen, hkeys.hashv⟩
  | some p =>
      obtain ⟨first, t⟩ := p
      have hholds := (Hash.lists_some hhead).mp hl
      obtain ⟨C, hC⟩ := hholds.chains
      rw [hashAddKeyptrByhashvalue, hhead]
      have hchain := hl.order.snoc hl.nodup ha
      rw [hholds.tail] at hchain
      have hchains : Chains (hashAppendList m t a).1 t.numBuckets t.buckets {b | b ∈ l} C := by
        refine hC.congr (fun _ _ => rfl) (fun _ _ => rfl) fun b hb => ?_
        exact Function.update_of_ne (ne_of_mem_of_not_mem hb ha) _ _
      have hfirst : (l ++ [a]).head? = some first := by
        rw [List.head?_append, hholds.head, Option.some_or]
      obtain ⟨h', heq, hlists, hkeys⟩ : ∃ h',
          hashAddToTable (hashAppendList m t a).1 first (hashAppendList m t a).2 hashval a =
            some h' ∧ h'.Lists (l ++ [a]) ∧ SameKeys (hashAppendList m t a).1 h'.mem :=
        hashAddToTable_lists hfirst rfl hchain hnodup hholds.numItems hholds.numBuckets hchains
          hhashv
      exact ⟨h', heq, hlists, hkeys.key, hkeys.keylen, hkeys.hashv⟩

/-- What is left of a table when an element is taken out of both of its lists. -/
theorem Holds.unlink (hholds : Holds m first t (l₁ ++ a :: l₂)) {first' last' : ι}
    (hfirst : (l₁ ++ l₂).head? = some first') (hlast : (l₁ ++ l₂).getLast? = some last')
    {m' : Handles ι} {t' : Table ι}
    (hdel : hashDelInBkt (m.unlink a) { t with tail := last' }
      (hashToBkt (m.hashv a) t.numBuckets) a = (m', t')) :
    Holds m' first' { t' with numItems := t'.numItems - 1 } (l₁ ++ l₂) ∧ SameKeys m m' := by
  have hnodup := hholds.nodup
  obtain ⟨hprev, hnext⟩ := hholds.order.neighbours
  obtain ⟨C, hC⟩ := hholds.chains
  let t₁ : Table ι := { t with tail := last' }
  have hC₁ : Chains (m.unlink a) t₁.numBuckets t₁.buckets {b | b ∈ l₁ ++ a :: l₂} C :=
    hC.congr (fun _ _ => rfl) (fun _ _ => rfl) fun _ _ => rfl
  have hrebuilt := hashDelInBkt_rebuilt hC₁ (List.mem_append_right l₁ List.mem_cons_self) rfl
  have hdel₁ : hashDelInBkt (m.unlink a) t₁ (hashToBkt ((m.unlink a).hashv a) t₁.numBuckets) a =
      (m', t') := hdel
  rw [hdel₁] at hrebuilt
  have hkeys := hrebuilt.same.sameKeys
  refine ⟨Holds.mk hfirst ?_ ?_ ?_ ?_ (hrebuilt.numBuckets hholds.numBuckets) ?_,
    hkeys.key, hkeys.keylen, hkeys.hashv⟩
  · rw [hlast]
    exact congrArg some hrebuilt.tail.symm
  · rw [hrebuilt.same.next, hrebuilt.same.prev]
    exact hholds.order.unlink hnodup
  · exact hnodup.sublist (List.Sublist.append_left (List.sublist_cons_self a l₂) l₁)
  · have hitems := hrebuilt.numItems
    change t'.numItems - 1 = (l₁ ++ l₂).length
    rw [hitems]
    change t.numItems - 1 = (l₁ ++ l₂).length
    rw [hholds.numItems]
    simp
  · obtain ⟨C'', hC''⟩ := hrebuilt.chains
    have hset : {b | b ∈ l₁ ++ l₂} = {b | b ∈ l₁ ++ a :: l₂} \ {a} := by
      obtain ⟨-, hnodup₂, hdisj⟩ := List.nodup_append.mp hnodup
      ext b
      simp only [List.mem_append, List.mem_cons, Set.mem_ofPred_eq, Set.mem_sdiff,
        Set.mem_singleton_iff]
      have h₁ : b ∈ l₁ → b ≠ a := fun hb => hdisj b hb a List.mem_cons_self
      have h₂ : b ∈ l₂ → b ≠ a := fun hb => ne_of_mem_of_not_mem hb (List.nodup_cons.mp hnodup₂).1
      tauto
    exact ⟨C'', by rw [hset]; exact hC''⟩

/-- `HASH_DELETE` of an element. -/
theorem Hash.Lists.delete (hl : h.Lists l) (ha : a ∈ l) :
    ∃ h', hashDelete h a = some h' ∧ h'.Lists (l.erase a) ∧ SameKeys h.mem h'.mem := by
  obtain ⟨l₁, l₂, rfl⟩ := List.append_of_mem ha
  obtain ⟨-, hnodup₂, hdisj⟩ := List.nodup_append.mp hl.nodup
  have hout₁ : a ∉ l₁ := fun hmem => hdisj a hmem a List.mem_cons_self rfl
  have hout₂ : a ∉ l₂ := (List.nodup_cons.mp hnodup₂).1
  rw [List.erase_append_right _ hout₁, List.erase_cons_head]
  cases hhead : h.head with
  | none => exact absurd ((Hash.lists_none hhead).mp hl) (by simp)
  | some p =>
      obtain ⟨first, t⟩ := p
      have hholds := (Hash.lists_some hhead).mp hl
      obtain ⟨hprev, hnext⟩ := hl.order.neighbours
      rw [Option.or_none] at hprev hnext
      rw [hashDelete, hhead]
      simp only [Handles.tailWithout, Handles.headWithout, hprev, hnext,
        getLast?_unlink hholds.tail hout₂, head?_unlink hholds.head]
      by_cases hlast : l₁.getLast? = none ∧ l₂.head? = none
      · -- the only element
        rw [if_pos hlast]
        obtain ⟨hnone₁, hnone₂⟩ := hlast
        rw [List.getLast?_eq_none_iff] at hnone₁
        rw [List.head?_eq_none_iff] at hnone₂
        subst hnone₁ hnone₂
        exact ⟨_, rfl, rfl, rfl, rfl, rfl⟩
      · rw [if_neg hlast]
        have hne : l₁ ++ l₂ ≠ [] := by
          intro hnil
          obtain ⟨rfl, rfl⟩ := List.append_eq_nil_iff.mp hnil
          exact hlast ⟨rfl, rfl⟩
        obtain ⟨last', hlast'⟩ :=
          Option.ne_none_iff_exists'.mp (mt List.getLast?_eq_none_iff.mp hne)
        obtain ⟨first', hfirst'⟩ := Option.ne_none_iff_exists'.mp (mt List.head?_eq_none_iff.mp hne)
        rw [hlast', hfirst']
        obtain ⟨hrest, hkeys⟩ := hholds.unlink hfirst' hlast' rfl
        exact ⟨_, rfl, hrest, hkeys⟩

end Bpsp.Uthash
