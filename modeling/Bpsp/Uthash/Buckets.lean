import Bpsp.Uthash.Table

/-!
# The chains of the buckets

`Chains` says that the buckets partition a set of items: each is in the chain of the bucket that its
hash selects. Putting an item in front of its chain and taking one out keep that, and so does an
expansion, which walks the old chains while it builds the new ones out of the same handles.
-/

namespace Bpsp.Uthash

open CLib

variable {ι : Type}

/-- The buckets have the chains `C`, which hold the items in `S`, each in its bucket out of `n`. -/
structure Chains (m : Handles ι) (n : Nat) (buckets : Nat → Bucket ι) (S : Set ι)
    (C : Nat → List ι) : Prop where
  head : ∀ i, (buckets i).hhHead = (C i).head?
  count : ∀ i, (buckets i).count = (C i).length
  chain : ∀ i, Chain m.hhNext m.hhPrev none (C i) none
  nodup : ∀ i, (C i).Nodup
  mem_iff : ∀ i a, a ∈ C i ↔ a ∈ S ∧ hashToBkt (m.hashv a) n = i

/-- Two memories differ in the chains of the buckets only. -/
structure SameOrder (m m' : Handles ι) : Prop where
  prev : m'.prev = m.prev
  next : m'.next = m.next
  key : m'.key = m.key
  keylen : m'.keylen = m.keylen
  hashv : m'.hashv = m.hashv

theorem SameOrder.refl (m : Handles ι) : SameOrder m m := ⟨rfl, rfl, rfl, rfl, rfl⟩

theorem SameOrder.trans {m m' m'' : Handles ι} (h : SameOrder m m') (h' : SameOrder m' m'') :
    SameOrder m m'' where
  prev := h'.prev.trans h.prev
  next := h'.next.trans h.next
  key := h'.key.trans h.key
  keylen := h'.keylen.trans h.keylen
  hashv := h'.hashv.trans h.hashv

/-- A bucket is always one of the array. -/
theorem hashToBkt_lt (hashv : UInt32) {n : Nat} (hn : 0 < n) : hashToBkt hashv n < n := by
  have hle : hashv.toNat &&& (n - 1) ≤ n - 1 := Nat.and_le_right
  unfold hashToBkt
  omega

variable {m m' : Handles ι} {n : Nat} {buckets : Nat → Bucket ι} {S : Set ι} {C : Nat → List ι}
  {a : ι}

/-- New buckets are empty. -/
theorem chains_empty (m : Handles ι) (n : Nat) :
    Chains m n (fun _ => ⟨none, 0, 0⟩) ∅ fun _ => [] where
  head := fun _ => rfl
  count := fun _ => rfl
  chain := fun _ => trivial
  nodup := fun _ => List.nodup_nil
  mem_iff := fun i a => by simp

/-- The chains depend on the handles of their items only. -/
theorem Chains.congr (h : Chains m n buckets S C) (hnext : ∀ b ∈ S, m'.hhNext b = m.hhNext b)
    (hprev : ∀ b ∈ S, m'.hhPrev b = m.hhPrev b) (hhashv : ∀ b ∈ S, m'.hashv b = m.hashv b) :
    Chains m' n buckets S C where
  head := h.head
  count := h.count
  nodup := h.nodup
  chain := fun i => (h.chain i).congr (fun b hb => hnext b ((h.mem_iff i b).mp hb).1)
    fun b hb => hprev b ((h.mem_iff i b).mp hb).1
  mem_iff := fun i b => by
    rw [h.mem_iff i b]
    refine and_congr_right fun hb => ?_
    rw [hhashv b hb]

/-- An item is in the chain of its bucket. -/
theorem Chains.mem_bkt (h : Chains m n buckets S C) (ha : a ∈ S) :
    a ∈ C (hashToBkt (m.hashv a) n) :=
  (h.mem_iff _ a).mpr ⟨ha, rfl⟩

/-- No item is in two chains. -/
theorem Chains.eq_of_mem (h : Chains m n buckets S C) {i j : Nat} (hi : a ∈ C i) (hj : a ∈ C j) :
    i = j :=
  ((h.mem_iff i a).mp hi).2.symm.trans ((h.mem_iff j a).mp hj).2

/-- No chain is longer than a list of all items. -/
theorem Chains.length_le {l : List ι} (h : Chains m n buckets {b | b ∈ l} C) (i : Nat) :
    (C i).length ≤ l.length :=
  ((h.nodup i).subperm fun b hb => ((h.mem_iff i b).mp hb).1).length_le

variable [DecidableEq ι]

/-- An item becomes the first in the chain of its bucket. -/
theorem Chains.push (h : Chains m n buckets S C) (ha : a ∉ S) {i : Nat}
    (hi : hashToBkt (m.hashv a) n = i) (mult : Nat) :
    Chains (m.pushHh (buckets i).hhHead a) n
      (Function.update buckets i ⟨some a, (buckets i).count + 1, mult⟩) (insert a S)
      (Function.update C i (a :: C i)) := by
  have hnot : ∀ j, a ∉ C j := fun j hmem => ha ((h.mem_iff j a).mp hmem).1
  refine ⟨fun j => ?_, fun j => ?_, fun j => ?_, fun j => ?_, fun j b => ?_⟩
  · by_cases hj : j = i
    · subst hj
      simp
    · simp [hj, h.head j]
  · by_cases hj : j = i
    · subst hj
      simp [h.count j]
    · simp [hj, h.count j]
  · by_cases hj : j = i
    · subst hj
      rw [Function.update_self]
      simp only [Handles.pushHh, h.head j]
      exact (h.chain j).push (h.nodup j) (hnot j)
    · rw [Function.update_of_ne hj]
      refine (h.chain j).congr (fun b hb => ?_) fun b hb => ?_
      · exact Function.update_of_ne (ne_of_mem_of_not_mem hb (hnot j)) _ _
      · simp only [Handles.pushHh, h.head i]
        rw [assign_of_ne, Function.update_of_ne (ne_of_mem_of_not_mem hb (hnot j))]
        exact fun hhead => hj (h.eq_of_mem hb (List.mem_of_mem_head? hhead))
  · by_cases hj : j = i
    · subst hj
      rw [Function.update_self]
      exact List.nodup_cons.mpr ⟨hnot j, h.nodup j⟩
    · rw [Function.update_of_ne hj]
      exact h.nodup j
  · change b ∈ Function.update C i (a :: C i) j ↔ b ∈ insert a S ∧ hashToBkt (m.hashv b) n = j
    by_cases hj : j = i
    · subst hj
      rw [Function.update_self, List.mem_cons, Set.mem_insert_iff, h.mem_iff]
      constructor
      · intro hmem
        rcases hmem with rfl | ⟨hb, hbkt⟩
        · exact ⟨.inl rfl, hi⟩
        · exact ⟨.inr hb, hbkt⟩
      · intro hmem
        rcases hmem with ⟨rfl | hb, hbkt⟩
        · exact .inl rfl
        · exact .inr ⟨hb, hbkt⟩
    · rw [Function.update_of_ne hj, h.mem_iff, Set.mem_insert_iff]
      refine and_congr_left fun hbkt => ⟨.inr, fun hor => hor.resolve_left ?_⟩
      rintro rfl
      exact hj (hbkt.symm.trans hi)

theorem sameOrder_pushHh (m : Handles ι) (head : Option ι) (a : ι) :
    SameOrder m (m.pushHh head a) := ⟨rfl, rfl, rfl, rfl, rfl⟩

section Expand

variable {e : Expansion ι} {fuel : Nat} (maxlen : Nat)

/-- During an expansion the items in `S` are in the new chains, and the others are as they were. -/
structure Moved (m : Handles ι) (n : Nat) (S : Set ι) (e : Expansion ι) : Prop where
  chains : ∃ C, Chains e.mem n e.newBuckets S C
  hhNext : ∀ a, a ∉ S → e.mem.hhNext a = m.hhNext a
  same : SameOrder m e.mem

theorem Moved.item (h : Moved m n S e) (ha : a ∉ S) :
    Moved m n (insert a S) (moveItem maxlen n a e) := by
  obtain ⟨⟨D, hD⟩, hnext, hsame⟩ := h
  refine ⟨⟨_, hD.push ha rfl _⟩, fun b hb => ?_, hsame.trans (sameOrder_pushHh _ _ _)⟩
  obtain ⟨hne, hb⟩ := not_or.mp hb
  exact (Function.update_of_ne hne _ _).trans (hnext b hb)

/-- The walk over one old chain. -/
theorem Moved.walk (h : Moved m n S e) {c : List ι} (hc : Chain m.hhNext m.hhPrev none c none)
    (hnodup : c.Nodup) (hdisj : ∀ b ∈ c, b ∉ S) (hfuel : c.length ≤ fuel) :
    ∃ e', iterate (fun e => e.mem.hhNext) (fun thh e => some (moveItem maxlen n thh e)) fuel c.head?
      e = some e' ∧ Moved m n (S ∪ {b | b ∈ c}) e' := by
  -- what was walked so far is moved, and the next item still has its old successor
  let I : List ι → Expansion ι → Prop := fun rest e =>
    ∃ walked, c = walked ++ rest ∧ Moved m n (S ∪ {b | b ∈ walked}) e
  have hout : ∀ walked el rest, c = walked ++ el :: rest → el ∉ S ∪ {b | b ∈ walked} := by
    intro walked el rest hsplit hmem
    rw [hsplit] at hnodup hdisj
    rcases hmem with hmem | hmem
    · exact hdisj el (List.mem_append_right _ List.mem_cons_self) hmem
    · exact (List.nodup_append.mp hnodup).2.2 el hmem el List.mem_cons_self rfl
  have hrule : ∃ e', iterate (fun e => e.mem.hhNext) (fun thh e => some (moveItem maxlen n thh e))
      fuel c.head? e = some e' ∧ I [] e' := by
    refine iterate_rule I ?_ ?_ ⟨[], rfl, by simpa using h⟩ hfuel
    · intro el rest e hI
      obtain ⟨walked, hsplit, hmoved⟩ := hI
      rw [hmoved.hhNext el (hout walked el rest hsplit)]
      rw [hsplit] at hc
      rw [hc.neighbours.2, Option.or_none]
    · intro el rest e hI
      obtain ⟨walked, hsplit, hmoved⟩ := hI
      refine ⟨_, rfl, walked ++ [el], by simp [hsplit], ?_⟩
      have hset : S ∪ {b | b ∈ walked ++ [el]} = insert el (S ∪ {b | b ∈ walked}) := by
        ext b
        simp only [List.mem_append, List.mem_singleton, Set.mem_union, Set.mem_ofPred_eq,
          Set.mem_insert_iff]
        tauto
      rw [hset]
      exact hmoved.item maxlen (hout walked el rest hsplit)
  obtain ⟨e', he', walked, hsplit, hmoved⟩ := hrule
  rw [List.append_nil] at hsplit
  subst hsplit
  exact ⟨e', he', hmoved⟩

/-- The walk over all old chains. -/
theorem Moved.walks (h : Moved m n S e) {cs : List (List ι)}
    (hchain : ∀ c ∈ cs, Chain m.hhNext m.hhPrev none c none) (hnodup : ∀ c ∈ cs, c.Nodup)
    (hfuel : ∀ c ∈ cs, c.length ≤ fuel) (hdisj : ∀ c ∈ cs, ∀ b ∈ c, b ∉ S)
    (hpairs : cs.Pairwise List.Disjoint) :
    ∃ e', moveItems maxlen n fuel (cs.map List.head?) e = some e' ∧
      Moved m n (S ∪ {b | ∃ c ∈ cs, b ∈ c}) e' := by
  induction cs generalizing S e with
  | nil =>
      refine ⟨e, rfl, ?_⟩
      simpa using h
  | cons c cs ih =>
      obtain ⟨hfirst, hrest⟩ := List.pairwise_cons.mp hpairs
      obtain ⟨e₁, he₁, hmoved⟩ := h.walk maxlen (hchain c List.mem_cons_self)
        (hnodup c List.mem_cons_self) (hdisj c List.mem_cons_self) (hfuel c List.mem_cons_self)
      obtain ⟨e₂, he₂, hend⟩ := ih hmoved (fun d hd => hchain d (List.mem_cons_of_mem c hd))
        (fun d hd => hnodup d (List.mem_cons_of_mem c hd))
        (fun d hd => hfuel d (List.mem_cons_of_mem c hd))
        (fun d hd b hb hmem => hmem.elim (hdisj d (List.mem_cons_of_mem c hd) b hb)
          fun hbc => hfirst d hd hbc hb) hrest
      refine ⟨e₂, ?_, ?_⟩
      · rw [List.map_cons, moveItems, List.foldlM_cons, he₁]
        exact he₂
      · have hset : S ∪ {b | ∃ d ∈ c :: cs, b ∈ d} = S ∪ {b | b ∈ c} ∪ {b | ∃ d ∈ cs, b ∈ d} := by
          ext b
          simp only [List.mem_cons, Set.mem_union, Set.mem_ofPred_eq]
          constructor
          · intro hmem
            rcases hmem with hb | ⟨d, rfl | hd, hb⟩
            · exact .inl (.inl hb)
            · exact .inl (.inr hb)
            · exact .inr ⟨d, hd, hb⟩
          · intro hmem
            rcases hmem with (hb | hb) | ⟨d, hd, hb⟩
            · exact .inl hb
            · exact .inr ⟨c, .inl rfl, hb⟩
            · exact .inr ⟨d, .inr hd, hb⟩
        rw [hset]
        exact hend

end Expand

/-- What a call leaves of a table: the elements and their order as they were, and chains for the
items in `S`. -/
structure Rebuilt (m : Handles ι) (t : Table ι) (S : Set ι) (m' : Handles ι) (t' : Table ι) :
    Prop where
  same : SameOrder m m'
  tail : t'.tail = t.tail
  numItems : t'.numItems = t.numItems
  numBuckets : t.numBuckets = 2 ^ t.log2NumBuckets → t'.numBuckets = 2 ^ t'.log2NumBuckets
  chains : ∃ C, Chains m' t'.numBuckets t'.buckets S C

section Table

variable {t : Table ι}

/-- An expansion keeps the items. -/
theorem hashExpandBuckets_rebuilt (h : Chains m t.numBuckets t.buckets S C)
    (hpos : 0 < t.numBuckets) (hfuel : ∀ i, (C i).length ≤ t.numItems) :
    ∃ m' t', hashExpandBuckets m t = some (m', t') ∧ Rebuilt m t S m' t' := by
  have hstart : Moved m (t.numBuckets * 2) ∅ ⟨m, fun _ => ⟨none, 0, 0⟩, 0⟩ :=
    ⟨⟨_, chains_empty m _⟩, fun _ _ => rfl, .refl m⟩
  have hheads : (List.range t.numBuckets).map (fun i => (t.buckets i).hhHead) =
      ((List.range t.numBuckets).map C).map List.head? := by
    rw [List.map_map]
    exact List.map_congr_left fun i _ => h.head i
  have hpairs : ((List.range t.numBuckets).map C).Pairwise List.Disjoint := by
    refine List.pairwise_map.mpr (List.pairwise_lt_range.imp ?_)
    intro i j hij b hi hj
    exact hij.ne (h.eq_of_mem hi hj)
  obtain ⟨e, he, hmoved⟩ := hstart.walks t.idealMaxlen
    (List.forall_mem_map.mpr fun i _ => h.chain i) (List.forall_mem_map.mpr fun i _ => h.nodup i)
    (List.forall_mem_map.mpr fun i _ => hfuel i) (fun _ _ _ _ => Set.notMem_empty _) hpairs
  have hset : ∅ ∪ {b | ∃ c ∈ (List.range t.numBuckets).map C, b ∈ c} = S := by
    ext b
    simp only [Set.empty_union, Set.mem_ofPred_eq, List.mem_map, List.mem_range]
    constructor
    · intro hmem
      obtain ⟨c, ⟨i, -, rfl⟩, hb⟩ := hmem
      exact ((h.mem_iff i b).mp hb).1
    · intro hb
      exact ⟨_, ⟨_, hashToBkt_lt _ hpos, rfl⟩, h.mem_bkt hb⟩
  rw [hset] at hmoved
  refine ⟨e.mem, t.expanded t.idealMaxlen e, ?_, hmoved.same, rfl, rfl, fun hpow => ?_,
    hmoved.chains⟩
  · rw [hashExpandBuckets, hheads, he]
    rfl
  · change t.numBuckets * 2 = 2 ^ (t.log2NumBuckets + 1)
    rw [hpow, pow_succ]

/-- Adding an item to its bucket, with an expansion or without. -/
theorem hashAddToBkt_rebuilt (h : Chains m t.numBuckets t.buckets S C) (ha : a ∉ S)
    (hpos : 0 < t.numBuckets) (hfuel : ∀ i, (C i).length < t.numItems) {i : Nat}
    (hi : hashToBkt (m.hashv a) t.numBuckets = i) :
    ∃ m' t', hashAddToBkt m t i a = some (m', t') ∧ Rebuilt m t (insert a S) m' t' := by
  have hpush := h.push ha hi (t.buckets i).expandMult
  have hsame := sameOrder_pushHh m (t.buckets i).hhHead a
  rw [hashAddToBkt]
  split_ifs with hcond
  · have hlen : ∀ j, (Function.update C i (a :: C i) j).length ≤ t.numItems := by
      intro j
      by_cases hj : j = i
      · subst hj
        rw [Function.update_self]
        exact hfuel j
      · rw [Function.update_of_ne hj]
        exact (hfuel j).le
    let b : Bucket ι := ⟨some a, (t.buckets i).count + 1, (t.buckets i).expandMult⟩
    let t₁ : Table ι := { t with buckets := Function.update t.buckets i b }
    obtain ⟨m', t', heq, hrebuilt⟩ :=
      hashExpandBuckets_rebuilt (show Chains _ t₁.numBuckets t₁.buckets _ _ from hpush) hpos hlen
    exact ⟨m', t', heq, hsame.trans hrebuilt.same, hrebuilt.tail, hrebuilt.numItems,
      hrebuilt.numBuckets, hrebuilt.chains⟩
  · exact ⟨_, _, rfl, hsame, rfl, rfl, id, _, hpush⟩

/-- The chains after an item was taken out of one. -/
theorem Chains.unlink (h : Chains m n buckets S C) {l₁ l₂ : List ι} {i : Nat}
    (hsplit : C i = l₁ ++ a :: l₂) {b : Bucket ι} (hhead : b.hhHead = (l₁ ++ l₂).head?)
    (hcount : b.count = (l₁ ++ l₂).length)
    (hnext : m'.hhNext = assign m.hhNext (m.hhPrev a) (m.hhNext a))
    (hprev : m'.hhPrev = assign m.hhPrev (m.hhNext a) (m.hhPrev a)) (hhashv : m'.hashv = m.hashv) :
    Chains m' n (Function.update buckets i b) (S \ {a}) (Function.update C i (l₁ ++ l₂)) := by
  have hchain := h.chain i
  have hnodup := h.nodup i
  rw [hsplit] at hchain hnodup
  have hneighbours := hchain.neighbours
  rw [Option.or_none, Option.or_none] at hneighbours
  have hother : ∀ j, j ≠ i → ∀ c ∈ C j, c ∉ l₁ ++ a :: l₂ := by
    intro j hj c hc hmem
    rw [← hsplit] at hmem
    exact hj (h.eq_of_mem hc hmem)
  refine ⟨fun j => ?_, fun j => ?_, fun j => ?_, fun j => ?_, fun j c => ?_⟩
  · by_cases hj : j = i
    · subst hj
      simp [hhead]
    · simp [hj, h.head j]
  · by_cases hj : j = i
    · subst hj
      simp [hcount]
    · simp [hj, h.count j]
  · by_cases hj : j = i
    · subst hj
      rw [Function.update_self, hnext, hprev]
      exact hchain.unlink hnodup
    · rw [Function.update_of_ne hj, hnext, hprev, hneighbours.1, hneighbours.2]
      refine (h.chain j).congr (fun c hc => ?_) fun c hc => ?_
      · refine assign_of_ne _ fun hlast => hother j hj c hc ?_
        exact List.mem_append_left _ (List.mem_of_mem_getLast? hlast)
      · refine assign_of_ne _ fun hfirst => hother j hj c hc ?_
        exact List.mem_append_right _ (List.mem_cons_of_mem a (List.mem_of_mem_head? hfirst))
  · by_cases hj : j = i
    · subst hj
      rw [Function.update_self]
      exact hnodup.sublist (List.Sublist.append_left (List.sublist_cons_self a l₂) l₁)
    · rw [Function.update_of_ne hj]
      exact h.nodup j
  · rw [hhashv, Set.mem_diff, Set.mem_singleton_iff]
    by_cases hj : j = i
    · subst hj
      have hmem := h.mem_iff j c
      rw [hsplit, List.mem_append, List.mem_cons] at hmem
      rw [Function.update_self, List.mem_append]
      have hne : c ∈ l₁ ∨ c ∈ l₂ → c ≠ a := by
        intro hc hca
        subst hca
        obtain ⟨-, hnodup₂, hdisj⟩ := List.nodup_append.mp hnodup
        rcases hc with hc | hc
        · exact hdisj c hc c List.mem_cons_self rfl
        · exact (List.nodup_cons.mp hnodup₂).1 hc
      tauto
    · rw [Function.update_of_ne hj, h.mem_iff j c]
      have hne : c ∈ C j → c ≠ a := by
        intro hc hca
        exact hother j hj c hc (hca ▸ List.mem_append_right _ List.mem_cons_self)
      have hmem := h.mem_iff j c
      tauto

/-- Taking an item out of its bucket. -/
theorem hashDelInBkt_rebuilt (h : Chains m t.numBuckets t.buckets S C) (ha : a ∈ S) {i : Nat}
    (hi : hashToBkt (m.hashv a) t.numBuckets = i) :
    Rebuilt m t (S \ {a}) (hashDelInBkt m t i a).1 (hashDelInBkt m t i a).2 := by
  have hmem : a ∈ C i := hi ▸ h.mem_bkt ha
  obtain ⟨l₁, l₂, hsplit⟩ := List.append_of_mem hmem
  have hnodup := h.nodup i
  have hnext := (hsplit ▸ h.chain i).neighbours.2
  have hhead := h.head i
  have hcount := h.count i
  rw [Option.or_none] at hnext
  rw [hsplit] at hnodup hhead hcount
  refine ⟨⟨rfl, rfl, rfl, rfl, rfl⟩, rfl, rfl, id, _, h.unlink hsplit ?_ ?_ rfl rfl rfl⟩
  · cases l₁ with
    | nil => simp [hhead, hnext]
    | cons c l₁ =>
        have hne : c ≠ a := by
          intro hca
          exact (List.nodup_append.mp hnodup).2.2 c List.mem_cons_self a List.mem_cons_self hca
        simp [hhead, hne]
  · simp [hcount]

end Table

end Bpsp.Uthash
