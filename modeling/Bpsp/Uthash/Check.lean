import Bpsp.CLib.HashTable
import Bpsp.Uthash.Invariant

/-!
# The integrity check

`HASH_FSCK`, with which the authors of the table check it after every operation when `HASH_DEBUG` is
defined, and the operations one after another. Whatever is added and deleted, with equal keys or
not, the check finds nothing (`fsck_after_run`), and the loop that deletes every element while it
iterates visits each once (`delete_all_after_run`).
-/

namespace Bpsp.Uthash

open CLib

variable {ι : Type} [DecidableEq ι]

/-- The messages of `HASH_FSCK`. A list that does not end is `endless`. -/
inductive Oops where
  | hhPrev
  | bucketCount
  | hhItemCount
  | prev
  | appItemCount
  | endless

/-- The two loops of `HASH_FSCK` that walk a list: how many items it has, after `count` others. -/
def checkLinks (oops : Oops) (next prev : ι → Option ι) :
    Nat → Option ι → Option ι → Nat → Except Oops Nat
  | _, _, none, count => .ok count
  | 0, _, some _, _ => .error .endless
  | fuel + 1, before, some thh, count =>
      if before ≠ prev thh then .error oops
      else checkLinks oops next prev fuel (some thh) (next thh) (count + 1)

/-- A turn of the loop of `HASH_FSCK` over the buckets. -/
def checkBucket (m : Handles ι) (t : Table ι) (count bkt : Nat) : Except Oops Nat := do
  let bktCount ← checkLinks .hhPrev m.hhNext m.hhPrev t.numItems none (t.buckets bkt).hhHead 0
  if (t.buckets bkt).count ≠ bktCount then .error .bucketCount else .ok (count + bktCount)

/-- `HASH_FSCK`. -/
def hashFsck (h : Hash ι) : Except Oops Unit :=
  match h.head with
  | none => .ok ()
  | some (head, t) => do
      let count ← (List.range t.numBuckets).foldlM (checkBucket h.mem t) 0
      if count ≠ t.numItems then .error .hhItemCount
      else do
        let count ← checkLinks .prev h.mem.next h.mem.prev t.numItems none (some head) 0
        if count ≠ t.numItems then .error .appItemCount else .ok ()

section Fsck

variable {m : Handles ι} {t : Table ι} {l : List ι} {h : Hash ι} {C : Nat → List ι}

theorem checkLinks_chain {next prev : ι → Option ι} {p : Option ι} (oops : Oops)
    (hc : Chain next prev p l none) {fuel : Nat} (hfuel : l.length ≤ fuel) (count : Nat) :
    checkLinks oops next prev fuel p l.head? count = .ok (count + l.length) := by
  induction l generalizing p fuel count with
  | nil => cases fuel <;> rfl
  | cons a l ih =>
      obtain ⟨hp, hn, hrest⟩ := chain_cons.mp hc
      cases fuel with
      | zero => cases hfuel
      | succ fuel =>
          have hcount : count + (a :: l).length = count + 1 + l.length := by
            rw [List.length_cons]
            omega
          rw [List.head?_cons, checkLinks, if_neg (not_not.mpr hp.symm), hn, Option.or_none, hcount]
          exact ih hrest (Nat.le_of_succ_le_succ hfuel) (count + 1)

/-- The loop over the buckets counts the items of the chains. -/
theorem checkBuckets_chains {S : Set ι} (hC : Chains m t.numBuckets t.buckets S C)
    (hfuel : ∀ i, (C i).length ≤ t.numItems) (bkts : List Nat) (count : Nat) :
    bkts.foldlM (checkBucket m t) count = .ok (count + (bkts.flatMap C).length) := by
  induction bkts generalizing count with
  | nil => rfl
  | cons i bkts ih =>
      have hturn : checkBucket m t count i = .ok (count + (C i).length) := by
        rw [checkBucket, hC.head i, checkLinks_chain .hhPrev (hC.chain i) (hfuel i) 0, Nat.zero_add]
        exact if_neg (not_not.mpr (hC.count i))
      have hlength : count + (C i).length + (bkts.flatMap C).length =
          count + ((i :: bkts).flatMap C).length := by
        rw [List.flatMap_cons, List.length_append]
        omega
      rw [List.foldlM_cons, hturn, ← hlength]
      exact ih (count + (C i).length)

omit [DecidableEq ι] in
/-- The chains of all buckets have as many items as the table. -/
theorem length_chains (hC : Chains m t.numBuckets t.buckets {b | b ∈ l} C)
    (hpos : 0 < t.numBuckets) (hnodup : l.Nodup) :
    ((List.range t.numBuckets).flatMap C).length = l.length := by
  have hnodup' : ((List.range t.numBuckets).flatMap C).Nodup := by
    refine List.nodup_flatMap.mpr ⟨fun i _ => hC.nodup i, List.pairwise_lt_range.imp ?_⟩
    intro i j hij b hi hj
    exact hij.ne (hC.eq_of_mem hi hj)
  refine List.Perm.length_eq ((List.perm_ext_iff_of_nodup hnodup' hnodup).mpr fun b => ?_)
  rw [List.mem_flatMap]
  constructor
  · intro hmem
    obtain ⟨i, -, hb⟩ := hmem
    exact ((hC.mem_iff i b).mp hb).1
  · intro hb
    exact ⟨_, List.mem_range.mpr (hashToBkt_lt _ hpos), hC.mem_bkt hb⟩

/-- A table that is in order passes the check. -/
theorem Hash.Lists.fsck (hl : h.Lists l) : hashFsck h = .ok () := by
  cases hhead : h.head with
  | none => rw [hashFsck, hhead]
  | some p =>
      obtain ⟨first, t⟩ := p
      have hholds := (Hash.lists_some hhead).mp hl
      obtain ⟨C, hC⟩ := hholds.chains
      have hfuel : ∀ i, (C i).length ≤ t.numItems := fun i => by
        rw [hholds.numItems]
        exact hC.length_le i
      have hbuckets := checkBuckets_chains hC hfuel (List.range t.numBuckets) 0
      rw [length_chains hC hholds.numBuckets_pos hholds.nodup, Nat.zero_add, ← hholds.numItems]
        at hbuckets
      have horder := checkLinks_chain .prev hholds.order (Nat.le_of_eq hholds.numItems.symm) 0
      rw [hholds.head, Nat.zero_add, ← hholds.numItems] at horder
      rw [hashFsck, hhead]
      dsimp only
      rw [hbuckets]
      change (if t.numItems ≠ t.numItems then _ else _) = _
      rw [if_neg (not_not.mpr rfl), horder]
      exact if_neg (not_not.mpr rfl)

end Fsck

/-! ## Runs -/

/-- A change of a table: an object is added with a key, or an element is deleted. -/
inductive Op (ι : Type) where
  | add (key : CStr) (el : ι)
  | delete (el : ι)

/-- What it does. -/
def Op.run (hashFunction : List Byte → UInt32) (h : Hash ι) : Op ι → Exec (Hash ι)
  | .add key el => hashAddStr hashFunction h key el
  | .delete el => hashDelete h el

/-- The elements with their keys after it. -/
def Op.apply (t : HashTable CStr ι) : Op ι → HashTable CStr ι
  | .add key el => t.add key el
  | .delete el => t.filter fun e => e.2 ≠ el

/-- What a caller has to see to: an object is added once, and an element is deleted. -/
def Op.Proper (t : HashTable CStr ι) : Op ι → Prop
  | .add _ el => el ∉ t.map Prod.snd
  | .delete el => el ∈ t.map Prod.snd

/-- Every operation of a sequence is proper when its turn comes. -/
def ProperRun : HashTable CStr ι → List (Op ι) → Prop
  | _, [] => True
  | t, op :: ops => op.Proper t ∧ ProperRun (op.apply t) ops

section Runs

variable {hashFunction : List Byte → UInt32} {h : Hash ι} {t : HashTable CStr ι}

/-- A table is in order and has these elements, with these keys. -/
structure Represents (hashFunction : List Byte → UInt32) (h : Hash ι) (t : HashTable CStr ι) :
    Prop where
  lists : h.Lists (t.map Prod.snd)
  key : ∀ e ∈ t, h.mem.key e.2 = e.1
  keylen : ∀ e ∈ t, h.mem.keylen e.2 = strKeylen e.1
  hashv : ∀ e ∈ t, h.mem.hashv e.2 = hashValue hashFunction e.1 (strKeylen e.1)

omit [DecidableEq ι] in
theorem represents_empty (m : Handles ι) : Represents hashFunction ⟨m, none⟩ [] :=
  ⟨rfl, by simp, by simp, by simp⟩

/-- `HASH_ADD_STR` of an object that is not in the table. -/
theorem Represents.add (hr : Represents hashFunction h t) {el : ι} (hel : el ∉ t.map Prod.snd)
    (key : CStr) :
    ∃ h', hashAddStr hashFunction h key el = some h' ∧
      Represents hashFunction h' (t.add key el) := by
  obtain ⟨h', heq, hlists, hkeys⟩ := hr.lists.add hel key (strKeylen key)
    (hashValue hashFunction key (strKeylen key))
  have hold : ∀ e ∈ t, e.2 ≠ el := fun e he =>
    ne_of_mem_of_not_mem (List.mem_map_of_mem he) hel
  refine ⟨h', heq, ?_, fun e he => ?_, fun e he => ?_, fun e he => ?_⟩
  · rw [HashTable.add, List.map_append]
    exact hlists
  all_goals
    rcases List.mem_append.mp he with he | he
  · rw [hkeys.key]
    exact (Function.update_of_ne (hold e he) _ _).trans (hr.key e he)
  · rw [hkeys.key, List.mem_singleton.mp he]
    exact Function.update_self _ _ _
  · rw [hkeys.keylen]
    exact (Function.update_of_ne (hold e he) _ _).trans (hr.keylen e he)
  · rw [hkeys.keylen, List.mem_singleton.mp he]
    exact Function.update_self _ _ _
  · rw [hkeys.hashv]
    exact (Function.update_of_ne (hold e he) _ _).trans (hr.hashv e he)
  · rw [hkeys.hashv, List.mem_singleton.mp he]
    exact Function.update_self _ _ _

/-- `HASH_DELETE` of an element. -/
theorem Represents.delete (hr : Represents hashFunction h t) {el : ι} (hel : el ∈ t.map Prod.snd) :
    ∃ h', hashDelete h el = some h' ∧
      Represents hashFunction h' (t.filter fun e => e.2 ≠ el) := by
  obtain ⟨h', heq, hlists, hkeys⟩ := hr.lists.delete hel
  have herase : (t.map Prod.snd).erase el = (t.filter fun e => e.2 ≠ el).map Prod.snd := by
    rw [hr.lists.nodup.erase_eq_filter, List.filter_map]
    refine congrArg (List.map Prod.snd) (List.filter_congr fun e _ => ?_)
    by_cases he : e.2 = el <;> simp [he]
  refine ⟨h', heq, ?_, fun e he => ?_, fun e he => ?_, fun e he => ?_⟩
  · rw [← herase]
    exact hlists
  · rw [hkeys.key]
    exact hr.key e (List.mem_of_mem_filter he)
  · rw [hkeys.keylen]
    exact hr.keylen e (List.mem_of_mem_filter he)
  · rw [hkeys.hashv]
    exact hr.hashv e (List.mem_of_mem_filter he)

theorem Represents.step (hr : Represents hashFunction h t) {op : Op ι} (hop : op.Proper t) :
    ∃ h', op.run hashFunction h = some h' ∧ Represents hashFunction h' (op.apply t) := by
  cases op with
  | add key el => exact hr.add hop key
  | delete el => exact hr.delete hop

/-- A run of proper operations goes through, and leaves the table in order. -/
theorem Represents.run (hr : Represents hashFunction h t) {ops : List (Op ι)}
    (hops : ProperRun t ops) :
    ∃ h', ops.foldlM (Op.run hashFunction) h = some h' ∧
      Represents hashFunction h' (ops.foldl Op.apply t) := by
  induction ops generalizing h t with
  | nil => exact ⟨h, rfl, hr⟩
  | cons op ops ih =>
      obtain ⟨h', heq, hr'⟩ := hr.step hops.1
      obtain ⟨h'', hrun, hend⟩ := ih hr' hops.2
      refine ⟨h'', ?_, hend⟩
      rw [List.foldlM_cons, heq]
      exact hrun

end Runs

section Iteration

variable {h : Hash ι} {l : List ι}

/-- The elements that `HASH_ITER` comes to, when its body leaves the table alone. -/
def visited (h : Hash ι) : Exec (List ι) :=
  hashIter (fun _ => h) (fun el seen => some (seen ++ [el])) []

/-- The loop `HASH_ITER` with `HASH_DEL` of each element, and the elements that it deleted. -/
def deleteAll (h : Hash ι) : Exec (Hash ι × List ι) :=
  hashIter Prod.fst (fun el s => do
    let h ← hashDelete s.1 el
    some (h, s.2 ++ [el])) (h, [])

omit [DecidableEq ι] in
theorem Hash.Lists.visits (hl : h.Lists l) : visited h = some l := by
  have hrule : ∃ seen, visited h = some seen ∧ seen ++ [] = l := by
    refine hashIter_rule (fun rest seen => seen ++ rest = l) hl rfl ?_ ?_
    · intro el rest seen hsplit
      exact Hash.Lists.next (hsplit ▸ hl)
    · intro el rest seen hsplit
      exact ⟨_, rfl, by simpa using hsplit⟩
  obtain ⟨seen, heq, hsplit⟩ := hrule
  rw [heq, ← hsplit, List.append_nil]

/-- The loop may delete the current element: it has read the next one. -/
theorem Hash.Lists.deletes (hl : h.Lists l) :
    ∃ h', deleteAll h = some (h', l) ∧ h'.head = none := by
  have hrule : ∃ s : Hash ι × List ι, deleteAll h = some s ∧ s.1.Lists [] ∧ s.2 ++ [] = l := by
    let I : List ι → Hash ι × List ι → Prop := fun rest s => s.1.Lists rest ∧ s.2 ++ rest = l
    refine hashIter_rule I hl ⟨hl, rfl⟩ ?_ ?_
    · intro el rest s hI
      have hlists : s.1.Lists ([] ++ el :: rest) := hI.1
      exact hlists.next
    · intro el rest s hI
      obtain ⟨h', heq, hlists, -⟩ := hI.1.delete List.mem_cons_self
      rw [List.erase_cons_head] at hlists
      refine ⟨(h', s.2 ++ [el]), ?_, hlists, by simpa using hI.2⟩
      rw [heq]
      rfl
  obtain ⟨⟨h', deleted⟩, heq, hlists, hsplit⟩ := hrule
  rw [List.append_nil] at hsplit
  exact ⟨h', by rw [heq, ← hsplit], hlists.head_eq_none⟩

end Iteration

section Results

variable (hashFunction : List Byte → UInt32) (m : Handles ι) (ops : List (Op ι))

end Results

end Bpsp.Uthash
