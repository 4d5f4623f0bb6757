import Bpsp.CLib.Heap
import Bpsp.Uthash.Check

/-!
# The table as a map

The program searches a table before it adds to it: `frame__set_var_header`, `client__sub0`,
`topic__node_add_sub`, `topic__add_subscriber` and `broker__accept` call `HASH_ADD_STR` only after
`HASH_FIND_STR` has found nothing. Used in this way a table is an insertion-ordered map
(`store_refines`), which is what the rest of the model takes it for.
-/

namespace Bpsp.Uthash

open CLib

section Find

variable {ι : Type} {hashFunction : List Byte → UInt32} {h : Hash ι} {t : HashTable CStr ι}

/-- Strings that are shorter than `2 ^ 32` are compared as a whole. -/
theorem strKeylen_keycmp {k key : CStr} (hk : k.length < 2 ^ 32) (hkey : key.length < 2 ^ 32)
    (hlen : strKeylen k = strKeylen key) (hcmp : hashKeycmp k key (strKeylen key)) : k = key := by
  have htoNat : ∀ s : CStr, s.length < 2 ^ 32 → (strKeylen s).toNat = s.length := fun s hs =>
    UInt32.toNat_ofNat_of_lt hs
  have hlength : k.length = key.length := by
    rw [← htoNat k hk, ← htoNat key hkey, hlen]
  have hbytes := of_decide_eq_true hcmp
  rw [htoNat key hkey, List.take_of_length_le (Nat.le_of_eq hlength),
    List.take_of_length_le (show key.bytes.length ≤ key.length from Nat.le_refl _)] at hbytes
  exact CStr.ext hbytes

/-- `HASH_FIND_STR` finds an element with the key when there is one. -/
theorem Represents.find (hr : Represents hashFunction h t)
    (hshort : ∀ k ∈ t.keys, k.length < 2 ^ 32) {key : CStr} (hkey : key.length < 2 ^ 32) :
    ∃ out, hashFindStr hashFunction h key = some out ∧
      (∀ el, out = some el → (key, el) ∈ t) ∧ (out = none → key ∉ t.keys) := by
  obtain ⟨out, heq, hsome, hnone⟩ := hr.lists.find key (strKeylen key)
    (hashValue hashFunction key (strKeylen key))
  refine ⟨out, heq, fun el hel => ?_, fun hout hmem => ?_⟩
  · obtain ⟨hmem, hfound⟩ := hsome el hel
    obtain ⟨e, he, rfl⟩ := List.mem_map.mp hmem
    obtain ⟨-, hlen, hcmp⟩ := of_decide_eq_true hfound
    rw [hr.keylen e he] at hlen
    rw [hr.key e he] at hcmp
    have hk := strKeylen_keycmp (hshort e.1 (List.mem_map_of_mem he)) hkey hlen hcmp
    rw [← hk]
    exact he
  · obtain ⟨el, hel⟩ := HashTable.mem_keys_iff.mp hmem
    refine hnone hout el (List.mem_map_of_mem hel) (decide_eq_true ⟨?_, ?_, ?_⟩)
    · exact hr.hashv _ hel
    · exact hr.keylen _ hel
    · rw [hr.key _ hel]
      exact decide_eq_true rfl

variable [DecidableEq ι]

/-- The keys that were added are all that a table can have. -/
theorem short_after_run {ops : List (Op ι)}
    (hshort : ∀ k el, Op.add k el ∈ ops → k.length < 2 ^ 32)
    (ht : ∀ k ∈ t.keys, k.length < 2 ^ 32) :
    ∀ k ∈ (ops.foldl Op.apply t).keys, k.length < 2 ^ 32 := by
  induction ops generalizing t with
  | nil => exact ht
  | cons op ops ih =>
      refine ih (fun k el hmem => hshort k el (List.mem_cons_of_mem op hmem)) fun k hk => ?_
      cases op with
      | add key el =>
          rw [Op.apply, HashTable.keys_add, List.mem_append, List.mem_singleton] at hk
          rcases hk with hk | hk
          · exact ht k hk
          · rw [hk]
            exact hshort key el List.mem_cons_self
      | delete el => exact ht k ((List.filter_sublist.map Prod.fst).subset hk)

end Find

/-! ## A table with values -/

variable {V : Type}

/-- A table, the values in its elements, and the next object that `malloc` returns. -/
structure Store (V : Type) where
  table : Hash Addr
  value : Addr → V
  next : Addr

section Calls

variable (hashFunction : List Byte → UInt32)

/-- The value of the element with a key. -/
def Store.get (s : Store V) (key : CStr) : Exec (Option V) := do
  let out ← hashFindStr hashFunction s.table key
  some (out.map s.value)

/-- The value goes to the element with the key that is found, or else to a new one. -/
def Store.put (s : Store V) (key : CStr) (v : V) : Exec (Store V) := do
  match ← hashFindStr hashFunction s.table key with
  | some el => some { s with value := Function.update s.value el v }
  | none => do
      let table ← hashAddStr hashFunction s.table key s.next
      some ⟨table, Function.update s.value s.next v, s.next + 1⟩

/-- The element with the key is deleted, when one is found. -/
def Store.remove (s : Store V) (key : CStr) : Exec (Store V) := do
  match ← hashFindStr hashFunction s.table key with
  | some el => do
      let table ← hashDelete s.table el
      some { s with table := table }
  | none => some s

/-- The keys and the values, in the order of `HASH_ITER`. -/
def Store.entries (s : Store V) : Exec (HashTable CStr V) :=
  hashIter (fun _ => s.table) (fun el seen => some (seen ++ [(s.table.mem.key el, s.value el)])) []

/-- A change of such a table. -/
inductive Call (V : Type) where
  | put (key : CStr) (v : V)
  | remove (key : CStr)

/-- The key of a call. -/
def Call.key : Call V → CStr
  | .put key _ => key
  | .remove key => key

/-- What a call does. -/
def Call.run (s : Store V) : Call V → Exec (Store V)
  | .put key v => s.put hashFunction key v
  | .remove key => s.remove hashFunction key

end Calls

/-- What a call does to an insertion-ordered map. -/
def Call.apply (t : HashTable CStr V) : Call V → HashTable CStr V
  | .put key v => if key ∈ t.keys then t.update key v else t.add key v
  | .remove key => t.del key

section Refinement

variable {hashFunction : List Byte → UInt32} {s : Store V} {t : HashTable CStr V}

/-- The table holds the map `t`, in the elements `els`. -/
structure Refines (hashFunction : List Byte → UInt32) (s : Store V) (els : HashTable CStr Addr)
    (t : HashTable CStr V) : Prop where
  represents : Represents hashFunction s.table els
  values : t = els.map fun e => (e.1, s.value e.2)
  nodup : els.keys.Nodup
  short : ∀ k ∈ els.keys, k.length < 2 ^ 32
  fresh : ∀ e ∈ els, e.2 < s.next

variable {els : HashTable CStr Addr}

theorem Refines.keys (hr : Refines hashFunction s els t) : t.keys = els.keys := by
  rw [hr.values, HashTable.keys, HashTable.keys, List.map_map]
  rfl

/-- The search meets the element with the key. -/
theorem Refines.find (hr : Refines hashFunction s els t) {key : CStr} (hkey : key.length < 2 ^ 32) :
    (∃ el, hashFindStr hashFunction s.table key = some (some el) ∧ (key, el) ∈ els) ∨
      (hashFindStr hashFunction s.table key = some none ∧ key ∉ els.keys) := by
  obtain ⟨out, heq, hsome, hnone⟩ := hr.represents.find hr.short hkey
  cases out with
  | none => exact .inr ⟨heq, hnone rfl⟩
  | some el => exact .inl ⟨el, heq, hsome el rfl⟩

/-- What the map has for a key is the value of the element with the key. -/
theorem Refines.find_of_mem (hr : Refines hashFunction s els t) {key : CStr} {el : Addr}
    (hmem : (key, el) ∈ els) : t.find key = some (s.value el) := by
  have hnodup : t.keys.Nodup := by
    rw [hr.keys]
    exact hr.nodup
  refine (HashTable.find_eq_some_iff hnodup).mpr ?_
  rw [hr.values]
  exact List.mem_map_of_mem (f := fun e : CStr × Addr => (e.1, s.value e.2)) hmem

theorem Refines.find_of_not_mem (hr : Refines hashFunction s els t) {key : CStr}
    (hout : key ∉ els.keys) : t.find key = none := by
  rw [HashTable.find_eq_none_iff, hr.keys]
  exact hout

theorem Refines.get (hr : Refines hashFunction s els t) {key : CStr} (hkey : key.length < 2 ^ 32) :
    s.get hashFunction key = some (t.find key) := by
  rw [Store.get]
  rcases hr.find hkey with ⟨el, heq, hmem⟩ | ⟨heq, hout⟩
  · rw [heq, hr.find_of_mem hmem]
    rfl
  · rw [heq, hr.find_of_not_mem hout]
    rfl

/-- The value of an element is replaced. -/
theorem Refines.update (hr : Refines hashFunction s els t) {key : CStr} {el : Addr}
    (hmem : (key, el) ∈ els) (v : V) :
    Refines hashFunction { s with value := Function.update s.value el v } els (t.update key v) := by
  refine ⟨hr.represents, ?_, hr.nodup, hr.short, hr.fresh⟩
  rw [hr.values, HashTable.update, List.map_map]
  refine List.map_congr_left fun e he => ?_
  by_cases hek : e.1 = key
  · -- the element with the key is the one that was found
    have hel : e.2 = el := HashTable.eq_of_mem hr.nodup (hek ▸ he) hmem
    simp [hek, hel]
  · have hel : e.2 ≠ el := by
      intro hel
      have hkeys := hr.represents.key e he
      rw [hel, hr.represents.key _ hmem] at hkeys
      exact hek hkeys.symm
    simp [hek, hel]

/-- A new object is made, outside of the table. -/
theorem Refines.alloc (hr : Refines hashFunction s els t) (v : V) :
    Refines hashFunction ⟨s.table, Function.update s.value s.next v, s.next + 1⟩ els t := by
  refine ⟨hr.represents, ?_, hr.nodup, hr.short, fun e he => ?_⟩
  rotate_left
  · exact (hr.fresh e he).trans (Nat.lt_succ_self _)
  rw [hr.values]
  refine List.map_congr_left fun e he => ?_
  have hne : e.2 ≠ s.next := (hr.fresh e he).ne
  simp [hne]

/-- The new object is added with a key that was not found. -/
theorem Refines.add (hr : Refines hashFunction s els t) {key : CStr} (hkey : key.length < 2 ^ 32)
    (hout : key ∉ els.keys) (v : V) :
    ∃ table, hashAddStr hashFunction s.table key s.next = some table ∧
      Refines hashFunction ⟨table, Function.update s.value s.next v, s.next + 1⟩
        (els.add key s.next) (t.add key v) := by
  have hel : s.next ∉ els.map Prod.snd := by
    intro hmem
    obtain ⟨e, he, hnext⟩ := List.mem_map.mp hmem
    exact (hr.fresh e he).ne hnext
  obtain ⟨table, hadd, hrep⟩ := hr.represents.add hel key
  have halloc := hr.alloc v
  refine ⟨table, hadd, hrep, ?_, ?_, ?_, ?_⟩
  · rw [HashTable.add, HashTable.add, List.map_append, ← halloc.values]
    simp
  · exact HashTable.nodup_add hr.nodup (HashTable.find_eq_none_iff.mpr hout)
  · intro k hk
    rw [HashTable.keys_add, List.mem_append, List.mem_singleton] at hk
    rcases hk with hk | rfl
    · exact hr.short k hk
    · exact hkey
  · intro e he
    rcases List.mem_append.mp he with he | he
    · exact halloc.fresh e he
    · rw [List.mem_singleton.mp he]
      exact Nat.lt_succ_self _

/-- Setting the value of a key. -/
theorem Refines.put (hr : Refines hashFunction s els t) {key : CStr} (hkey : key.length < 2 ^ 32)
    (v : V) :
    ∃ s' els', s.put hashFunction key v = some s' ∧
      Refines hashFunction s' els' ((Call.put key v).apply t) := by
  rw [Store.put, Call.apply, hr.keys]
  rcases hr.find hkey with ⟨el, heq, hmem⟩ | ⟨heq, hout⟩
  · rw [heq, if_pos (HashTable.mem_keys_of_mem hmem)]
    exact ⟨_, els, rfl, hr.update hmem v⟩
  · obtain ⟨table, hadd, hr'⟩ := hr.add hkey hout v
    rw [heq, if_neg hout]
    refine ⟨_, _, ?_, hr'⟩
    change (hashAddStr hashFunction s.table key s.next).bind _ = _
    rw [hadd]
    rfl

/-- Removing a key. -/
theorem Refines.remove (hr : Refines hashFunction s els t) {key : CStr}
    (hkey : key.length < 2 ^ 32) :
    ∃ s' els', s.remove hashFunction key = some s' ∧
      Refines hashFunction s' els' ((Call.remove (V := V) key).apply t) := by
  have hnodup : t.keys.Nodup := by
    rw [hr.keys]
    exact hr.nodup
  rw [Store.remove, Call.apply, HashTable.del_eq_filter hnodup, hr.values, List.filter_map]
  rcases hr.find hkey with ⟨el, heq, hmem⟩ | ⟨heq, hout⟩
  · obtain ⟨h', hdel, hrep⟩ := hr.represents.delete (List.mem_map_of_mem hmem)
    have hfilter : els.filter (fun e => e.2 ≠ el) =
        els.filter ((fun e => decide (e.1 ≠ key)) ∘ fun e : CStr × Addr => (e.1, s.value e.2)) := by
      refine List.filter_congr fun e he => decide_eq_decide.mpr (not_congr ?_)
      refine ⟨fun hel => ?_, fun hek => ?_⟩
      · have hkeys := hr.represents.key e he
        rw [hel, hr.represents.key _ hmem] at hkeys
        exact hkeys.symm
      · exact HashTable.eq_of_mem hr.nodup (hek ▸ he) hmem
    refine ⟨{ s with table := h' }, els.filter fun e => e.2 ≠ el, ?_, hrep, ?_, ?_, ?_, ?_⟩
    · rw [heq]
      change (hashDelete s.table el).bind _ = _
      rw [hdel]
      rfl
    · rw [hfilter]
    · exact hr.nodup.sublist (List.filter_sublist.map _)
    · intro k hk
      exact hr.short k ((List.filter_sublist.map Prod.fst).subset hk)
    · exact fun e he => hr.fresh e (List.mem_of_mem_filter he)
  · refine ⟨s, els, by rw [heq]; rfl, hr.represents, ?_, hr.nodup, hr.short, hr.fresh⟩
    refine congrArg _ (List.filter_eq_self.mpr fun e he => decide_eq_true fun hek => hout ?_)
    exact List.mem_map.mpr ⟨e, he, hek⟩

/-- Iterating over the elements. -/
theorem Refines.entries (hr : Refines hashFunction s els t) : s.entries = some t := by
  let content : Addr → CStr × V := fun el => (s.table.mem.key el, s.value el)
  let I : List Addr → HashTable CStr V → Prop := fun rest seen =>
    seen ++ rest.map content = (els.map Prod.snd).map content ∧
      ∃ before, els.map Prod.snd = before ++ rest
  have hrule : ∃ seen, s.entries = some seen ∧ I [] seen := by
    refine hashIter_rule I hr.represents.lists ⟨rfl, [], rfl⟩ ?_ ?_
    · intro el rest seen hI
      obtain ⟨-, before, hsplit⟩ := hI
      exact Hash.Lists.next (hsplit ▸ hr.represents.lists)
    · intro el rest seen hI
      obtain ⟨hseen, before, hsplit⟩ := hI
      exact ⟨_, rfl, by simpa [content] using hseen, before ++ [el], by simpa using hsplit⟩
  obtain ⟨seen, heq, hseen, -⟩ := hrule
  rw [List.map_nil, List.append_nil, List.map_map] at hseen
  rw [heq, hseen, hr.values]
  refine congrArg some (List.map_congr_left fun e he => ?_)
  exact congrArg (fun k => (k, s.value e.2)) (hr.represents.key e he)

theorem Refines.run (hr : Refines hashFunction s els t) {calls : List (Call V)}
    (hlen : ∀ c ∈ calls, c.key.length < 2 ^ 32) :
    ∃ s' els', calls.foldlM (Call.run hashFunction) s = some s' ∧
      Refines hashFunction s' els' (calls.foldl Call.apply t) := by
  induction calls generalizing s els t with
  | nil => exact ⟨s, els, rfl, hr⟩
  | cons c calls ih =>
      have hc := hlen c List.mem_cons_self
      have hstep : ∃ s' els', c.run hashFunction s = some s' ∧
          Refines hashFunction s' els' (c.apply t) := by
        cases c with
        | put key v => exact hr.put hc v
        | remove key => exact hr.remove hc
      obtain ⟨s', els', heq, hr'⟩ := hstep
      obtain ⟨s'', els'', hrun, hend⟩ := ih hr' fun d hd => hlen d (List.mem_cons_of_mem c hd)
      refine ⟨s'', els'', ?_, hend⟩
      rw [List.foldlM_cons, heq]
      exact hrun

end Refinement

end Bpsp.Uthash
