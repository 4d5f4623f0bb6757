import Bpsp.CLib.Chain
import Bpsp.CLib.CString

/-!
# The hash table

`deps/uthash.h`: the macros that the program uses for its tables, with string keys. An element is in
two lists at once, both linked through the handle inside it: that of all elements in the order in
which they were added (`prev`, `next`), and that of its bucket (`hh_prev`, `hh_next`). Counters are
natural numbers, and allocation succeeds. A loop makes at most as many turns as there are items;
where these do not suffice, and where a NULL pointer is followed, the result is `none`.
-/

namespace Bpsp.Uthash

open CLib

/-- `UT_hash_handle`, for all objects that have one: each field maps the objects to its content. A
key is the string that it points to. -/
structure Handles (ι : Type) where
  prev : ι → Option ι
  next : ι → Option ι
  hhPrev : ι → Option ι
  hhNext : ι → Option ι
  key : ι → CStr
  keylen : ι → UInt32
  hashv : ι → UInt32

/-- Handles of zeros. -/
def Handles.zero {ι : Type} : Handles ι :=
  ⟨fun _ => none, fun _ => none, fun _ => none, fun _ => none, fun _ => default, fun _ => 0,
    fun _ => 0⟩

/-- `UT_hash_bucket`. -/
structure Bucket (ι : Type) where
  hhHead : Option ι
  count : Nat
  expandMult : Nat

/-- `UT_hash_table`. -/
structure Table (ι : Type) where
  buckets : Nat → Bucket ι
  numBuckets : Nat
  log2NumBuckets : Nat
  numItems : Nat
  tail : ι
  idealChainMaxlen : Nat
  nonidealItems : Nat
  ineffExpands : Nat
  noexpand : Bool

/-- The objects, and a variable that is NULL or points to the first element of a table. The table is
found through the handle of that element. -/
structure Hash (ι : Type) where
  mem : Handles ι
  head : Option (ι × Table ι)

/-! ## `HASH_JEN` -/

/-- Four bytes, the least significant one first. -/
def word (b₀ b₁ b₂ b₃ : Byte) : UInt32 :=
  b₀.toUInt32 + (b₁.toUInt32 <<< 8) + (b₂.toUInt32 <<< 16) + (b₃.toUInt32 <<< 24)

/-- `HASH_JEN_MIX`. -/
def hashJenMix (a b c : UInt32) : UInt32 × UInt32 × UInt32 :=
  let a := (a - b - c) ^^^ (c >>> 13)
  let b := (b - c - a) ^^^ (a <<< 8)
  let c := (c - a - b) ^^^ (b >>> 13)
  let a := (a - b - c) ^^^ (c >>> 12)
  let b := (b - c - a) ^^^ (a <<< 16)
  let c := (c - a - b) ^^^ (b >>> 5)
  let a := (a - b - c) ^^^ (c >>> 3)
  let b := (b - c - a) ^^^ (a <<< 10)
  let c := (c - a - b) ^^^ (b >>> 15)
  (a, b, c)

/-- The loop of `HASH_JEN` over twelve bytes at a time, and what it leaves. -/
def hashJenLoop : List Byte → UInt32 × UInt32 × UInt32 → List Byte × UInt32 × UInt32 × UInt32
  | b₀ :: b₁ :: b₂ :: b₃ :: b₄ :: b₅ :: b₆ :: b₇ :: b₈ :: b₉ :: b₁₀ :: b₁₁ :: rest, (i, j, hashv) =>
      hashJenLoop rest
        (hashJenMix (i + word b₀ b₁ b₂ b₃) (j + word b₄ b₅ b₆ b₇) (hashv + word b₈ b₉ b₁₀ b₁₁))
  | rest, s => (rest, s)

/-- `HASH_JEN`. The cases of its `switch` fall through, so that each byte that is left is added. -/
def hashJen (key : List Byte) : UInt32 :=
  let (rest, i, j, hashv) := hashJenLoop key (0x9e3779b9, 0x9e3779b9, 0xfeedbeef)
  let b := fun n => rest.getD n 0
  let hashv := hashv + UInt32.ofNat key.length + word 0 (b 8) (b 9) (b 10)
  (hashJenMix (i + word (b 0) (b 1) (b 2) (b 3)) (j + word (b 4) (b 5) (b 6) (b 7)) hashv).2.2

/-! ## Buckets -/

/-- `HASH_TO_BKT`. -/
def hashToBkt (hashv : UInt32) (numBkts : Nat) : Nat := hashv.toNat &&& (numBkts - 1)

/-- `HASH_KEYCMP(a, b, n) == 0`. -/
def hashKeycmp (a b : CStr) (n : UInt32) : Bool := a.bytes.take n.toNat = b.bytes.take n.toNat

/-- `(unsigned)uthash_strlen(key)`. -/
def strKeylen (key : CStr) : UInt32 := UInt32.ofNat key.length

section Macros

variable {ι : Type} [DecidableEq ι]

/-- An item becomes the first of a chain that starts with `head`, in `HASH_ADD_TO_BKT` as in
`HASH_EXPAND_BUCKETS`. -/
def Handles.pushHh (m : Handles ι) (head : Option ι) (a : ι) : Handles ι :=
  { m with
    hhNext := Function.update m.hhNext a head
    hhPrev := assign (Function.update m.hhPrev a none) head (some a) }

/-- The locals of `HASH_EXPAND_BUCKETS` that its loops change. -/
structure Expansion (ι : Type) where
  mem : Handles ι
  newBuckets : Nat → Bucket ι
  nonidealItems : Nat

/-- A turn of the inner loop of `HASH_EXPAND_BUCKETS`: `thh` goes to its bucket out of `n`. -/
def moveItem (maxlen n : Nat) (thh : ι) (e : Expansion ι) : Expansion ι :=
  let bkt := hashToBkt (e.mem.hashv thh) n
  let newbkt := e.newBuckets bkt
  let count := newbkt.count + 1
  { mem := e.mem.pushHh newbkt.hhHead thh
    newBuckets := Function.update e.newBuckets bkt
      { hhHead := some thh
        count := count
        expandMult :=
          if maxlen < count ∧ newbkt.expandMult * maxlen < count then newbkt.expandMult + 1
          else newbkt.expandMult }
    nonidealItems := if maxlen < count then e.nonidealItems + 1 else e.nonidealItems }

/-- The loops of `HASH_EXPAND_BUCKETS`: every chain is walked, and its items are moved. -/
def moveItems (maxlen n fuel : Nat) (heads : List (Option ι)) (e : Expansion ι) :
    Exec (Expansion ι) :=
  heads.foldlM
    (fun e head =>
      iterate (fun e => e.mem.hhNext) (fun thh e => some (moveItem maxlen n thh e)) fuel head e) e

/-- What `HASH_EXPAND_BUCKETS` makes of the table when its loops are over. -/
def Table.expanded (t : Table ι) (maxlen : Nat) (e : Expansion ι) : Table ι :=
  let ineffExpands := if t.numItems >>> 1 < e.nonidealItems then t.ineffExpands + 1 else 0
  { t with
    buckets := e.newBuckets
    numBuckets := t.numBuckets * 2
    log2NumBuckets := t.log2NumBuckets + 1
    idealChainMaxlen := maxlen
    nonidealItems := e.nonidealItems
    ineffExpands := ineffExpands
    noexpand := t.noexpand || 1 < ineffExpands }

/-- `ideal_chain_maxlen` for twice the number of buckets. -/
def Table.idealMaxlen (t : Table ι) : Nat :=
  (t.numItems >>> (t.log2NumBuckets + 1)) +
    (if t.numItems &&& (t.numBuckets * 2 - 1) ≠ 0 then 1 else 0)

/-- `HASH_EXPAND_BUCKETS`. -/
def hashExpandBuckets (m : Handles ι) (t : Table ι) : Exec (Handles ι × Table ι) := do
  let heads := (List.range t.numBuckets).map fun i => (t.buckets i).hhHead
  let e ← moveItems t.idealMaxlen (t.numBuckets * 2) t.numItems heads ⟨m, fun _ => ⟨none, 0, 0⟩, 0⟩
  some (e.mem, t.expanded t.idealMaxlen e)

/-- `HASH_BKT_CAPACITY_THRESH`. -/
def hashBktCapacityThresh : Nat := 10

/-- `HASH_ADD_TO_BKT`. -/
def hashAddToBkt (m : Handles ι) (t : Table ι) (bkt : Nat) (add : ι) :
    Exec (Handles ι × Table ι) :=
  let b := t.buckets bkt
  let b' : Bucket ι := { b with count := b.count + 1, hhHead := some add }
  let m := m.pushHh b.hhHead add
  let t := { t with buckets := Function.update t.buckets bkt b' }
  if (b'.expandMult + 1) * hashBktCapacityThresh ≤ b'.count ∧ !t.noexpand then hashExpandBuckets m t
  else some (m, t)

/-- `HASH_DEL_IN_BKT`. -/
def hashDelInBkt (m : Handles ι) (t : Table ι) (bkt : Nat) (del : ι) : Handles ι × Table ι :=
  let b := t.buckets bkt
  let b' : Bucket ι :=
    { b with
      count := b.count - 1
      hhHead := if b.hhHead = some del then m.hhNext del else b.hhHead }
  ({ m with
      hhNext := assign m.hhNext (m.hhPrev del) (m.hhNext del)
      hhPrev := assign m.hhPrev (m.hhNext del) (m.hhPrev del) },
    { t with buckets := Function.update t.buckets bkt b' })

/-! ## Adding, finding and deleting -/

/-- `HASH_MAKE_TABLE`, with `HASH_INITIAL_NUM_BUCKETS` and `HASH_INITIAL_NUM_BUCKETS_LOG2`. -/
def hashMakeTable (add : ι) : Table ι :=
  ⟨fun _ => ⟨none, 0, 0⟩, 32, 5, 0, add, 0, 0, 0, false⟩

/-- `HASH_APPEND_LIST`. -/
def hashAppendList (m : Handles ι) (t : Table ι) (add : ι) : Handles ι × Table ι :=
  ({ m with
      next := Function.update (Function.update m.next add none) t.tail (some add)
      prev := Function.update m.prev add (some t.tail) },
    { t with tail := add })

/-- The first fields of the handle that `HASH_ADD_KEYPTR` sets. -/
def Handles.setKey (m : Handles ι) (add : ι) (key : CStr) (keylen hashv : UInt32) : Handles ι :=
  { m with
    key := Function.update m.key add key
    keylen := Function.update m.keylen add keylen
    hashv := Function.update m.hashv add hashv }

/-- `HASH_ADD_TO_TABLE`. -/
def hashAddToTable (m : Handles ι) (head : ι) (t : Table ι) (hashval : UInt32) (add : ι) :
    Exec (Hash ι) := do
  let t := { t with numItems := t.numItems + 1 }
  let (m, t) ← hashAddToBkt m t (hashToBkt hashval t.numBuckets) add
  some ⟨m, some (head, t)⟩

/-- `HASH_ADD_KEYPTR_BYHASHVALUE`. -/
def hashAddKeyptrByhashvalue (h : Hash ι) (key : CStr) (keylen hashval : UInt32) (add : ι) :
    Exec (Hash ι) :=
  let m := h.mem.setKey add key keylen hashval
  match h.head with
  | none =>
      let m := { m with
        next := Function.update m.next add none
        prev := Function.update m.prev add none }
      hashAddToTable m add (hashMakeTable add) hashval add
  | some (head, t) =>
      let (m, t) := hashAppendList m t add
      hashAddToTable m head t hashval add

/-- The neighbours of an element in the order of the elements are linked to each other. -/
def Handles.unlink (m : Handles ι) (del : ι) : Handles ι :=
  { m with
    next := assign m.next (m.prev del) (m.next del)
    prev := assign m.prev (m.next del) (m.prev del) }

/-- The last element when `HASH_DELETE` has taken one out. -/
def Handles.tailWithout (m : Handles ι) (tail del : ι) : Option ι :=
  if del = tail then m.prev del else some tail

omit [DecidableEq ι] in
/-- The first element when `HASH_DELETE` has taken one out. -/
def Handles.headWithout (m : Handles ι) (head del : ι) : Option ι :=
  if m.prev del = none then m.next del else some head

/-- `HASH_DELETE`. -/
def hashDelete (h : Hash ι) (del : ι) : Exec (Hash ι) :=
  match h.head with
  | none => none
  | some (head, t) =>
      let m := h.mem
      if m.prev del = none ∧ m.next del = none then some { h with head := none }
      else do
        let tail ← m.tailWithout t.tail del
        let head ← m.headWithout head del
        let m := m.unlink del
        let t := { t with tail := tail }
        let (m, t) := hashDelInBkt m t (hashToBkt (m.hashv del) t.numBuckets) del
        some ⟨m, some (head, { t with numItems := t.numItems - 1 })⟩

omit [DecidableEq ι] in
/-- The test in the loop of `HASH_FIND_IN_BKT`. -/
def Handles.isFound (m : Handles ι) (key : CStr) (keylen hashval : UInt32) (out : ι) : Bool :=
  m.hashv out = hashval ∧ m.keylen out = keylen ∧ hashKeycmp (m.key out) key keylen

/-- `HASH_FIND_BYHASHVALUE`, with `HASH_FIND_IN_BKT`. -/
def hashFindByhashvalue (h : Hash ι) (key : CStr) (keylen hashval : UInt32) : Exec (Option ι) :=
  match h.head with
  | none => some none
  | some (_, t) =>
      search h.mem.hhNext (h.mem.isFound key keylen hashval) t.numItems
        (t.buckets (hashToBkt hashval t.numBuckets)).hhHead

section HashFunction

-- `HASH_FUNCTION` is `HASH_JEN` unless the including file defines another one.
variable (hashFunction : List Byte → UInt32)

/-- `HASH_VALUE`. -/
def hashValue (key : CStr) (keylen : UInt32) : UInt32 :=
  hashFunction (key.bytes.take keylen.toNat)

/-- `HASH_FIND_STR`. -/
def hashFindStr (h : Hash ι) (findstr : CStr) : Exec (Option ι) :=
  let keylen := strKeylen findstr
  hashFindByhashvalue h findstr keylen (hashValue hashFunction findstr keylen)

/-- `HASH_ADD_STR` of an element whose key is this string. -/
def hashAddStr (h : Hash ι) (key : CStr) (add : ι) : Exec (Hash ι) :=
  let keylen := strKeylen key
  hashAddKeyptrByhashvalue h key keylen (hashValue hashFunction key keylen) add

end HashFunction

/-- `HASH_COUNT`. -/
def hashCount (h : Hash ι) : Nat := (h.head.map fun p => p.2.numItems).getD 0

/-- `HASH_ITER`, for a body that works on a state in which the table is found. The successor of an
element is read before the body is run for it. -/
def hashIter {σ : Type} (table : σ → Hash ι) (body : ι → σ → Exec σ) (s : σ) : Exec σ :=
  iterate (fun s => (table s).mem.next) body (hashCount (table s)) ((table s).head.map Prod.fst) s

end Macros

end Bpsp.Uthash
