import Bpsp.Frame.Basic
import Bpsp.Uthash.Refinement

/-!
# The headers of a frame in their table

`frame__set_var_header` and `frame__get_var_header` on the hash table of `deps/uthash.h` with its
pointers, as the code has them, in the place of the map that `Frame.varHeaders` is. Whatever headers
are set, one after another, both return the same statuses and count the same `vars_size`, and the
table has the headers of the frame (`headers_stored`).
-/

namespace Bpsp.Frame

open CLib Uthash

/-- The table of headers of a frame, and its `vars_size`. -/
structure HeaderTable where
  headers : Store (Option CStr)
  varsSize : Nat

/-- `HASH_ADD_STR` of the element at `el`. -/
def HeaderTable.addStr (hashFunction : List Byte → UInt32) (headers : Store (Option CStr))
    (key : CStr) (el : Addr) : Exec (Store (Option CStr)) := do
  let table ← hashAddStr hashFunction headers.table key el
  some { headers with table := table }

/-- `frame__set_var_header`, with `var_header__new` and `var_header__set`. When there is no room for
a new header its object is left behind. -/
def HeaderTable.setVarHeader (hashFunction : List Byte → UInt32) (frame : HeaderTable) (key : CStr)
    (value : Option CStr) : Exec (Status × HeaderTable) :=
  if key.length = 0 then some (.invalidArg, frame)
  else do
    let value ← value
    let keyLen := key.length % 65536
    let valueLen := value.length % 65536
    match ← hashFindStr hashFunction frame.headers.table key with
    | some el => do
        let old ← frame.headers.value el
        let size := (frame.varsSize + 65536 - old.length % 65536) % 65536
        let headers :=
          { frame.headers with value := Function.update frame.headers.value el (some value) }
        if size + valueLen < 65536 then some (.ok, ⟨headers, size + valueLen⟩)
        else some (.maxVarHeaders, ⟨headers, size⟩)
    | none =>
        let el := frame.headers.next
        -- an empty value is not stored
        let stored := if value.length = 0 then none else some value
        let headers : Store (Option CStr) :=
          ⟨frame.headers.table, Function.update frame.headers.value el stored, el + 1⟩
        if frame.varsSize + keyLen + valueLen + 5 < 65536 then do
          let headers ← HeaderTable.addStr hashFunction headers key el
          some (.ok, ⟨headers, frame.varsSize + keyLen + valueLen + 5⟩)
        else some (.maxVarHeaders, ⟨headers, frame.varsSize⟩)

/-- Headers are set one after another, whatever is returned. -/
def HeaderTable.setAll (hashFunction : List Byte → UInt32) :
    HeaderTable → List (CStr × Option CStr) → Exec (List Status × HeaderTable)
  | frame, [] => some ([], frame)
  | frame, (key, value) :: headers => do
      let (s, frame) ← frame.setVarHeader hashFunction key value
      let (ss, frame) ← HeaderTable.setAll hashFunction frame headers
      some (s :: ss, frame)

/-- The same on a frame with a map of headers. -/
def setAll : Frame → List (CStr × Option CStr) → Exec (List Status × Frame)
  | frame, [] => some ([], frame)
  | frame, (key, value) :: headers => do
      let (s, frame) ← frame.setVarHeader key value
      let (ss, frame) ← setAll frame headers
      some (s :: ss, frame)

section Stored

variable {hashFunction : List Byte → UInt32} {frame frame' : Frame} {table : HeaderTable}

/-- The table has the headers of the frame. -/
def StoredIn (hashFunction : List Byte → UInt32) (frame : Frame) (table : HeaderTable) : Prop :=
  table.varsSize = frame.varsSize ∧ ∃ els, Refines hashFunction table.headers els frame.varHeaders

/-- Setting a header does the same to both. -/
theorem StoredIn.set_var_header (h : StoredIn hashFunction frame table) {key : CStr}
    (hkey : key.length < 2 ^ 32) {value : Option CStr} {s : Status}
    (hset : frame.setVarHeader key value = some (s, frame')) :
    ∃ table', table.setVarHeader hashFunction key value = some (s, table') ∧
      StoredIn hashFunction frame' table' := by
  obtain ⟨hsize, els, hr⟩ := h
  rw [HeaderTable.setVarHeader]
  rw [Frame.setVarHeader] at hset
  by_cases hzero : key.length = 0
  · rw [if_pos hzero] at hset ⊢
    obtain ⟨rfl, rfl⟩ := Prod.mk.inj (Option.some.inj hset)
    exact ⟨table, rfl, hsize, els, hr⟩
  rw [if_neg hzero] at hset ⊢
  cases value with
  | none => cases hset
  | some value =>
      simp only [Option.bind_eq_bind, Option.bind_some] at hset ⊢
      rcases hr.find hkey with ⟨el, heq, hmem⟩ | ⟨heq, hout⟩
      · -- the header is there, and its value is replaced
        rw [hr.find_of_mem hmem] at hset
        rw [heq]
        simp only [Option.bind_some] at hset ⊢
        cases hold : table.headers.value el with
        | none =>
            rw [hold] at hset
            cases hset
        | some old =>
            rw [hold] at hset
            simp only [Option.bind_some, ← hsize] at hset ⊢
            have hr' := hr.update hmem (some value)
            split_ifs at hset ⊢
            all_goals
              obtain ⟨rfl, rfl⟩ := Prod.mk.inj (Option.some.inj hset)
              exact ⟨_, rfl, rfl, els, hr'⟩
      · -- a new header, which is added when there is room for it
        rw [hr.find_of_not_mem hout] at hset
        rw [heq]
        simp only [Option.bind_some, ← hsize] at hset ⊢
        generalize (if value.length = 0 then none else some value) = stored at hset ⊢
        by_cases hroom : table.varsSize + key.length % 65536 + value.length % 65536 + 5 < 65536
        · obtain ⟨store, hadd, hr'⟩ := hr.add hkey hout stored
          rw [if_pos hroom] at hset ⊢
          obtain ⟨rfl, rfl⟩ := Prod.mk.inj (Option.some.inj hset)
          simp only [HeaderTable.addStr, hadd, Option.bind_eq_bind, Option.bind_some]
          exact ⟨_, rfl, rfl, _, hr'⟩
        · rw [if_neg hroom] at hset ⊢
          obtain ⟨rfl, rfl⟩ := Prod.mk.inj (Option.some.inj hset)
          exact ⟨_, rfl, hsize, els, hr.alloc stored⟩

theorem StoredIn.set_all (h : StoredIn hashFunction frame table)
    {headers : List (CStr × Option CStr)} (hlen : ∀ e ∈ headers, e.1.length < 2 ^ 32)
    {ss : List Status} (hset : frame.setAll headers = some (ss, frame')) :
    ∃ table', table.setAll hashFunction headers = some (ss, table') ∧
      StoredIn hashFunction frame' table' := by
  induction headers generalizing frame table ss with
  | nil =>
      obtain ⟨rfl, rfl⟩ := Prod.mk.inj (Option.some.inj hset)
      exact ⟨table, rfl, h⟩
  | cons e headers ih =>
      obtain ⟨key, value⟩ := e
      simp only [setAll, Option.bind_eq_bind, Option.bind_eq_some_iff] at hset
      obtain ⟨⟨s, frame₁⟩, hfirst, ⟨ss', frame₂⟩, hrest, hend⟩ := hset
      obtain ⟨rfl, rfl⟩ := Prod.mk.inj (Option.some.inj hend)
      obtain ⟨table₁, hfirst', h₁⟩ := h.set_var_header (hlen _ List.mem_cons_self) hfirst
      obtain ⟨table₂, hrest', h₂⟩ := ih h₁ (fun e he => hlen e (List.mem_cons_of_mem _ he)) hrest
      refine ⟨table₂, ?_, h₂⟩
      rw [HeaderTable.setAll, hfirst']
      simp only [Option.bind_eq_bind, Option.bind_some, hrest']

end Stored

end Bpsp.Frame
