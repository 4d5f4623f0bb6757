import Bpsp.Frame.Headers

/-!
# Accounting for headers

What a single `frame__set_var_header` does (`set_var_header_cases`), and what becomes of `vars_size`
over sequences of calls. The lengths of a key and a value are taken modulo `2 ^ 16`, so `vars_size`
is the sum of the reduced lengths whatever was set (`calls_count`); it is the size of the table
exactly when nothing was reduced (`calls_account_iff`). A single call is atomic exactly when it does
not fail on a header that is there already (`set_atomic_iff`).
-/

namespace Bpsp.Frame

open CLib

/-- A chain of calls returns what its second part does, or it ends with its first. -/
theorem assert_cases {α : Type} {x : Exec (Status × α)} {next : α → Exec (Status × α)}
    {r : Status × α} (h : assertOk x next = some r) :
    (∃ a, x = some (.ok, a) ∧ next a = some r) ∨ (r.1 ≠ .ok ∧ x = some r) := by
  simp only [assertOk, bind, Option.bind_eq_some_iff] at h
  obtain ⟨⟨s, a⟩, hx, h⟩ := h
  split_ifs at h with hs
  · exact Or.inl ⟨a, by rw [hx, show s = Status.ok from hs], h⟩
  · rw [← Option.some.inj h]
    exact Or.inr ⟨hs, hx⟩

theorem assert_ok_cases {α : Type} {x : Exec (Status × α)} {next : α → Exec (Status × α)}
    {r : Status × α} (h : assertOk x next = some r) :
    (∃ a, x = some (.ok, a) ∧ next a = some r) ∨ r.1 ≠ .ok :=
  (assert_cases h).imp_right And.left

/-- A successful chain of calls has successful parts. -/
theorem assert_ok_some {α : Type} {x : Exec (Status × α)} {next : α → Exec (Status × α)} {r : α}
    (h : assertOk x next = some (.ok, r)) : ∃ a, x = some (.ok, a) ∧ next a = some (.ok, r) :=
  (assert_ok_cases h).resolve_right fun hne => hne rfl

/-- What follows a check of the status was reached with `BPSP_OK`. -/
theorem ok_of_guard {α : Type} {s : Status} {a r : α} {next : Exec (Status × α)}
    (h : (if s ≠ .ok then some (s, a) else next) = some (.ok, r)) : next = some (.ok, r) := by
  split_ifs at h with hs
  · exact absurd (Prod.mk.inj (Option.some.inj h)).1 hs
  · exact h

/-- What setting a header can do to a frame: nothing, insert it, or overwrite its value. Only the
last can have an effect and fail. -/
theorem set_var_header_cases {fr : Frame} {k v : CStr} {r : Status × Frame}
    (hrun : fr.setVarHeader k (some v) = some r) :
    r.1 ≠ .ok ∧ r.2 = fr ∨
    (k.length ≠ 0 ∧ fr.varHeaders.find k = none ∧ r = (.ok, { fr with
      varsSize := fr.varsSize + k.length % 65536 + v.length % 65536 + 5
      varHeaders := fr.varHeaders.add k (if v.length = 0 then none else some v) })) ∨
    ∃ old size, k.length ≠ 0 ∧ fr.varHeaders.find k = some (some old) ∧
      (r.1 = .ok → v.length % 65536 ≤ size) ∧
      r.2 = { fr with varsSize := size, varHeaders := fr.varHeaders.update k (some v) } := by
  unfold setVarHeader at hrun
  split_ifs at hrun with hk
  · rw [← Option.some.inj hrun]
    exact Or.inl ⟨by simp, rfl⟩
  · simp only [bind, Option.bind_some] at hrun
    cases hfind : fr.varHeaders.find k with
    | none =>
        simp only [hfind] at hrun
        by_cases hfit : fr.varsSize + k.length % 65536 + v.length % 65536 + 5 < 65536
        · rw [if_pos hfit] at hrun
          exact Or.inr (Or.inl ⟨hk, rfl, (Option.some.inj hrun).symm⟩)
        · rw [if_neg hfit] at hrun
          rw [← Option.some.inj hrun]
          exact Or.inl ⟨by simp, rfl⟩
    | some old =>
        simp only [hfind, Option.bind_eq_some_iff] at hrun
        obtain ⟨old, rfl, hrun⟩ := hrun
        refine Or.inr (Or.inr ?_)
        split_ifs at hrun <;> rw [← Option.some.inj hrun]
        · exact ⟨old, _, hk, rfl, fun _ => Nat.le_add_left _ _, rfl⟩
        · exact ⟨old, _, hk, rfl, by simp, rfl⟩

/-- Setting a header changes the headers and their size only. -/
theorem set_var_header_frame {fr : Frame} {k v : CStr} {r : Status × Frame}
    (hrun : fr.setVarHeader k (some v) = some r) :
    r.2 = { fr with varsSize := r.2.varsSize, varHeaders := r.2.varHeaders } := by
  rcases set_var_header_cases hrun with ⟨-, hr⟩ | ⟨-, -, hr⟩ | ⟨_, _, -, -, -, hr⟩ <;> rw [hr]

/-- Every header has a value. -/
def Valued (h : Headers) : Prop := ∀ e ∈ h, e.2.isSome

/-- Setting a header is defined unless the header is there and has no value. -/
theorem set_var_header_defined {fr : Frame} {k : CStr} (h : fr.varHeaders.find k ≠ some none)
    (v : CStr) : ∃ r, fr.setVarHeader k (some v) = some r := by
  unfold setVarHeader
  by_cases hk : k.length = 0
  · exact ⟨_, if_pos hk⟩
  · simp only [if_neg hk, bind, Option.bind_some]
    cases hfind : fr.varHeaders.find k with
    | none =>
        by_cases hfit : fr.varsSize + k.length % 65536 + v.length % 65536 + 5 < 65536
        · exact ⟨_, if_pos hfit⟩
        · exact ⟨_, if_neg hfit⟩
    | some old =>
        cases old with
        | none => exact absurd hfind h
        | some old =>
            dsimp only [Option.bind_some]
            split_ifs <;> exact ⟨_, rfl⟩

/-- When every header has a value, they keep it unless an empty value is inserted. -/
theorem Valued.set {fr : Frame} (h : Valued fr.varHeaders) (k : CStr) {v : CStr}
    (hv : v.length ≠ 0 ∨ k ∈ fr.varHeaders.keys) :
    ∃ r, fr.setVarHeader k (some v) = some r ∧ Valued r.2.varHeaders := by
  have hfind : fr.varHeaders.find k ≠ some none := by
    intro hnone
    exact absurd (h _ (HashTable.mem_of_find hnone)) (by simp)
  obtain ⟨r, hrun⟩ := set_var_header_defined hfind v
  refine ⟨r, hrun, ?_⟩
  rcases set_var_header_cases hrun with ⟨-, hr⟩ | ⟨-, hnew, hr⟩ | ⟨old, size, -, -, -, hr⟩
  · rw [hr]
    exact h
  · rw [hr]
    intro e he
    rcases List.mem_append.mp he with he | he
    · exact h e he
    · rw [List.mem_singleton.mp he, if_neg (hv.resolve_right (HashTable.find_eq_none_iff.mp hnew))]
      rfl
  · rw [hr]
    rintro ⟨k', w⟩ he
    rw [HashTable.mem_update_iff] at he
    split_ifs at he
    · rw [he.2]
      rfl
    · exact h _ he

/-- The header with this key has no value. -/
structure UnsetAt (h : Headers) (k : CStr) : Prop where
  nodup : h.keys.Nodup
  missing : (k, none) ∈ h

/-- A header that has no value stays without one. -/
theorem UnsetAt.set {fr : Frame} {k₀ : CStr} (h : UnsetAt fr.varHeaders k₀) {k v : CStr}
    {r : Status × Frame} (hrun : fr.setVarHeader k (some v) = some r) :
    UnsetAt r.2.varHeaders k₀ := by
  rcases set_var_header_cases hrun with ⟨-, hr⟩ | ⟨-, hfind, hr⟩ | ⟨old, size, -, hfind, -, hr⟩
  · rw [hr]
    exact h
  · rw [hr]
    exact ⟨HashTable.nodup_add h.nodup hfind, List.mem_append_left _ h.missing⟩
  · have hne : k ≠ k₀ := by
      rintro rfl
      rw [(HashTable.find_eq_some_iff h.nodup).mpr h.missing] at hfind
      cases hfind
    rw [hr]
    exact ⟨by simpa using h.nodup,
      HashTable.mem_update_iff.mpr (by rw [if_neg hne]; exact h.missing)⟩

/-- Setting a header that has no value is undefined. -/
theorem UnsetAt.set_eq_none {fr : Frame} {k : CStr} (h : UnsetAt fr.varHeaders k)
    (hk : k.length ≠ 0) (v : CStr) : fr.setVarHeader k (some v) = none := by
  unfold setVarHeader
  simp only [if_neg hk, bind, Option.bind_some, Option.bind_none,
    (HashTable.find_eq_some_iff h.nodup).mpr h.missing]

/-- Some header has no value. -/
structure Unset (h : Headers) : Prop where
  nodup : h.keys.Nodup
  missing : ∃ k, (k, none) ∈ h

theorem UnsetAt.unset {h : Headers} {k : CStr} (hu : UnsetAt h k) : Unset h :=
  ⟨hu.nodup, k, hu.missing⟩

theorem Unset.set {fr : Frame} (h : Unset fr.varHeaders) {k v : CStr} {r : Status × Frame}
    (hrun : fr.setVarHeader k (some v) = some r) : Unset r.2.varHeaders := by
  obtain ⟨k₀, hk₀⟩ := h.missing
  exact (UnsetAt.set ⟨h.nodup, hk₀⟩ hrun).unset

/-- A call fails for lack of room exactly when the table would get too large, and an error leaves
the frame as it was. -/
def SetsAtomically (fr : Frame) (t : Table) (key value : CStr) : Prop :=
  ∃ s fr', fr.setVarHeader key (some value) = some (s, fr') ∧
    (s = .maxVarHeaders ↔ 65535 < encSize (put t key value)) ∧ (s ≠ .ok → fr' = fr)

/-- Setting a header of a correctly accounted frame is atomic exactly when the table does not get
too large by it, or the header is new. -/
theorem set_atomic_iff {fr : Frame} {t : Table} (h : Accounts fr t) {key value : CStr}
    (hkey : key.length < 65536) (hvalue : value.length < 65536) (hne : value.length ≠ 0) :
    SetsAtomically fr t key value ↔
      encSize (put t key value) ≤ 65535 ∨ (key.length ≠ 0 ∧ key ∉ t.keys) := by
  by_cases hempty : key.length = 0
  · -- an empty key is refused before anything else
    have hrun : fr.setVarHeader key (some value) = some (.invalidArg, fr) := by
      unfold setVarHeader
      rw [if_pos hempty]
    constructor
    · rintro ⟨s, fr', hset, hmax, -⟩
      obtain ⟨rfl, rfl⟩ := Prod.mk.inj (Option.some.inj (hrun.symm.trans hset))
      refine Or.inl (Nat.le_of_not_lt fun hfull => ?_)
      cases hmax.mpr hfull
    · rintro (hfits | ⟨hk, -⟩)
      · refine ⟨_, _, hrun, ⟨fun h0 => ?_, fun hfull => ?_⟩, fun _ => rfl⟩
        · cases h0
        · omega
      · exact absurd hempty hk
  by_cases hfits : encSize (put t key value) ≤ 65535
  · refine iff_of_true ?_ (Or.inl hfits)
    refine ⟨_, _, set_var_header_accounts h hempty (Or.inl hne) hfits, ⟨fun h0 => ?_, fun hfull => ?_⟩,
      fun h0 => absurd rfl h0⟩
    · cases h0
    · omega
  have hfull : 65535 < encSize (put t key value) := Nat.lt_of_not_le hfits
  by_cases hmem : key ∈ t.keys
  · refine iff_of_false ?_ (by simp [hfits, hmem])
    obtain ⟨old, hold⟩ := Option.isSome_iff_exists.mp (HashTable.find_isSome_iff.mpr hmem)
    rintro ⟨s, fr', hset, -, hsame⟩
    rw [set_var_header_full_update h hempty hvalue hold hfull] at hset
    obtain ⟨rfl, rfl⟩ := Prod.mk.inj (Option.some.inj hset)
    have hheaders := congrArg Frame.varHeaders (hsame (by decide))
    have htable : t.update key value = t := stored_inj (hheaders.trans h.headers)
    -- the value was replaced by a longer one
    rw [put_of_mem value hmem, htable] at hfull
    have := h.fits
    omega
  · refine iff_of_true ?_ (Or.inr ⟨hempty, hmem⟩)
    exact ⟨_, _, set_var_header_full_new h hempty hkey hvalue hmem hfull, by simp [hfull],
      fun _ => rfl⟩

/-- A string of this many letters. -/
def letters (n : Nat) : CStr := ⟨List.replicate n 97, by simp [List.mem_replicate]⟩

@[simp] theorem length_letters (n : Nat) : (letters n).length = n := List.length_replicate

/-- The table with the one header `k: v`. -/
def sample : Table := [(.ofString "k", .ofString "v")]

theorem sample_accounts : Accounts (new.withHeaders sample) sample :=
  ⟨rfl, rfl, by decide, by decide⟩

theorem sample_put (v : CStr) : encSize (put sample (.ofString "k") v) = v.length + 6 := by
  have hput : put sample (.ofString "k") v = [(.ofString "k", v)] := by
    rw [put_of_mem v (by decide)]
    rfl
  rw [hput, encSize_cons, encSize_nil]
  show (CStr.ofString "k").length + v.length + 5 + 0 = v.length + 6
  rw [show (CStr.ofString "k").length = 1 by decide]
  omega

/-- A header of 65529 bytes can be replaced. -/
theorem set_atomic_fits : SetsAtomically (new.withHeaders sample) sample (.ofString "k")
    (letters 65529) :=
  (set_atomic_iff sample_accounts (by decide) (by simp) (by simp)).mpr
    (Or.inl (by rw [sample_put, length_letters]))

/-- One of 65530 bytes is refused after it was stored. -/
theorem set_atomic_fails : Accounts (new.withHeaders sample) sample ∧
    ¬ SetsAtomically (new.withHeaders sample) sample (.ofString "k") (letters 65530) := by
  refine ⟨sample_accounts, ?_⟩
  rintro ⟨s, fr', hset, -, hsame⟩
  have hfull : 65535 < encSize (put sample (.ofString "k") (letters 65530)) := by
    rw [sample_put, length_letters]
    decide
  rw [set_var_header_full_update sample_accounts (by decide) (by simp)
    (show sample.find (.ofString "k") = some (.ofString "v") by decide) hfull] at hset
  obtain ⟨rfl, rfl⟩ := Prod.mk.inj (Option.some.inj hset)
  have hsize := congrArg Frame.varsSize (hsame (by decide))
  exact absurd hsize (by decide)

/-- A call that changes the header table of a frame. -/
inductive Call where
  | setVarHeader (key value : CStr)
  | setVarHeaders (headers : Table)
  | copyVarHeaders (src : Frame)

/-- The headers that a call sets, in order. -/
def Call.headers : Call → List (CStr × Option CStr)
  | .setVarHeader key value => [(key, some value)]
  | .setVarHeaders headers => stored headers
  | .copyVarHeaders src => src.varHeaders

/-- What a call does to a frame. -/
def Call.run (fr : Frame) : Call → Exec (Status × Frame)
  | .setVarHeader key value => fr.setVarHeader key (some value)
  | .setVarHeaders headers => fr.setVarHeaders (stored headers)
  | .copyVarHeaders src => fr.copyVarHeaders src

/-- Calls one after another, up to the first that fails. -/
def runCalls : Frame → List Call → Exec (Status × Frame)
  | fr, [] => some (.ok, fr)
  | fr, c :: calls => assertOk (c.run fr) fun fr => runCalls fr calls

/-- The number of bytes that `var_header__to_bytes` writes for a table. -/
def writtenSize (t : Table) : Nat :=
  (t.map fun e => e.1.length % 65536 + e.2.length % 65536 + 5).sum

/-- The frame holds the table `t`, and its size counts the reduced lengths. -/
structure Counts (fr : Frame) (t : Table) : Prop where
  headers : fr.varHeaders = stored t
  size : fr.varsSize = writtenSize t
  fits : writtenSize t ≤ 65535
  nodup : t.keys.Nodup

/-- A new header adds its reduced lengths to the count. -/
theorem writtenSize_put_new {t : Table} {k : CStr} (hnew : k ∉ t.keys) (v : CStr) :
    writtenSize (put t k v) = writtenSize t + k.length % 65536 + v.length % 65536 + 5 := by
  rw [put_of_not_mem v hnew]
  simp [writtenSize, HashTable.add, Nat.add_assoc]

/-- An overwritten value changes the count by the difference of the reduced lengths. -/
theorem writtenSize_put_old {t : Table} (hnodup : t.keys.Nodup) {k old : CStr}
    (hold : t.find k = some old) (v : CStr) :
    old.length % 65536 ≤ writtenSize t ∧
      writtenSize (put t k v) = writtenSize t - old.length % 65536 + v.length % 65536 := by
  have hmem := HashTable.mem_of_find hold
  have hsum := HashTable.sum_update (fun e : CStr × CStr => e.1.length % 65536 +
    e.2.length % 65536 + 5) (v := v) hnodup hold
  have hle : k.length % 65536 + old.length % 65536 + 5 ≤ writtenSize t :=
    List.single_le_sum (by simp) _ (List.mem_map_of_mem hmem)
  rw [put_of_mem v (HashTable.mem_keys_of_mem hmem)]
  unfold writtenSize at hle ⊢
  dsimp only at hsum
  exact ⟨by omega, by omega⟩

/-- Setting a header succeeds exactly when there is room for the count. -/
theorem set_var_header_counts {fr : Frame} {t : Table} (h : Counts fr t) {k v : CStr}
    (hk : k.length ≠ 0) (hv : v.length ≠ 0) :
    ∃ fr', fr.setVarHeader k (some v) =
        some (if writtenSize (put t k v) ≤ 65535 then .ok else .maxVarHeaders, fr') ∧
      (writtenSize (put t k v) ≤ 65535 → fr' = { fr with
        varsSize := writtenSize (put t k v), varHeaders := stored (put t k v) }) := by
  have hfits := h.fits
  unfold setVarHeader
  simp only [hk, hv, if_false, h.headers, find_stored, h.size, bind, Option.bind_some]
  cases hfind : t.find k with
  | none =>
      have hnew : k ∉ t.keys := HashTable.find_eq_none_iff.mp hfind
      have hsize := writtenSize_put_new hnew v
      simp only [Option.map_none, stored_add, ← put_of_not_mem v hnew]
      by_cases hroom : writtenSize t + k.length % 65536 + v.length % 65536 + 5 < 65536
      · rw [if_pos hroom, if_pos (by omega), hsize]
        exact ⟨_, rfl, fun _ => rfl⟩
      · rw [if_neg hroom, if_neg (by omega)]
        exact ⟨_, rfl, fun hle => absurd hle (by omega)⟩
  | some old =>
      have hmem : k ∈ t.keys := HashTable.mem_keys_of_mem (HashTable.mem_of_find hfind)
      obtain ⟨hle, hsize⟩ := writtenSize_put_old h.nodup hfind v
      have hred : (writtenSize t + 65536 - old.length % 65536) % 65536 =
          writtenSize t - old.length % 65536 := by omega
      simp only [Option.map_some, Option.bind_some, hred, stored_update, ← put_of_mem v hmem]
      by_cases hroom : writtenSize t - old.length % 65536 + v.length % 65536 < 65536
      · rw [if_pos hroom, if_pos (by omega), hsize]
        exact ⟨_, rfl, fun _ => rfl⟩
      · rw [if_neg hroom, if_neg (by omega)]
        exact ⟨_, rfl, fun hle => absurd hle (by omega)⟩

/-- Setting a header keeps the count. -/
theorem Counts.set {fr fr' : Frame} {t : Table} (h : Counts fr t) {k v : CStr}
    (hv : v.length ≠ 0) (hrun : fr.setVarHeader k (some v) = some (.ok, fr')) :
    Counts fr' (put t k v) := by
  have hk : k.length ≠ 0 := by
    intro hk
    unfold setVarHeader at hrun
    rw [if_pos hk] at hrun
    cases hrun
  obtain ⟨fr₁, hset, hfr₁⟩ := set_var_header_counts h hk hv
  obtain ⟨hs, rfl⟩ := Prod.mk.inj (Option.some.inj (hset.symm.trans hrun))
  split_ifs at hs with hroom
  rw [hfr₁ hroom]
  exact ⟨rfl, rfl, hroom, nodup_put h.nodup k v⟩

/-- Setting headers one after another keeps the count. -/
theorem Counts.set_all {hs : Table} : ∀ {fr fr' : Frame} {t : Table}, Counts fr t →
    (∀ e ∈ hs, e.2.length ≠ 0) → fr.setVarHeaders (stored hs) = some (.ok, fr') →
    Counts fr' (putAll t hs) := by
  induction hs with
  | nil =>
      intro fr fr' t h _ hrun
      rw [← (Prod.mk.inj (Option.some.inj hrun)).2]
      exact h
  | cons e hs ih =>
      intro fr fr' t h hvalues hrun
      obtain ⟨fr₁, hset, hrest⟩ := assert_ok_some hrun
      exact ih (h.set (hvalues e List.mem_cons_self) hset)
        (fun e' he' => hvalues e' (List.mem_cons_of_mem _ he')) hrest

theorem set_var_headers_append (hs hs' : List (CStr × Option CStr)) (fr : Frame) :
    fr.setVarHeaders (hs ++ hs') =
      assertOk (fr.setVarHeaders hs) fun fr => fr.setVarHeaders hs' := by
  induction hs generalizing fr with
  | nil => rfl
  | cons e hs ih =>
      rw [List.cons_append, setVarHeaders, setVarHeaders]
      cases hset : fr.setVarHeader e.1 e.2 with
      | none => rfl
      | some r =>
          obtain ⟨s, fr₁⟩ := r
          by_cases hs : s = .ok
          · subst hs
            rw [assert_ok, assert_ok, ih]
          · rw [assert_fail _ _ hs, assert_fail _ _ hs, assert_fail _ _ hs]

theorem Call.run_eq (fr : Frame) (c : Call) : c.run fr = fr.setVarHeaders c.headers := by
  cases c with
  | setVarHeader key value =>
      show fr.setVarHeader key (some value) = assertOk _ fun fr => some (.ok, fr)
      cases hset : fr.setVarHeader key (some value) with
      | none => rfl
      | some r =>
          obtain ⟨s, fr₁⟩ := r
          by_cases hs : s = .ok
          · rw [hs, assert_ok]
          · rw [assert_fail _ _ hs]
  | setVarHeaders headers => rfl
  | copyVarHeaders src => rfl

/-- Calls set their headers one after another. -/
theorem run_calls_eq (fr : Frame) (calls : List Call) :
    runCalls fr calls = fr.setVarHeaders (calls.flatMap Call.headers) := by
  induction calls generalizing fr with
  | nil => rfl
  | cons c calls ih =>
      rw [List.flatMap_cons, set_var_headers_append, ← Call.run_eq, runCalls]
      exact congrArg _ (funext fun fr => ih fr)

/-- The value that a key was set to last. -/
def lastSet (calls : List Call) (key : CStr) : Option (Option CStr) :=
  HashTable.find (calls.flatMap Call.headers) key

/-- The size of the frame is that of its table, and `var_header__to_bytes` writes as many bytes. -/
def Accounted (fr : Frame) : Prop :=
  ∃ t bytes, fr.varHeaders = stored t ∧ fr.varsSize = encSize t ∧ fr.varsSize ≤ 65535 ∧
    toBytes fr.varHeaders = some bytes ∧ bytes.length = fr.varsSize

theorem to_bytes_length (t : Table) :
    ∃ bytes, toBytes (stored t) = some bytes ∧ bytes.length = writtenSize t := by
  induction t with
  | nil => exact ⟨[], rfl, rfl⟩
  | cons e t ih =>
      obtain ⟨bytes, hbytes, hlen⟩ := ih
      refine ⟨headerBytes e.1 e.2 ++ bytes, by simp [stored_cons, toBytes, hbytes], ?_⟩
      have hk : e.1.length % 65536 ≤ e.1.bytes.length := Nat.mod_le _ _
      have hv : e.2.length % 65536 ≤ e.2.bytes.length := Nat.mod_le _ _
      simp only [headerBytes, List.length_append, List.length_take, List.length_cons,
        List.length_nil, hlen, writtenSize, List.map_cons, List.sum_cons]
      omega

/-- The written size is the size of the table when no length is reduced. -/
theorem writtenSize_eq_iff (t : Table) :
    writtenSize t = encSize t ↔ ∀ e ∈ t, e.1.length < 65536 ∧ e.2.length < 65536 := by
  have hle : ∀ t : Table, writtenSize t ≤ encSize t := fun t =>
    List.sum_le_sum fun e _ => by
      have := Nat.mod_le e.1.length 65536
      have := Nat.mod_le e.2.length 65536
      omega
  induction t with
  | nil => simp [writtenSize]
  | cons e t ih =>
      have hcons : writtenSize (e :: t) =
          e.1.length % 65536 + e.2.length % 65536 + 5 + writtenSize t := rfl
      have hrest := hle t
      have hk := Nat.mod_le e.1.length 65536
      have hv := Nat.mod_le e.2.length 65536
      rw [hcons, encSize_cons, List.forall_mem_cons]
      constructor
      · intro heq
        exact ⟨⟨by omega, by omega⟩, ih.mp (by omega)⟩
      · rintro ⟨⟨hk', hv'⟩, ht⟩
        have := ih.mpr ht
        omega

/-- The calls leave the table of the last values, counted with reduced lengths. -/
theorem calls_count {calls : List Call}
    (hvalues : ∀ c ∈ calls, ∀ e ∈ c.headers, ∃ v, e.2 = some v ∧ v.length ≠ 0) {fr : Frame}
    (hrun : runCalls new calls = some (.ok, fr)) :
    ∃ t, Counts fr t ∧ ∀ k v, t.find k = some v ↔ lastSet calls k = some (some v) := by
  have hall : ∀ e ∈ calls.flatMap Call.headers, ∃ v, e.2 = some v ∧ v.length ≠ 0 := by
    intro e he
    obtain ⟨c, hc, he⟩ := List.mem_flatMap.mp he
    exact hvalues c hc e he
  have hstored := eq_stored (h := calls.flatMap Call.headers) fun e he => by
    obtain ⟨v, hv, -⟩ := hall e he
    rw [hv]
    rfl
  have hnew : Counts new [] := ⟨rfl, rfl, by decide, by simp⟩
  rw [run_calls_eq, hstored] at hrun
  refine ⟨_, hnew.set_all (fun e he => ?_) hrun, fun k v => ?_⟩
  · obtain ⟨e', he', rfl⟩ := List.mem_map.mp he
    obtain ⟨v, hv, hne⟩ := hall e' he'
    simpa [hv] using hne
  · have hlast : lastSet calls k = (HashTable.find ((calls.flatMap Call.headers).map fun e =>
        (e.1, e.2.getD default)) k).map some := by
      unfold lastSet
      conv_lhs => rw [hstored]
      exact find_stored _ k
    rw [find_putAll (by simp), hlast]
    simp

/-- After calls that all succeed, `vars_size` is the size of the table exactly when every key and
the last value of every key are shorter than 65536 bytes. -/
theorem calls_account_iff {calls : List Call}
    (hvalues : ∀ c ∈ calls, ∀ e ∈ c.headers, e.1.length ≠ 0 ∧ ∃ v, e.2 = some v ∧ v.length ≠ 0)
    {fr : Frame} (hrun : runCalls new calls = some (.ok, fr)) :
    Accounted fr ↔
      ∀ k v, lastSet calls k = some (some v) → k.length < 65536 ∧ v.length < 65536 := by
  obtain ⟨t, hcounts, hlast⟩ := calls_count (fun c hc e he => (hvalues c hc e he).2) hrun
  obtain ⟨bytes, hbytes, hlen⟩ := to_bytes_length t
  have hshort : (∀ k v, lastSet calls k = some (some v) → k.length < 65536 ∧ v.length < 65536) ↔
      ∀ e ∈ t, e.1.length < 65536 ∧ e.2.length < 65536 := by
    constructor
    · intro h e he
      exact h e.1 e.2 ((hlast _ _).mp ((HashTable.find_eq_some_iff hcounts.nodup).mpr he))
    · intro h k v hkv
      exact h (k, v) (HashTable.mem_of_find ((hlast k v).mpr hkv))
  rw [hshort, ← writtenSize_eq_iff]
  constructor
  · rintro ⟨t', -, hheaders, hsize, -⟩
    obtain rfl : t = t' := stored_inj (hcounts.headers.symm.trans hheaders)
    rw [← hcounts.size, hsize]
  · intro heq
    refine ⟨t, bytes, hcounts.headers, hcounts.size.trans heq, ?_, ?_, ?_⟩
    · rw [hcounts.size]
      exact hcounts.fits
    · rw [hcounts.headers, hbytes]
    · rw [hlen, hcounts.size]

/-- A header that is set and then replaced by one call each is accounted for. -/
theorem calls_account_replaced : ∃ fr, runCalls new [.setVarHeaders sample,
    .setVarHeader (.ofString "k") (.ofString "word")] = some (.ok, fr) ∧ Accounted fr := by
  have hrun : runCalls new [.setVarHeaders sample,
      .setVarHeader (.ofString "k") (.ofString "word")] =
      some (.ok, new.withHeaders [(.ofString "k", .ofString "word")]) := by decide
  refine ⟨_, hrun, (calls_account_iff ?_ hrun).mpr ?_⟩
  · intro c hc e he
    fin_cases hc <;> fin_cases he
    · exact ⟨by decide, .ofString "v", rfl, by decide⟩
    · exact ⟨by decide, .ofString "word", rfl, by decide⟩
  · intro k v hkv
    have hmem := HashTable.mem_of_find hkv
    simp only [List.flatMap_cons, List.flatMap_nil, Call.headers, stored, sample, List.map_cons,
      List.map_nil, List.append_nil, List.cons_append, List.nil_append, List.mem_cons,
      List.not_mem_nil, or_false, Prod.mk.injEq, Option.some.injEq] at hmem
    rcases hmem with ⟨rfl, rfl⟩ | ⟨rfl, rfl⟩ <;> decide

/-- A value of 65536 bytes is accepted and counted as an empty one. -/
theorem calls_account_wraps : ∃ fr, runCalls new [.setVarHeader (.ofString "k") (letters 65536)] =
    some (.ok, fr) ∧ ¬ Accounted fr := by
  have hset : new.setVarHeader (.ofString "k") (some (letters 65536)) = some (.ok, { new with
      varsSize := 6, varHeaders := stored [(.ofString "k", letters 65536)] }) := by
    have hk : (CStr.ofString "k").length = 1 := by decide
    unfold setVarHeader
    simp only [new, hk, length_letters, HashTable.find_nil, bind, Option.bind_some]
    rfl
  refine ⟨_, by rw [runCalls, Call.run, hset, assert_ok, runCalls], ?_⟩
  rintro ⟨t, -, hheaders, hsize, -⟩
  have ht : [(CStr.ofString "k", letters 65536)] = t := stored_inj hheaders
  rw [← ht, encSize_cons] at hsize
  have hlen : (CStr.ofString "k", letters 65536).2.length = 65536 := length_letters 65536
  dsimp only at hsize hlen
  omega

end Bpsp.Frame
