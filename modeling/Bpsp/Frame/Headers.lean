import Bpsp.Frame.Basic

/-!
# Header tables

The abstract header table of a frame is a finite map in insertion order, and its encoded size is a
number. `Carries fr t` says that a frame holds the table `t` and that its `vars_size` is the size of
`t`. Setting a header is `put` as long as the result fits (`set_var_header_fits`); otherwise the two
branches of the code fail in different ways (`set_var_header_full_new`,
`set_var_header_full_update`).
-/

namespace Bpsp.Frame

open CLib

/-- A header table with all values set. -/
abbrev Table := HashTable CStr CStr

/-- The number of bytes of the encoded table. -/
def encSize (t : Table) : Nat := (t.map fun e => e.1.length + e.2.length + 5).sum

/-- Sets a header: overwrites its value in place or appends it. -/
def put (t : Table) (k v : CStr) : Table := if k ∈ t.keys then t.update k v else t.add k v

/-- The table as a frame stores it. -/
def stored (t : Table) : Headers := t.map fun e => (e.1, some e.2)

/-- Distinct non-empty keys and non-empty values. -/
structure WellFormed (t : Table) : Prop where
  nodup : t.keys.Nodup
  keys_ne : ∀ {k}, k ∈ t.keys → k.length ≠ 0
  values_ne : ∀ {k v}, (k, v) ∈ t → v.length ≠ 0

/-- A frame with another header table and the size that belongs to it. -/
def withHeaders (fr : Frame) (t : Table) : Frame :=
  { fr with varsSize := encSize t, varHeaders := stored t }

/-- The frame holds the table `t`, correctly accounted. -/
structure Carries (fr : Frame) (t : Table) : Prop where
  headers : fr.varHeaders = stored t
  size : fr.varsSize = encSize t
  fits : encSize t ≤ 65535
  wf : WellFormed t

/-- The frame holds the table `t`, correctly accounted; values may be empty. -/
structure Accounts (fr : Frame) (t : Table) : Prop where
  headers : fr.varHeaders = stored t
  size : fr.varsSize = encSize t
  fits : encSize t ≤ 65535
  nodup : t.keys.Nodup

@[simp] theorem encSize_nil : encSize [] = 0 := rfl

@[simp] theorem encSize_cons (e : CStr × CStr) (t : Table) :
    encSize (e :: t) = e.1.length + e.2.length + 5 + encSize t := by simp [encSize]

@[simp] theorem encSize_append (t u : Table) : encSize (t ++ u) = encSize t + encSize u := by
  simp [encSize]

theorem encSize_add (t : Table) (k v : CStr) :
    encSize (t.add k v) = encSize t + (k.length + v.length + 5) := by
  simp [HashTable.add]

theorem le_encSize {t : Table} {k v : CStr} (h : (k, v) ∈ t) :
    k.length + v.length + 5 ≤ encSize t :=
  List.single_le_sum (by simp) _ (List.mem_map_of_mem h)

/-- Overwriting a value changes the size by the difference of the two values. -/
theorem encSize_update {t : Table} (hnodup : t.keys.Nodup) {k v old : CStr}
    (hfind : t.find k = some old) :
    encSize (t.update k v) + old.length = encSize t + v.length := by
  have := HashTable.sum_update (fun e => e.1.length + e.2.length + 5) (v := v) hnodup hfind
  dsimp only at this
  unfold encSize
  omega

@[simp] theorem keys_stored (t : Table) : (stored t).keys = t.keys := by
  simp [stored, HashTable.keys]

theorem find_stored (t : Table) (k : CStr) : (stored t).find k = (t.find k).map some := by
  simp only [stored, HashTable.find, ← List.map_reverse, List.find?_map, Option.map_map]
  rfl

theorem stored_add (t : Table) (k v : CStr) :
    (stored t).add k (some v) = stored (t.add k v) := by simp [stored, HashTable.add]

theorem stored_update (t : Table) (k v : CStr) :
    (stored t).update k (some v) = stored (t.update k v) := by
  simp only [stored, HashTable.update, List.map_map]
  refine List.map_congr_left fun e _ => ?_
  by_cases h : e.1 = k <;> simp [h]

theorem stored_inj {t u : Table} (h : stored t = stored u) : t = u := by
  refine List.map_injective_iff.mpr ?_ h
  rintro ⟨k, v⟩ ⟨k', v'⟩ heq
  simpa using heq

/-- Headers that all have a value are a stored table. -/
theorem eq_stored {h : Headers} (hvalues : ∀ e ∈ h, e.2.isSome) :
    h = stored (h.map fun e => (e.1, e.2.getD default)) := by
  simp only [stored, List.map_map]
  conv_lhs => rw [← List.map_id h]
  refine List.map_congr_left fun e he => ?_
  obtain ⟨v, hv⟩ := Option.isSome_iff_exists.mp (hvalues e he)
  exact Prod.ext rfl (by simp [hv])

theorem put_of_mem {t : Table} {k : CStr} (v : CStr) (h : k ∈ t.keys) : put t k v = t.update k v :=
  if_pos h

theorem put_of_not_mem {t : Table} {k : CStr} (v : CStr) (h : k ∉ t.keys) :
    put t k v = t.add k v := if_neg h

/-- Setting a header changes the value of its key and of no other. -/
theorem find_put {t : Table} (hnodup : t.keys.Nodup) (k k' v : CStr) :
    (put t k v).find k' = if k = k' then some v else t.find k' := by
  by_cases h : k ∈ t.keys
  · rw [put_of_mem v h, HashTable.find_update hnodup h]
  · rw [put_of_not_mem v h, HashTable.find_add]

theorem mem_keys_put {t : Table} {k k' v : CStr} :
    k' ∈ (put t k v).keys ↔ k' = k ∨ k' ∈ t.keys := by
  by_cases h : k ∈ t.keys
  · rw [put_of_mem v h, HashTable.keys_update]
    refine ⟨Or.inr, ?_⟩
    rintro (rfl | hk')
    · exact h
    · exact hk'
  · rw [put_of_not_mem v h, HashTable.keys_add]
    simp [or_comm]

theorem keys_put_congr {t u : Table} (h : t.keys = u.keys) (k v w : CStr) :
    (put t k v).keys = (put u k w).keys := by
  by_cases hk : k ∈ t.keys
  · rw [put_of_mem v hk, put_of_mem w (h ▸ hk), HashTable.keys_update, HashTable.keys_update, h]
  · rw [put_of_not_mem v hk, put_of_not_mem w (h ▸ hk), HashTable.keys_add, HashTable.keys_add, h]

theorem keys_put_of_mem {t : Table} {k : CStr} (v : CStr) (h : k ∈ t.keys) :
    (put t k v).keys = t.keys := by
  rw [put_of_mem v h, HashTable.keys_update]

theorem nodup_put {t : Table} (hnodup : t.keys.Nodup) (k v : CStr) : (put t k v).keys.Nodup := by
  by_cases h : k ∈ t.keys
  · rwa [put_of_mem v h, HashTable.keys_update]
  · rw [put_of_not_mem v h]
    exact HashTable.nodup_add hnodup (HashTable.find_eq_none_iff.mpr h)

/-- Setting a header twice leaves the second value. -/
theorem put_put (t : Table) (k v w : CStr) : put (put t k v) k w = put t k w := by
  have hmem : k ∈ (put t k v).keys := mem_keys_put.mpr (Or.inl rfl)
  rw [put_of_mem w hmem]
  by_cases h : k ∈ t.keys
  · rw [put_of_mem v h, put_of_mem w h]
    simp only [HashTable.update, List.map_map]
    refine List.map_congr_left fun e _ => ?_
    by_cases hk : e.1 = k <;> simp [hk]
  · rw [put_of_not_mem v h, put_of_not_mem w h]
    have hrest : HashTable.update t k w = t := HashTable.update_of_not_mem h w
    simp only [HashTable.update] at hrest
    simp [HashTable.update, HashTable.add, hrest]

/-- Sets headers one after another. -/
def putAll (t : Table) (hs : Table) : Table := hs.foldl (fun t e => put t e.1 e.2) t

@[simp] theorem putAll_nil (t : Table) : putAll t [] = t := rfl

@[simp] theorem putAll_cons (t : Table) (e : CStr × CStr) (hs : Table) :
    putAll t (e :: hs) = putAll (put t e.1 e.2) hs := rfl

theorem mem_keys_putAll {t hs : Table} {k : CStr} :
    k ∈ (putAll t hs).keys ↔ k ∈ hs.keys ∨ k ∈ t.keys := by
  induction hs generalizing t with
  | nil => simp
  | cons e hs ih =>
      rw [putAll_cons, ih, mem_keys_put]
      simp only [HashTable.keys, List.map_cons, List.mem_cons]
      constructor
      · rintro (h | h | h)
        · exact Or.inl (Or.inr h)
        · exact Or.inl (Or.inl h)
        · exact Or.inr h
      · rintro ((h | h) | h)
        · exact Or.inr (Or.inl h)
        · exact Or.inl h
        · exact Or.inr (Or.inr h)

theorem nodup_putAll {t : Table} (hnodup : t.keys.Nodup) (hs : Table) :
    (putAll t hs).keys.Nodup := by
  induction hs generalizing t with
  | nil => exact hnodup
  | cons e hs ih => exact ih (nodup_put hnodup _ _)

/-- A header has the last value it was set to, if it was set at all. -/
theorem find_putAll {t : Table} (hnodup : t.keys.Nodup) (hs : Table) (k : CStr) :
    (putAll t hs).find k = (hs.find k).or (t.find k) := by
  induction hs generalizing t with
  | nil => rfl
  | cons e hs ih =>
      have hcons : HashTable.find (e :: hs) k =
          (HashTable.find hs k).or (if e.1 = k then some e.2 else none) := by
        simp only [HashTable.find, List.reverse_cons, List.find?_append, Option.map_or]
        congr 1
        by_cases h : e.1 = k <;> simp [h]
      rw [putAll_cons, ih (nodup_put hnodup _ _), find_put hnodup, hcons, Option.or_assoc]
      by_cases h : e.1 = k <;> simp [h]

theorem keys_putAll_congr {t u hs hs' : Table} (h : t.keys = u.keys) (hkeys : hs.keys = hs'.keys) :
    (putAll t hs).keys = (putAll u hs').keys := by
  induction hs generalizing t u hs' with
  | nil =>
      obtain rfl : hs' = [] := by simpa [HashTable.keys] using hkeys.symm
      exact h
  | cons e hs ih =>
      cases hs' with
      | nil => cases hkeys
      | cons e' hs' =>
          obtain ⟨hk, hrest⟩ := List.cons.inj hkeys
          rw [putAll_cons, putAll_cons, ← show e.1 = e'.1 from hk]
          exact ih (keys_put_congr h _ _ _) hrest

theorem keys_putAll_of_mem {t hs : Table} (h : ∀ k ∈ hs.keys, k ∈ t.keys) :
    (putAll t hs).keys = t.keys := by
  induction hs generalizing t with
  | nil => rfl
  | cons e hs ih =>
      have hhead : (put t e.1 e.2).keys = t.keys :=
        keys_put_of_mem _ (h _ (by simp [HashTable.keys]))
      rw [putAll_cons, ih fun k hk => ?_, hhead]
      rw [hhead]
      exact h k (by simpa [HashTable.keys] using Or.inr hk)

/-- Setting the same headers again leaves no trace of the first time. -/
theorem putAll_putAll {t hs hs' : Table} (hnodup : t.keys.Nodup) (hkeys : hs.keys = hs'.keys) :
    putAll (putAll t hs) hs' = putAll t hs' := by
  have hin : ∀ k ∈ hs'.keys, k ∈ (putAll t hs).keys :=
    fun k hk => mem_keys_putAll.mpr (Or.inl (hkeys ▸ hk))
  refine HashTable.eq_of_keys ?_ (nodup_putAll hnodup hs') fun e he => ?_
  · rw [keys_putAll_of_mem hin]
    exact keys_putAll_congr rfl hkeys
  · have hfind := (HashTable.find_eq_some_iff (nodup_putAll (nodup_putAll hnodup hs) hs')).mpr he
    rw [find_putAll (nodup_putAll hnodup hs), find_putAll hnodup] at hfind
    refine (HashTable.find_eq_some_iff (nodup_putAll hnodup hs')).mp ?_
    rw [find_putAll hnodup]
    cases hset : HashTable.find hs' e.1 with
    | some v => simpa [hset] using hfind
    | none =>
        have hnone : HashTable.find hs e.1 = none := by
          rw [HashTable.find_eq_none_iff, hkeys]
          exact HashTable.find_eq_none_iff.mp hset
        simpa [hset, hnone] using hfind

/-- The size of a table depends on a value only through its length. -/
theorem encSize_put_congr {t : Table} (hnodup : t.keys.Nodup) (k : CStr) {v w : CStr}
    (h : v.length = w.length) : encSize (put t k v) = encSize (put t k w) := by
  by_cases hk : k ∈ t.keys
  · obtain ⟨old, hold⟩ := Option.isSome_iff_exists.mp (HashTable.find_isSome_iff.mpr hk)
    have hv := encSize_update (v := v) hnodup hold
    have hw := encSize_update (v := w) hnodup hold
    rw [put_of_mem v hk, put_of_mem w hk]
    omega
  · rw [put_of_not_mem v hk, put_of_not_mem w hk, encSize_add, encSize_add, h]

namespace WellFormed

theorem nil : WellFormed [] := ⟨by simp, by simp, by simp⟩

theorem put {t : Table} (h : WellFormed t) {k v : CStr} (hk : k.length ≠ 0) (hv : v.length ≠ 0) :
    WellFormed (put t k v) where
  nodup := nodup_put h.nodup k v
  keys_ne {k'} hk' := by
    rcases mem_keys_put.mp hk' with rfl | hk'
    · exact hk
    · exact h.keys_ne hk'
  values_ne {k' v'} hmem := by
    have hfind := (HashTable.find_eq_some_iff (nodup_put h.nodup k v)).mpr hmem
    rw [find_put h.nodup] at hfind
    split_ifs at hfind
    · rwa [← Option.some.inj hfind]
    · exact h.values_ne (HashTable.mem_of_find hfind)

theorem putAll {t hs : Table} (h : WellFormed t)
    (hset : ∀ e ∈ hs, e.1.length ≠ 0 ∧ e.2.length ≠ 0) : WellFormed (putAll t hs) := by
  induction hs generalizing t with
  | nil => exact h
  | cons e hs ih =>
      obtain ⟨hk, hv⟩ := hset e List.mem_cons_self
      exact ih (h.put hk hv) fun e' he' => hset e' (List.mem_cons_of_mem _ he')

end WellFormed

@[simp] theorem withHeaders_varHeaders (fr : Frame) (t : Table) :
    (fr.withHeaders t).varHeaders = stored t := rfl

@[simp] theorem withHeaders_opcode (fr : Frame) (t : Table) :
    (fr.withHeaders t).opcode = fr.opcode := rfl

@[simp] theorem withHeaders_flag (fr : Frame) (t : Table) :
    (fr.withHeaders t).flag = fr.flag := rfl

@[simp] theorem withHeaders_payload (fr : Frame) (t : Table) :
    (fr.withHeaders t).payload = fr.payload := rfl

theorem carries_withHeaders (fr : Frame) {t : Table} (hfits : encSize t ≤ 65535)
    (hwf : WellFormed t) : Carries (fr.withHeaders t) t := ⟨rfl, rfl, hfits, hwf⟩

theorem accounts_withHeaders (fr : Frame) {t : Table} (hfits : encSize t ≤ 65535)
    (hnodup : t.keys.Nodup) : Accounts (fr.withHeaders t) t := ⟨rfl, rfl, hfits, hnodup⟩

theorem Carries.eq_withHeaders {fr : Frame} {t : Table} (h : Carries fr t) :
    fr = fr.withHeaders t := by
  cases fr
  simp only [withHeaders]
  rw [← h.headers, ← h.size]

theorem Carries.accounts {fr : Frame} {t : Table} (h : Carries fr t) : Accounts fr t :=
  ⟨h.headers, h.size, h.fits, h.wf.nodup⟩

/-- A header that fits is set, and the size is kept up to date. An empty value is stored only in the
place of another one. -/
theorem set_var_header_accounts {fr : Frame} {t : Table} (h : Accounts fr t) {k v : CStr}
    (hk : k.length ≠ 0) (hv : v.length ≠ 0 ∨ k ∈ t.keys) (hfits : encSize (put t k v) ≤ 65535) :
    fr.setVarHeader k (some v) = some (.ok, fr.withHeaders (put t k v)) := by
  by_cases hmem : k ∈ t.keys
  · obtain ⟨old, hold⟩ := Option.isSome_iff_exists.mp (HashTable.find_isSome_iff.mpr hmem)
    have hsize := encSize_update (v := v) h.nodup hold
    have hle := le_encSize (HashTable.mem_of_find hold)
    have hfit := h.fits
    rw [put_of_mem v hmem] at hfits ⊢
    have hlen : v.length % 65536 = v.length := Nat.mod_eq_of_lt (by omega)
    have hlenOld : old.length % 65536 = old.length := Nat.mod_eq_of_lt (by omega)
    have hred : (encSize t + 65536 - old.length) % 65536 = encSize t - old.length := by omega
    have hnew : encSize t - old.length + v.length = encSize (t.update k v) := by omega
    simp only [setVarHeader, hk, if_false, h.headers, find_stored, hold, h.size, hlen, hlenOld,
      hred, hnew, stored_update, bind, Option.bind_some, Option.map_some, withHeaders]
    rw [if_pos (by omega)]
  · have hnone : t.find k = none := HashTable.find_eq_none_iff.mpr hmem
    have hne : v.length ≠ 0 := hv.resolve_right hmem
    have hsize := encSize_add t k v
    rw [put_of_not_mem v hmem] at hfits ⊢
    have hlenK : k.length % 65536 = k.length := Nat.mod_eq_of_lt (by omega)
    have hlenV : v.length % 65536 = v.length := Nat.mod_eq_of_lt (by omega)
    simp only [setVarHeader, hk, hne, if_false, h.headers, find_stored, hnone, h.size, hlenK, hlenV,
      stored_add, bind, Option.bind_some, Option.map_none, withHeaders]
    rw [if_pos (by omega)]
    congr 3
    omega

theorem set_var_header_fits {fr : Frame} {t : Table} (h : Carries fr t) {k v : CStr}
    (hk : k.length ≠ 0) (hv : v.length ≠ 0) (hfits : encSize (put t k v) ≤ 65535) :
    fr.setVarHeader k (some v) = some (.ok, fr.withHeaders (put t k v)) :=
  set_var_header_accounts h.accounts hk (Or.inl hv) hfits

/-- A new header that does not fit is refused and nothing changes. -/
theorem set_var_header_full_new {fr : Frame} {t : Table} (h : Accounts fr t) {k v : CStr}
    (hk : k.length ≠ 0) (hlenK : k.length < 65536) (hlenV : v.length < 65536) (hnew : k ∉ t.keys)
    (hfull : 65535 < encSize (put t k v)) :
    fr.setVarHeader k (some v) = some (.maxVarHeaders, fr) := by
  have hnone : t.find k = none := HashTable.find_eq_none_iff.mpr hnew
  rw [put_of_not_mem v hnew, encSize_add] at hfull
  simp only [setVarHeader, hk, if_false, h.headers, find_stored, hnone, h.size,
    Nat.mod_eq_of_lt hlenK, Nat.mod_eq_of_lt hlenV, bind, Option.bind_some, Option.map_none]
  rw [if_neg (by omega)]

/-- An update that does not fit is refused after the value was replaced and the size reduced. -/
theorem set_var_header_full_update {fr : Frame} {t : Table} (h : Accounts fr t) {k v old : CStr}
    (hk : k.length ≠ 0) (hlenV : v.length < 65536) (hold : t.find k = some old)
    (hfull : 65535 < encSize (put t k v)) :
    fr.setVarHeader k (some v) = some (.maxVarHeaders,
      { fr with varsSize := encSize t - old.length, varHeaders := stored (t.update k v) }) := by
  have hmem : k ∈ t.keys := HashTable.mem_keys_of_mem (HashTable.mem_of_find hold)
  have hsize := encSize_update (v := v) h.nodup hold
  have hle := le_encSize (HashTable.mem_of_find hold)
  have hfit := h.fits
  rw [put_of_mem v hmem] at hfull
  have hlenOld : old.length % 65536 = old.length := Nat.mod_eq_of_lt (by omega)
  have hred : (encSize t + 65536 - old.length) % 65536 = encSize t - old.length := by omega
  simp only [setVarHeader, hk, if_false, h.headers, find_stored, hold, h.size,
    Nat.mod_eq_of_lt hlenV, hlenOld, hred, stored_update, bind, Option.bind_some, Option.map_some]
  rw [if_neg (by omega)]

@[simp] theorem assert_ok {α : Type} (a : α) (next : α → Exec (Status × α)) :
    assertOk (some (.ok, a)) next = next a := rfl

theorem assert_fail {α : Type} {s : Status} (a : α) (next : α → Exec (Status × α))
    (h : s ≠ .ok) : assertOk (some (s, a)) next = some (s, a) := by simp [assertOk, h]

@[simp] theorem withHeaders_withHeaders (fr : Frame) (t u : Table) :
    (fr.withHeaders t).withHeaders u = fr.withHeaders u := rfl

theorem stored_cons (e : CStr × CStr) (t : Table) :
    stored (e :: t) = (e.1, some e.2) :: stored t := rfl

/-- The next header of a well-formed table is new. -/
theorem put_next {t u : Table} {e : CStr × CStr} (h : WellFormed (t ++ e :: u)) :
    put t e.1 e.2 = t ++ [e] := by
  have hnew : e.1 ∉ t.keys := by
    intro hmem
    have hnodup := h.nodup
    rw [HashTable.keys_append, List.nodup_append] at hnodup
    exact hnodup.2.2 e.1 hmem e.1 (by simp [HashTable.keys]) rfl
  rw [put_of_not_mem _ hnew]
  rfl

/-- Copying headers appends them as long as the result fits. -/
theorem set_var_headers_fits {fr : Frame} {t u : Table} (h : Carries fr t)
    (hwf : WellFormed (t ++ u)) (hfits : encSize (t ++ u) ≤ 65535) :
    fr.setVarHeaders (stored u) = some (.ok, fr.withHeaders (t ++ u)) := by
  induction u generalizing fr t with
  | nil =>
      rw [List.append_nil, ← h.eq_withHeaders]
      rfl
  | cons e u ih =>
      have hput := put_next hwf
      rw [List.append_cons] at hwf hfits ⊢
      have hfitsE : encSize (put t e.1 e.2) ≤ 65535 := by
        rw [hput]
        rw [encSize_append] at hfits
        omega
      have hwfE : WellFormed (put t e.1 e.2) :=
        h.wf.put (hwf.keys_ne (by simp [HashTable.keys])) (hwf.values_ne (k := e.1) (by simp))
      have hset := set_var_header_fits h (hwf.keys_ne (by simp [HashTable.keys]))
        (hwf.values_ne (k := e.1) (v := e.2) (by simp)) hfitsE
      rw [stored_cons, setVarHeaders, hset, assert_ok]
      rw [hput] at hfitsE hwfE ⊢
      simpa using ih (carries_withHeaders fr hfitsE hwfE) hwf hfits

/-- Copying headers that do not fit ends with `BPSP_MAX_VAR_HEADERS`. -/
theorem set_var_headers_full {fr : Frame} {t u : Table} (h : Carries fr t)
    (hwf : WellFormed (t ++ u)) (hlen : ∀ e ∈ u, e.1.length < 65536 ∧ e.2.length < 65536)
    (hfull : 65535 < encSize (t ++ u)) :
    ∃ fr', fr.setVarHeaders (stored u) = some (.maxVarHeaders, fr') := by
  induction u generalizing fr t with
  | nil =>
      have := h.fits
      simp only [List.append_nil] at hfull
      omega
  | cons e u ih =>
      have hput := put_next hwf
      rw [List.append_cons] at hwf hfull
      have hk : e.1.length ≠ 0 := hwf.keys_ne (by simp [HashTable.keys])
      have hv : e.2.length ≠ 0 := hwf.values_ne (k := e.1) (by simp)
      obtain ⟨hlenK, hlenV⟩ := hlen e (by simp)
      rw [stored_cons, setVarHeaders]
      by_cases hfitsE : encSize (put t e.1 e.2) ≤ 65535
      · have hwfE : WellFormed (put t e.1 e.2) := h.wf.put hk hv
        rw [set_var_header_fits h hk hv hfitsE, assert_ok]
        rw [hput] at hfitsE hwfE ⊢
        exact ih (carries_withHeaders fr hfitsE hwfE) hwf (fun e' he' => hlen e' (by simp [he']))
          hfull
      · have hnew : e.1 ∉ t.keys := by
          intro hmem
          have hnodup := hwf.nodup
          rw [HashTable.keys_append, HashTable.keys_append, List.append_assoc,
            List.nodup_append] at hnodup
          exact hnodup.2.2 e.1 hmem e.1 (by simp [HashTable.keys]) rfl
        rw [set_var_header_full_new h.accounts hk hlenK hlenV hnew (by omega),
          assert_fail _ _ (by decide)]
        exact ⟨fr, rfl⟩

theorem carries_new : Carries new [] := ⟨rfl, rfl, by simp, WellFormed.nil⟩

theorem xTime_length : xTime.length = 6 := by decide

theorem Timestamp.length_ne (now : Timestamp) : now.text.length ≠ 0 := by
  rw [now.length_eq]
  decide

/-- A frame with an opcode and room for the time is completed. -/
theorem build_fits {fr : Frame} {t : Table} (h : Carries fr t) (now : Timestamp)
    (hop : fr.opcode ≠ 0) (hfits : encSize (put t xTime now.text) ≤ 65535) :
    fr.build now =
      some (.ok, { fr.withHeaders (put t xTime now.text) with isCompleted := true }) := by
  have hset := set_var_header_fits h (by rw [xTime_length]; decide) (Timestamp.length_ne now) hfits
  simp [build, hset, withHeaders, validateOpcode, hop]

end Bpsp.Frame
