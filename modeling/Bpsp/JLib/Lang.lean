import Bpsp.CLib.CString
import Bpsp.CLib.HashTable

/-!
# Numbers, strings and maps of Java

What a program uses of `int`, `String` and `HashMap`. A string is a sequence of 16-bit characters; a
method that throws gives `none`. A map is kept as a table with distinct keys, in which `put` replaces
the value of a key that is there and `putIfAbsent` leaves it. The order of its values is not
specified: an `Iteration` stands for any.
-/

namespace JLib

open CLib

/-- The `int` that arithmetic with this result gives. -/
@[irreducible] def toInt (n : Int) : Int := n.bmod (2 ^ 32)

theorem toInt_add (n k : Int) : toInt (toInt n + k) = toInt (n + k) := by
  unfold toInt
  exact Int.bmod_add_bmod

/-- The result differs by a multiple of `2 ^ 32`. -/
theorem toInt_range (n : Int) :
    (∃ k, toInt n = n - 4294967296 * k) ∧ -2147483648 ≤ toInt n ∧ toInt n < 2147483648 := by
  unfold toInt Int.bmod
  have hpow : ((2 ^ 32 : Nat) : Int) = 4294967296 := by norm_num
  rw [hpow]
  dsimp only
  split_ifs
  · exact ⟨⟨n / 4294967296, by omega⟩, by omega, by omega⟩
  · exact ⟨⟨n / 4294967296 + 1, by omega⟩, by omega, by omega⟩

theorem toInt_of_lt {n : Nat} (h : n < 2 ^ 31) : toInt n = n := by
  obtain ⟨⟨k, hk⟩, hlow, hhigh⟩ := toInt_range n
  omega

/-- `byte[]`. -/
structure ByteArray where
  bytes : List Byte
  length_lt : bytes.length < 2 ^ 31

/-- `new byte[0]`. -/
def ByteArray.empty : ByteArray := ⟨[], by decide⟩

/-- `String`. -/
abbrev JString := List UInt16

/-- A literal, or bytes decoded one by one, as a decoder does with ASCII. -/
def ascii (bytes : List Byte) : JString := bytes.map UInt8.toUInt16

/-- `substring(begin, end)`. -/
def substring (s : JString) (first last : Nat) : Option JString :=
  if first ≤ last ∧ last ≤ s.length then some ((s.drop first).take (last - first)) else none

/-- A continuation byte of UTF-8, for the low six bits of a number. -/
def continuation (n : Nat) : Byte := (0x80 + n % 64).toUInt8

/-- `getBytes` with UTF-8: a character outside of the basic plane is a pair of surrogates, and one
without the other is replaced by a question mark. -/
def utf8 : JString → List Byte
  | [] => []
  | c :: rest =>
      let n := c.toNat
      if n < 0x80 then n.toUInt8 :: utf8 rest
      else if n < 0x800 then (0xC0 + n / 64).toUInt8 :: continuation n :: utf8 rest
      else if 0xD800 ≤ n ∧ n < 0xDC00 then
        match rest with
        | [] => [63]
        | d :: rest =>
            if 0xDC00 ≤ d.toNat ∧ d.toNat < 0xE000 then
              let code := 0x10000 + (n - 0xD800) * 1024 + (d.toNat - 0xDC00)
              (0xF0 + code / 262144).toUInt8 :: continuation (code / 4096) ::
                continuation (code / 64) :: continuation code :: utf8 rest
            else 63 :: utf8 (d :: rest)
      else if 0xDC00 ≤ n ∧ n < 0xE000 then 63 :: utf8 rest
      else (0xE0 + n / 4096).toUInt8 :: continuation (n / 64) :: continuation n :: utf8 rest

/-- The text is ASCII. -/
def Ascii (bytes : List Byte) : Prop := ∀ b ∈ bytes, b < 0x80

instance (bytes : List Byte) : Decidable (Ascii bytes) :=
  inferInstanceAs (Decidable (∀ b ∈ bytes, b < 0x80))

theorem Ascii.append {bytes more : List Byte} (h : Ascii bytes) (h' : Ascii more) :
    Ascii (bytes ++ more) := by
  intro b hb
  rcases List.mem_append.mp hb with hb | hb
  · exact h b hb
  · exact h' b hb

theorem utf8_cons {c : UInt16} (hc : c.toNat < 0x80) (s : JString) :
    utf8 (c :: s) = c.toNat.toUInt8 :: utf8 s := by
  conv_lhs => unfold utf8
  dsimp only
  rw [if_pos hc]

/-- A character of ASCII is not the second half of a pair, so a text can be cut before it. -/
theorem utf8_append (s : JString) {c : UInt16} (hc : c.toNat < 0x80) (rest : JString) :
    utf8 (s ++ c :: rest) = utf8 s ++ utf8 (c :: rest) := by
  have hlow : ¬ (0xDC00 ≤ c.toNat ∧ c.toNat < 0xE000) := by omega
  fun_induction utf8 s with
  | case1 => rfl
  | case2 d s n h1 ih =>
      conv_lhs => rw [List.cons_append]; unfold utf8
      simp only [show d.toNat < 0x80 from h1, if_true, ih]
      rfl
  | case3 d s n h1 h2 ih =>
      conv_lhs => rw [List.cons_append]; unfold utf8
      simp only [show ¬ d.toNat < 0x80 from h1, show d.toNat < 0x800 from h2, if_false, if_true, ih]
      rfl
  | case4 d n h1 h2 h3 =>
      conv_lhs => rw [List.cons_append]; unfold utf8
      simp only [show ¬ d.toNat < 0x80 from h1, show ¬ d.toNat < 0x800 from h2,
        show 0xD800 ≤ d.toNat ∧ d.toNat < 0xDC00 from h3, if_false, if_pos, and_self, hlow,
        List.nil_append]
      rfl
  | case5 d n h1 h2 h3 e s h4 code ih =>
      conv_lhs => rw [List.cons_append, List.cons_append]; unfold utf8
      simp only [show ¬ d.toNat < 0x80 from h1, show ¬ d.toNat < 0x800 from h2,
        show 0xD800 ≤ d.toNat ∧ d.toNat < 0xDC00 from h3, if_false, if_pos, and_self, h4, ih]
      rfl
  | case6 d n h1 h2 h3 e s h4 ih =>
      conv_lhs => rw [List.cons_append, List.cons_append]; unfold utf8
      simp only [show ¬ d.toNat < 0x80 from h1, show ¬ d.toNat < 0x800 from h2,
        show 0xD800 ≤ d.toNat ∧ d.toNat < 0xDC00 from h3, if_false, if_pos, and_self, h4]
      exact congrArg (63 :: ·) ih
  | case7 d s n h1 h2 h3 h4 ih =>
      conv_lhs => rw [List.cons_append]; unfold utf8
      simp only [show ¬ d.toNat < 0x80 from h1, show ¬ d.toNat < 0x800 from h2,
        show ¬ (0xD800 ≤ d.toNat ∧ d.toNat < 0xDC00) from h3,
        show 0xDC00 ≤ d.toNat ∧ d.toNat < 0xE000 from h4, if_false, if_pos, and_self, ih]
      rfl
  | case8 d s n h1 h2 h3 h4 ih =>
      conv_lhs => rw [List.cons_append]; unfold utf8
      simp only [show ¬ d.toNat < 0x80 from h1, show ¬ d.toNat < 0x800 from h2,
        show ¬ (0xD800 ≤ d.toNat ∧ d.toNat < 0xDC00) from h3,
        show ¬ (0xDC00 ≤ d.toNat ∧ d.toNat < 0xE000) from h4, if_false, ih]
      rfl

/-- Every character takes at least one byte. -/
theorem le_length_utf8 (s : JString) : s.length ≤ (utf8 s).length := by
  fun_induction utf8 s <;> simp only [List.length_cons, List.length_nil] at * <;> omega

/-- ASCII is encoded as it is. -/
theorem utf8_ascii {bytes : List Byte} (h : Ascii bytes) : utf8 (ascii bytes) = bytes := by
  induction bytes with
  | nil => rfl
  | cons b bytes ih =>
      have hb : b.toUInt16.toNat < 0x80 := by
        rw [UInt8.toNat_toUInt16]
        exact UInt8.lt_iff_toNat_lt.mp (h b List.mem_cons_self)
      have hrest := ih fun b' hb' => h b' (List.mem_cons_of_mem _ hb')
      show utf8 (b.toUInt16 :: ascii bytes) = _
      rw [utf8_cons hb, hrest, UInt8.toNat_toUInt16]
      exact congrArg (· :: bytes) UInt8.ofNat_toNat

@[simp] theorem length_ascii (bytes : List Byte) : (ascii bytes).length = bytes.length :=
  List.length_map _

theorem toUInt16_injective : Function.Injective UInt8.toUInt16 := by
  intro b b' h
  have hnat := congrArg UInt16.toNat h
  simp only [UInt8.toNat_toUInt16] at hnat
  exact UInt8.toNat_inj.mp hnat

theorem ascii_injective : Function.Injective ascii := List.map_injective_iff.mpr toUInt16_injective

theorem get_ascii_eq_iff (bytes : List Byte) (i : Nat) (b : Byte) :
    (ascii bytes)[i]? = some b.toUInt16 ↔ bytes[i]? = some b := by
  unfold ascii
  rw [List.getElem?_map, Option.map_eq_some_iff]
  constructor
  · rintro ⟨b', hb', heq⟩
    rw [hb', toUInt16_injective heq]
  · exact fun h => ⟨b, h, rfl⟩

namespace HashMap

variable {κ α : Type} [DecidableEq κ] {m : HashTable κ α}

/-- `put`. -/
def put (m : HashTable κ α) (k : κ) (v : α) : HashTable κ α :=
  if k ∈ m.keys then m.update k v else m.add k v

/-- `putIfAbsent`. -/
def putIfAbsent (m : HashTable κ α) (k : κ) (v : α) : HashTable κ α :=
  if k ∈ m.keys then m else m.add k v

theorem nodup_put (h : m.keys.Nodup) (k : κ) (v : α) : (put m k v).keys.Nodup := by
  unfold put
  split_ifs with hk
  · rw [HashTable.keys_update]
    exact h
  · exact HashTable.nodup_add h (HashTable.find_eq_none_iff.mpr hk)

/-- Putting changes the value of its key and of no other. -/
theorem find_put (h : m.keys.Nodup) (k k' : κ) (v : α) :
    (put m k v).find k' = if k = k' then some v else m.find k' := by
  unfold put
  by_cases hk : k ∈ m.keys
  · rw [if_pos hk, HashTable.find_update h hk]
  · rw [if_neg hk, HashTable.find_add]

/-- A map with values under keys that are computed from them. -/
def indexed {β : Type} (key : β → κ) (values : List β) : HashTable κ β :=
  values.map fun v => (key v, v)

section Indexed

variable {β : Type} {key : β → κ} {values : List β}

omit [DecidableEq κ] in
theorem keys_indexed : (indexed key values).keys = values.map key := by
  rw [indexed, HashTable.keys, List.map_map]
  rfl

theorem find_indexed_eq_some_iff (h : (values.map key).Nodup) {k : κ} {v : β} :
    (indexed key values).find k = some v ↔ v ∈ values ∧ key v = k := by
  rw [HashTable.find_eq_some_iff (by rwa [keys_indexed]), indexed, List.mem_map]
  constructor
  · rintro ⟨w, hw, heq⟩
    obtain ⟨rfl, rfl⟩ := Prod.mk.inj heq
    exact ⟨hw, rfl⟩
  · rintro ⟨hv, rfl⟩
    exact ⟨v, hv, rfl⟩

theorem find_indexed_eq_none_iff {k : κ} :
    (indexed key values).find k = none ↔ ∀ v ∈ values, key v ≠ k := by
  rw [HashTable.find_eq_none_iff, keys_indexed, List.mem_map]
  exact ⟨fun h v hv heq => h ⟨v, hv, heq⟩, fun h ⟨v, hv, heq⟩ => h v hv heq⟩

theorem put_indexed {v : β} (h : ∀ w ∈ values, key w ≠ key v) :
    put (indexed key values) (key v) v = indexed key (values ++ [v]) := by
  unfold put
  rw [if_neg (HashTable.find_eq_none_iff.mp (find_indexed_eq_none_iff.mpr h)), indexed, indexed,
    List.map_append]
  rfl

theorem del_indexed (h : (values.map key).Nodup) (k : κ) :
    (indexed key values).del k = indexed key (values.filter fun v => key v ≠ k) := by
  rw [HashTable.del_eq_filter (by rwa [keys_indexed]), indexed, indexed, List.filter_map]
  rfl

end Indexed

/-- An order in which the values of maps are passed. -/
structure Iteration (κ α : Type) where
  values : HashTable κ α → List α
  perm : ∀ m, (values m).Perm (m.map Prod.snd)

end HashMap

end JLib
