import Mathlib

/-!
# C strings

A `char *` that the program treats as a string is modelled by the bytes before its terminating
NUL. `CStr` carries the absence of a NUL as a field, so an ill-formed string cannot be built.
`CStr.ofBytes` is the string found at a pointer to raw memory: everything up to the first NUL.
-/

namespace CLib

/-- One `unsigned char`. -/
abbrev Byte := UInt8

/-- The value of a computation in C: `none` stands for undefined behaviour, such as reading a
freed cell or an uninitialised pointer. -/
abbrev Exec (α : Type) := Option α

/-- The bytes of a string without its terminating NUL. -/
structure CStr where
  bytes : List Byte
  nul_free : (0 : Byte) ∉ bytes
  deriving DecidableEq

namespace CStr

@[ext] theorem ext {s t : CStr} (h : s.bytes = t.bytes) : s = t := by
  cases s
  cases t
  simpa using h

/-- The empty string. -/
instance : Inhabited CStr := ⟨⟨[], List.not_mem_nil⟩⟩

/-- `strlen`. -/
def length (s : CStr) : Nat := s.bytes.length

/-- The string at a pointer to these bytes: it ends before the first NUL. -/
def ofBytes (mem : List Byte) : CStr where
  bytes := mem.takeWhile (· ≠ 0)
  nul_free := fun h => by simpa using List.mem_takeWhile_imp h

/-- A string literal of the source, one byte for each of its ASCII characters. -/
def ofString (text : String) : CStr :=
  ofBytes (text.toList.map fun c => c.toNat.toUInt8)

/-- Concatenation, as the code builds it with `memmove`. -/
instance : Append CStr where
  append s t := ⟨s.bytes ++ t.bytes, by simp [s.nul_free, t.nul_free]⟩

/-- `s + n` for a pointer `s` to the string and `n ≤ strlen(s)`. -/
def drop (s : CStr) (n : Nat) : CStr where
  bytes := s.bytes.drop n
  nul_free := fun h => s.nul_free (List.mem_of_mem_drop h)

@[simp] theorem bytes_append (s t : CStr) : (s ++ t).bytes = s.bytes ++ t.bytes := rfl

@[simp] theorem length_append (s t : CStr) : (s ++ t).length = s.length + t.length :=
  List.length_append

@[simp] theorem bytes_drop (s : CStr) (n : Nat) : (s.drop n).bytes = s.bytes.drop n := rfl

/-- Skipping a prefix of known length leaves the rest of the string. -/
theorem append_drop {s : CStr} {n : Nat} (t : CStr) (h : s.length = n) :
    (s ++ t).drop n = t := by
  subst h
  exact ext (by simp [length])

theorem append_assoc (s t u : CStr) : s ++ t ++ u = s ++ (t ++ u) :=
  ext (List.append_assoc _ _ _)

/-- Strings with prefixes of one length agree only when both parts do. -/
theorem append_inj {s s' t t' : CStr} (h : s ++ t = s' ++ t') (hlen : s.length = s'.length) :
    s = s' ∧ t = t' := by
  have hbytes : s.bytes ++ t.bytes = s'.bytes ++ t'.bytes := congrArg bytes h
  obtain ⟨hs, ht⟩ := List.append_inj hbytes hlen
  exact ⟨ext hs, ext ht⟩

theorem length_eq_zero_iff {s : CStr} : s.length = 0 ↔ s.bytes = [] := List.length_eq_zero_iff

theorem length_pos_iff {s : CStr} : 0 < s.length ↔ s.bytes ≠ [] := List.length_pos_iff

/-- Memory with no NUL in it is read back whole. -/
theorem bytes_ofBytes {mem : List Byte} (h : (0 : Byte) ∉ mem) : (ofBytes mem).bytes = mem := by
  refine List.takeWhile_eq_self_iff.mpr fun b hb => ?_
  simpa using fun h0 : b = 0 => h (h0 ▸ hb)

/-- A string followed by its NUL is read back, whatever comes after. -/
theorem ofBytes_terminated (s : CStr) (rest : List Byte) :
    ofBytes (s.bytes ++ 0 :: rest) = s := by
  refine ext ?_
  have hs := bytes_ofBytes s.nul_free
  simp only [ofBytes] at hs ⊢
  rw [List.takeWhile_append_of_pos]
  · simp
  · intro b hb
    simpa using fun h0 : b = 0 => s.nul_free (h0 ▸ hb)

theorem length_ofBytes_le (mem : List Byte) : (ofBytes mem).length ≤ mem.length :=
  (List.takeWhile_prefix _).length_le

end CStr

end CLib
