import Bpsp.CLib.CString

/-!
# Integers on the wire

`lib/datatype.h`. A value is copied into the buffer as it lies in memory, after its bytes were
swapped on a little-endian host; `big` is the byte order of the host. The encoding does not depend
on it, and the two hosts of a connection may differ (`d16_e16`, `d32_e32`).
-/

namespace Bpsp.Datatype

open CLib

/-- Byte `i` of a value, counted from the least significant one. -/
def byteOf {w : Nat} (val : BitVec w) (i : Nat) : Byte := ⟨val.extractLsb' (8 * i) 8⟩

/-- The memory of a 16-bit value. -/
def store16 (big : Bool) (val : BitVec 16) : List Byte :=
  if big then [byteOf val 1, byteOf val 0] else [byteOf val 0, byteOf val 1]

/-- A value whose byte `i`, counted from the least significant one, is `b` and the others zero. -/
def placed (w : Nat) (b : Byte) (i : Nat) : BitVec w := b.toBitVec.setWidth w <<< (8 * i)

/-- The 16-bit value in two bytes of memory. -/
def load16 (big : Bool) (data : List Byte) : BitVec 16 :=
  match data with
  | a :: b :: _ => if big then placed 16 a 1 ||| placed 16 b 0 else placed 16 b 1 ||| placed 16 a 0
  | _ => 0

/-- The byte swap of `datatype__e16` and `datatype__d16`. -/
def swap16 (val : BitVec 16) : BitVec 16 :=
  ((val &&& 0xFF00#16) >>> 8) ||| ((val &&& 0x00FF#16) <<< 8)

/-- `datatype__e16`. -/
def e16 (big : Bool) (val : BitVec 16) : List Byte :=
  store16 big (if big then val else swap16 val)

/-- `datatype__d16`. -/
def d16 (big : Bool) (data : List Byte) : BitVec 16 :=
  if big then load16 big data else swap16 (load16 big data)

/-- The memory of a 32-bit value. -/
def store32 (big : Bool) (val : BitVec 32) : List Byte :=
  if big then [byteOf val 3, byteOf val 2, byteOf val 1, byteOf val 0]
  else [byteOf val 0, byteOf val 1, byteOf val 2, byteOf val 3]

/-- The 32-bit value in four bytes of memory. -/
def load32 (big : Bool) (data : List Byte) : BitVec 32 :=
  match data with
  | a :: b :: c :: d :: _ =>
      if big then placed 32 a 3 ||| placed 32 b 2 ||| placed 32 c 1 ||| placed 32 d 0
      else placed 32 d 3 ||| placed 32 c 2 ||| placed 32 b 1 ||| placed 32 a 0
  | _ => 0

/-- The byte swap of `datatype__e32` and `datatype__d32`. -/
def swap32 (val : BitVec 32) : BitVec 32 :=
  ((val &&& 0xFF000000#32) >>> 24) ||| ((val &&& 0x00FF0000#32) >>> 8) |||
    ((val &&& 0x0000FF00#32) <<< 8) ||| ((val &&& 0x000000FF#32) <<< 24)

/-- `datatype__e32`. -/
def e32 (big : Bool) (val : BitVec 32) : List Byte :=
  store32 big (if big then val else swap32 val)

/-- `datatype__d32`. -/
def d32 (big : Bool) (data : List Byte) : BitVec 32 :=
  if big then load32 big data else swap32 (load32 big data)

/-- Swapping reverses the bytes. -/
theorem byte_of_swap16 (val : BitVec 16) :
    byteOf (swap16 val) 0 = byteOf val 1 ∧ byteOf (swap16 val) 1 = byteOf val 0 := by
  constructor
  all_goals
    refine UInt8.toBitVec_inj.mp (BitVec.eq_of_getLsbD_eq fun i hi => ?_)
    interval_cases i <;> simp [byteOf, swap16]

theorem byte_of_swap32 (val : BitVec 32) :
    byteOf (swap32 val) 0 = byteOf val 3 ∧ byteOf (swap32 val) 1 = byteOf val 2 ∧
      byteOf (swap32 val) 2 = byteOf val 1 ∧ byteOf (swap32 val) 3 = byteOf val 0 := by
  refine ⟨?_, ?_, ?_, ?_⟩
  all_goals
    refine UInt8.toBitVec_inj.mp (BitVec.eq_of_getLsbD_eq fun i hi => ?_)
    interval_cases i <;> simp [byteOf, swap32]

/-- The wire has the most significant byte first, whatever the host. -/
theorem e16_eq (big : Bool) (val : BitVec 16) : e16 big val = [byteOf val 1, byteOf val 0] := by
  cases big with
  | true => rfl
  | false => simp [e16, store16, byte_of_swap16]

theorem e32_eq (big : Bool) (val : BitVec 32) :
    e32 big val = [byteOf val 3, byteOf val 2, byteOf val 1, byteOf val 0] := by
  cases big with
  | true => rfl
  | false => simp [e32, store32, byte_of_swap32]

@[simp] theorem length_e16 (big : Bool) (val : BitVec 16) : (e16 big val).length = 2 := by
  simp [e16_eq]

@[simp] theorem length_e32 (big : Bool) (val : BitVec 32) : (e32 big val).length = 4 := by
  simp [e32_eq]

/-- Decoding reads back what was encoded, on any pair of hosts. -/
theorem d16_e16 (big big' : Bool) (val : BitVec 16) (rest : List Byte) :
    d16 big (e16 big' val ++ rest) = val := by
  rw [e16_eq]
  refine BitVec.eq_of_getLsbD_eq fun i hi => ?_
  cases big with
  | true => interval_cases i <;> simp [d16, load16, byteOf, placed]
  | false => interval_cases i <;> simp [d16, load16, byteOf, placed, swap16]

theorem d32_e32 (big big' : Bool) (val : BitVec 32) (rest : List Byte) :
    d32 big (e32 big' val ++ rest) = val := by
  rw [e32_eq]
  refine BitVec.eq_of_getLsbD_eq fun i hi => ?_
  cases big with
  | true => interval_cases i <;> simp [d32, load32, byteOf, placed]
  | false => interval_cases i <;> simp [d32, load32, byteOf, placed, swap32]

/-- The number that two bytes are, the more significant one first. -/
def be16 : List Byte → Nat
  | a :: b :: _ => a.toNat * 256 + b.toNat
  | _ => 0

/-- The number that four bytes are, the most significant one first. -/
def be32 : List Byte → Nat
  | a :: b :: c :: d :: _ =>
      ((a.toNat * 256 + b.toNat) * 256 + c.toNat) * 256 + d.toNat
  | _ => 0

theorem be16_lt (data : List Byte) : be16 data < 65536 := by
  match data with
  | [] => decide
  | [_] => exact Nat.zero_lt_succ _
  | a :: b :: _ =>
      have ha := a.toNat_lt
      have hb := b.toNat_lt
      show a.toNat * 256 + b.toNat < 65536
      omega

theorem toNat_byteOf {w : Nat} (val : BitVec w) (i : Nat) :
    (byteOf val i).toNat = val.toNat / 2 ^ (8 * i) % 256 := by
  show (val.extractLsb' (8 * i) 8).toNat = _
  rw [BitVec.extractLsb'_toNat, Nat.shiftRight_eq_div_pow]

/-- The bytes of an encoded number are that number. -/
theorem be16_e16 (big : Bool) (val : BitVec 16) (rest : List Byte) :
    be16 (e16 big val ++ rest) = val.toNat := by
  have hval := val.isLt
  rw [e16_eq]
  show (byteOf val 1).toNat * 256 + (byteOf val 0).toNat = _
  rw [toNat_byteOf, toNat_byteOf]
  omega

theorem be32_e32 (big : Bool) (val : BitVec 32) (rest : List Byte) :
    be32 (e32 big val ++ rest) = val.toNat := by
  have hval := val.isLt
  rw [e32_eq]
  show (((byteOf val 3).toNat * 256 + (byteOf val 2).toNat) * 256 + (byteOf val 1).toNat) * 256 +
    (byteOf val 0).toNat = _
  rw [toNat_byteOf, toNat_byteOf, toNat_byteOf, toNat_byteOf]
  omega

/-- The decoded value is the number that the bytes are, on any host. -/
theorem d16_eq (big : Bool) (a b : Byte) (rest : List Byte) :
    (d16 big (a :: b :: rest)).toNat = be16 (a :: b :: rest) := by
  have ha := a.toNat_lt
  have hb := b.toNat_lt
  have hn : be16 (a :: b :: rest) = a.toNat * 256 + b.toNat := rfl
  generalize be16 (a :: b :: rest) = n at hn ⊢
  have hbyte : ∀ (c : Byte) (i : Nat), n / 2 ^ (8 * i) % 256 = c.toNat →
      byteOf (BitVec.ofNat 16 n) i = c := by
    intro c i hc
    refine UInt8.toNat_inj.mp ?_
    rw [toNat_byteOf, BitVec.toNat_ofNat, Nat.mod_eq_of_lt (show n < 2 ^ 16 by omega), hc]
  have hbytes : a :: b :: rest = e16 big (BitVec.ofNat 16 n) ++ rest := by
    rw [e16_eq, hbyte a 1 (by omega), hbyte b 0 (by omega)]
    rfl
  rw [hbytes, d16_e16, BitVec.toNat_ofNat, Nat.mod_eq_of_lt (by omega)]

theorem d32_eq (big : Bool) (a b c d : Byte) (rest : List Byte) :
    (d32 big (a :: b :: c :: d :: rest)).toNat = be32 (a :: b :: c :: d :: rest) := by
  have ha := a.toNat_lt
  have hb := b.toNat_lt
  have hc := c.toNat_lt
  have hd := d.toNat_lt
  have hn : be32 (a :: b :: c :: d :: rest) =
      ((a.toNat * 256 + b.toNat) * 256 + c.toNat) * 256 + d.toNat := rfl
  generalize be32 (a :: b :: c :: d :: rest) = n at hn ⊢
  have hbyte : ∀ (x : Byte) (i : Nat), n / 2 ^ (8 * i) % 256 = x.toNat →
      byteOf (BitVec.ofNat 32 n) i = x := by
    intro x i hx
    refine UInt8.toNat_inj.mp ?_
    rw [toNat_byteOf, BitVec.toNat_ofNat, Nat.mod_eq_of_lt (show n < 2 ^ 32 by omega), hx]
  have hbytes : a :: b :: c :: d :: rest = e32 big (BitVec.ofNat 32 n) ++ rest := by
    rw [e32_eq, hbyte a 3 (by omega), hbyte b 2 (by omega), hbyte c 1 (by omega),
      hbyte d 0 (by omega)]
    rfl
  rw [hbytes, d32_e32, BitVec.toNat_ofNat, Nat.mod_eq_of_lt (by omega)]

end Bpsp.Datatype
