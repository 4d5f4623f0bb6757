import Mathlib

/-!
# Allocated buffers

A buffer is the list of its elements, its length is the number that was allocated. New elements hold
whatever the memory held, so nothing can be said of them; a copy is defined when it stays within the
buffer.
-/

namespace CLib

/-- What one request for memory meets: whether it is granted, and what the new memory holds. -/
structure Memory (α : Type) where
  granted : Bool
  fresh : Nat → α

namespace Memory

variable {α : Type}

/-- `realloc`, and `malloc` when there is no old buffer. -/
def realloc (mem : Memory α) (old : List α) (n : Nat) : Option (List α) :=
  if mem.granted then
    some (old.take n ++ (List.range (n - old.length)).map fun i => mem.fresh (old.length + i))
  else none

/-- `memcpy` to the position `pos` of a buffer. A copy of nothing is in bounds anywhere. -/
def copy (buffer : List α) (pos : Nat) (data : List α) : Option (List α) :=
  if data = [] then some buffer
  else if pos + data.length ≤ buffer.length then
    some (buffer.take pos ++ data ++ buffer.drop (pos + data.length))
  else none

theorem realloc_refused {mem : Memory α} (h : mem.granted = false) (old : List α) (n : Nat) :
    mem.realloc old n = none := by simp [realloc, h]

/-- A granted request keeps the old elements that still have room. -/
theorem realloc_granted {mem : Memory α} (h : mem.granted = true) (old : List α) (n : Nat) :
    ∃ new, mem.realloc old n = some (old.take n ++ new) ∧ new.length = n - old.length :=
  ⟨(List.range (n - old.length)).map fun i => mem.fresh (old.length + i), if_pos h, by simp⟩

theorem length_realloc {mem : Memory α} {old buffer : List α} {n : Nat}
    (h : mem.realloc old n = some buffer) : buffer.length = n := by
  unfold realloc at h
  split_ifs at h
  rw [← Option.some.inj h]
  simp only [List.length_append, List.length_take, List.length_map, List.length_range]
  omega

/-- A copy does not change the size of a buffer. -/
theorem length_copy {buffer data buffer' : List α} {pos : Nat}
    (h : copy buffer pos data = some buffer') : buffer'.length = buffer.length := by
  unfold copy at h
  split_ifs at h <;> rw [← Option.some.inj h]
  simp only [List.length_append, List.length_take, List.length_drop]
  omega

/-- A copy to the end of the old elements of a buffer that has just enough new ones. -/
theorem copy_append (old : List α) {new data : List α} (h : new.length = data.length) :
    copy (old ++ new) old.length data = some (old ++ data) := by
  by_cases hdata : data = []
  · have hnew : new = [] := List.length_eq_zero_iff.mp (by simp [h, hdata])
    rw [copy, if_pos hdata, hdata, hnew]
  · rw [copy, if_neg hdata, if_pos (by simp [h])]
    simp [List.drop_append, h]

/-- A copy over a whole buffer. -/
theorem copy_whole {buffer data : List α} (h : buffer.length = data.length) :
    copy buffer 0 data = some data := copy_append [] h

theorem copy_outside {buffer data : List α} {pos : Nat} (hdata : data ≠ [])
    (h : buffer.length < pos + data.length) : copy buffer pos data = none := by
  rw [copy, if_neg hdata, if_neg (by omega)]

end Memory

end CLib
