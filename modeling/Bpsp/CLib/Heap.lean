import Mathlib

/-!
# Heaps of objects

`Heap α` holds the live objects of one type by address. Its `fresh` field says that everything
from `next` on is unallocated, so `alloc` always returns an address that no live pointer has.
A freed address is not handed out again; reading it gives `none`.
-/

namespace CLib

/-- The address of an object. -/
abbrev Addr := Nat

/-- The live objects of type `α`. -/
structure Heap (α : Type) where
  cells : Nat → Option α
  next : Nat
  fresh : ∀ a, next ≤ a → cells a = none

namespace Heap

variable {α : Type}

/-- No object is live. -/
def empty : Heap α := ⟨fun _ => none, 0, fun _ _ => rfl⟩

/-- The object at an address, if it is live. -/
def get (h : Heap α) (a : Addr) : Option α := h.cells a

/-- `malloc` followed by the initialisation of the object. -/
def alloc (h : Heap α) (v : α) : Heap α × Addr :=
  ({ cells := fun a => if a = h.next then some v else h.cells a
     next := h.next + 1
     fresh := fun (a : Nat) (ha : h.next + 1 ≤ a) => by
      simp [show a ≠ h.next by omega, h.fresh a (by omega)] }, h.next)

/-- Overwrites fields of a live object. -/
def modify (h : Heap α) (a : Addr) (f : α → α) : Heap α where
  cells := fun b => if b = a then (h.cells a).map f else h.cells b
  next := h.next
  fresh := fun b hb => by
    by_cases hba : b = a
    · subst hba
      simp [h.fresh b hb]
    · simp [hba, h.fresh b hb]

/-- `free`. -/
def free (h : Heap α) (a : Addr) : Heap α where
  cells := fun b => if b = a then none else h.cells b
  next := h.next
  fresh := fun b hb => by simp [h.fresh b hb]

@[simp] theorem get_empty (a : Addr) : (empty : Heap α).get a = none := rfl

@[simp] theorem alloc_snd (h : Heap α) (v : α) : (h.alloc v).2 = h.next := rfl

theorem get_next (h : Heap α) : h.get h.next = none := h.fresh _ (Nat.le_refl _)

theorem get_alloc (h : Heap α) (v : α) (a : Addr) :
    (h.alloc v).1.get a = if a = h.next then some v else h.get a := rfl

@[simp] theorem get_alloc_self (h : Heap α) (v : α) : (h.alloc v).1.get h.next = some v := by
  simp [get_alloc]

theorem get_modify (h : Heap α) (a b : Addr) (f : α → α) :
    (h.modify a f).get b = if b = a then (h.get a).map f else h.get b := rfl

theorem get_free (h : Heap α) (a b : Addr) :
    (h.free a).get b = if b = a then none else h.get b := rfl

theorem ne_next_of_get {h : Heap α} {a : Addr} {v : α} (hget : h.get a = some v) : a ≠ h.next := by
  rintro rfl
  simp [get_next] at hget

theorem lt_next_of_get {h : Heap α} {a : Addr} {v : α} (hget : h.get a = some v) :
    a < h.next := by
  by_contra hle
  have hnone : h.get a = none := h.fresh a (Nat.le_of_not_lt hle)
  exact absurd (hnone.symm.trans hget) (by simp)

/-- Allocation leaves every live object in place. -/
theorem get_alloc_of_get {h : Heap α} {a : Addr} {v w : α} (hget : h.get a = some v) :
    (h.alloc w).1.get a = some v := by
  simp [get_alloc, ne_next_of_get hget, hget]

section All

variable {P : α → Prop} {h : Heap α}

/-- A property of all live cells. -/
def All (P : α → Prop) (h : Heap α) : Prop := ∀ a v, h.get a = some v → P v

theorem All.alloc (hall : All P h) {v : α} (hv : P v) : All P (h.alloc v).1 := by
  intro a w hw
  rw [get_alloc] at hw
  split_ifs at hw
  · rwa [← Option.some.inj hw]
  · exact hall _ _ hw

theorem All.modify (hall : All P h) (a : Addr) {f : α → α} (hf : ∀ v, P v → P (f v)) :
    All P (h.modify a f) := by
  intro b w hw
  rw [get_modify] at hw
  split_ifs at hw
  · obtain ⟨v, hv, rfl⟩ := Option.map_eq_some_iff.mp hw
    exact hf v (hall _ _ hv)
  · exact hall _ _ hw

theorem All.free (hall : All P h) (a : Addr) : All P (h.free a) := by
  intro b w hw
  rw [get_free] at hw
  split_ifs at hw
  exact hall _ _ hw

end All

end Heap

end CLib
