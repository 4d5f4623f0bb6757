import Mathlib.Init

/-!
# Computations with a log

What a computation logs before it becomes undefined was logged all the same, so the log stands beside
the result and not in it. `result_bind` takes the log off again, and `Logs` is the rule by which a
property of all entries is shown part by part.
-/

namespace CLib

/-- What a computation logs, and its result when it is defined. -/
structure Logged (ε α : Type) where
  log : List ε
  result : Option α

namespace Logged

variable {ε α β : Type}

instance : Monad (Logged ε) where
  pure a := ⟨[], some a⟩
  bind x f :=
    match x.result with
    | none => ⟨x.log, none⟩
    | some a => ⟨x.log ++ (f a).log, (f a).result⟩

/-- A computation that logs nothing. -/
def silent (x : Option α) : Logged ε α := ⟨[], x⟩

/-- Logs one entry. -/
def emit (e : ε) : Logged ε Unit := ⟨[e], some ()⟩

/-- All entries have a property. -/
def Logs (p : ε → Prop) (x : Logged ε α) : Prop := ∀ e ∈ x.log, p e

@[simp] theorem result_pure (a : α) : (pure a : Logged ε α).result = some a := rfl

@[simp] theorem result_silent (x : Option α) : (silent x : Logged ε α).result = x := rfl

@[simp] theorem result_emit (e : ε) : (emit e).result = some () := rfl

@[simp] theorem result_bind (x : Logged ε α) (f : α → Logged ε β) :
    (x >>= f).result = x.result.bind fun a => (f a).result := by
  show (match x.result with
    | none => (⟨x.log, none⟩ : Logged ε β)
    | some a => ⟨x.log ++ (f a).log, (f a).result⟩).result = _
  cases x.result with
  | none => rfl
  | some a => rfl

@[simp] theorem result_ite (c : Prop) [Decidable c] (x y : Logged ε α) :
    (if c then x else y).result = if c then x.result else y.result := apply_ite result c x y

theorem log_bind_some {x : Logged ε α} {a : α} (h : x.result = some a) (f : α → Logged ε β) :
    (x >>= f).log = x.log ++ (f a).log := by
  show (match x.result with
    | none => (⟨x.log, none⟩ : Logged ε β)
    | some a => ⟨x.log ++ (f a).log, (f a).result⟩).log = _
  rw [h]

theorem log_bind_none {x : Logged ε α} (h : x.result = none) (f : α → Logged ε β) :
    (x >>= f).log = x.log := by
  show (match x.result with
    | none => (⟨x.log, none⟩ : Logged ε β)
    | some a => ⟨x.log ++ (f a).log, (f a).result⟩).log = _
  rw [h]

section Logs

variable {p : ε → Prop}

theorem Logs.pure (a : α) : Logs p (Pure.pure a : Logged ε α) := fun e he => by cases he

theorem Logs.silent (x : Option α) : Logs p (Logged.silent x) := fun e he => by cases he

theorem Logs.emit {e : ε} (h : p e) : Logs p (Logged.emit e) := by
  intro e' he
  rw [List.mem_singleton.mp he]
  exact h

/-- The rest only has to log what has the property for the results that can come up. -/
theorem Logs.bind {x : Logged ε α} {f : α → Logged ε β} (hx : Logs p x)
    (hf : ∀ a, x.result = some a → Logs p (f a)) : Logs p (x >>= f) := by
  intro e he
  cases h : x.result with
  | none =>
      rw [log_bind_none h] at he
      exact hx e he
  | some a =>
      rw [log_bind_some h] at he
      exact (List.mem_append.mp he).elim (hx e) (hf a h e)

/-- What is computed silently only decides how the computation goes on. -/
theorem Logs.silent_bind {x : Option α} {f : α → Logged ε β} (hf : ∀ a, x = some a → Logs p (f a)) :
    Logs p (Logged.silent x >>= f) :=
  .bind (.silent x) hf

end Logs

end Logged

end CLib
