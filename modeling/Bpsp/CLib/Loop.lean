import Mathlib.Order.Basic

/-!
# Loops

A loop is given by one turn: the state after it and what it did, or nothing where the condition of the
loop fails. `Turns` are successive turns, and `Exits` are those after which the loop is left. A loop
with a measure is left (`exits_of_measure`), and it is left in one way only (`Exits.unique`). Two
loops that differ only where the second is about to be left have the same runs otherwise
(`Exits.lockstep`).
-/

namespace CLib

/-- One turn of a loop from a state, or `none` where its condition fails. -/
abbrev Loop (σ ε : Type) := σ → Option (σ × ε)

namespace Loop

variable {σ ε : Type}

/-- Successive turns and what they do. -/
inductive Turns (loop : Loop σ ε) : σ → List ε → σ → Prop where
  | refl (s : σ) : Turns loop s [] s
  | cons {s s' t : σ} {e : ε} {es : List ε} (hturn : loop s = some (s', e))
      (hrest : Turns loop s' es t) : Turns loop s (e :: es) t

/-- The turns from a state until the loop is left. -/
def Exits (loop : Loop σ ε) (s : σ) (es : List ε) (t : σ) : Prop :=
  loop.Turns s es t ∧ loop t = none

variable {loop : Loop σ ε} {s t : σ} {es : List ε}

theorem Turns.single {e : ε} (h : loop s = some (t, e)) : loop.Turns s [e] t :=
  .cons h (.refl t)

theorem Turns.trans {u : σ} {fs : List ε} (h : loop.Turns s es t) (h' : loop.Turns t fs u) :
    loop.Turns s (es ++ fs) u := by
  induction h with
  | refl s => exact h'
  | cons hturn _ ih => exact .cons hturn (ih h')

theorem Turns.exits {u : σ} {fs : List ε} (h : loop.Turns s es t) (h' : loop.Exits t fs u) :
    loop.Exits s (es ++ fs) u :=
  ⟨h.trans h'.1, h'.2⟩

/-- No turn starts where the loop is left. -/
theorem Turns.of_left (h : loop.Turns s es t) (hleft : loop s = none) : es = [] ∧ s = t := by
  cases h with
  | refl => exact ⟨rfl, rfl⟩
  | cons hturn _ => cases hleft.symm.trans hturn

/-- A turn is determined by the state, so there is one way to leave a loop. -/
theorem Exits.unique {fs : List ε} {u : σ} (h : loop.Exits s es t) (h' : loop.Exits s fs u) :
    es = fs ∧ t = u := by
  obtain ⟨hturns, hleft⟩ := h
  induction hturns generalizing fs with
  | refl s =>
      obtain ⟨rfl, rfl⟩ := h'.1.of_left hleft
      exact ⟨rfl, rfl⟩
  | cons hturn _ ih =>
      obtain ⟨hturns', hleft'⟩ := h'
      cases hturns' with
      | refl => cases hleft'.symm.trans hturn
      | cons hturn' hrest' =>
          obtain ⟨rfl, rfl⟩ := Prod.mk.inj (Option.some.inj (hturn.symm.trans hturn'))
          obtain ⟨rfl, rfl⟩ := ih ⟨hrest', hleft'⟩ hleft
          exact ⟨rfl, rfl⟩

/-- A loop every turn of which makes a measure smaller is left, after no more turns than that. -/
theorem exits_of_measure (μ : σ → Nat) (hμ : ∀ s s' e, loop s = some (s', e) → μ s' < μ s) (s : σ) :
    ∃ es t, loop.Exits s es t ∧ es.length ≤ μ s := by
  induction hn : μ s using Nat.strongRecOn generalizing s with
  | ind n ih =>
      subst hn
      cases hturn : loop s with
      | none => exact ⟨[], s, ⟨.refl s, hturn⟩, Nat.zero_le _⟩
      | some p =>
          have hless := hμ s p.1 p.2 hturn
          obtain ⟨es, t, hexits, hlen⟩ := ih (μ p.1) hless p.1 rfl
          refine ⟨p.2 :: es, t, ⟨.cons hturn hexits.1, hexits.2⟩, ?_⟩
          rw [List.length_cons]
          omega

/-- Where two loops differ only at turns that lead to `Last`, from which the first is left, they have
the same runs to states that are not `Last`. -/
theorem Exits.lockstep {other : Loop σ ε} (Last : σ → Prop) (hlast : ∀ s, Last s → loop s = none)
    (hturn : ∀ s s' e, loop s = some (s', e) → ¬ Last s' → other s = some (s', e))
    (hleft : ∀ s, loop s = none → other s = none) (h : loop.Exits s es t) (ht : ¬ Last t) :
    other.Exits s es t := by
  obtain ⟨hturns, hend⟩ := h
  induction hturns with
  | refl s => exact ⟨.refl s, hleft s hend⟩
  | cons hstep hrest ih =>
      refine ⟨.cons (hturn _ _ _ hstep fun hs' => ?_) (ih ht hend).1, (ih ht hend).2⟩
      obtain ⟨-, rfl⟩ := hrest.of_left (hlast _ hs')
      exact ht hs'

end Loop

end CLib
