import Mathlib

/-!
# Runs of a machine that may fail

A machine is a partial function from a state and a move to the next state. `Runs step P s t` says
that moves which meet the condition `P` lead from `s` to `t`. Properties of runs are proved by
`invariant`, from what one move keeps, and `since` finds the move after which a property has held
ever since.
-/

namespace CLib

variable {σ μ : Type} {step : σ → μ → Option σ} {P P' : σ → μ → Prop} {s t u : σ}

/-- The states that moves which meet a condition lead to, one after another. -/
inductive Runs (step : σ → μ → Option σ) (P : σ → μ → Prop) (s : σ) : σ → Prop
  | refl : Runs step P s s
  | move {t u : σ} {m : μ} (run : Runs step P s t) (meets : P t m) (turn : step t m = some u) :
      Runs step P s u

namespace Runs

theorem single {m : μ} (hmeets : P s m) (hturn : step s m = some t) : Runs step P s t :=
  move refl hmeets hturn

theorem trans (h : Runs step P s t) (h' : Runs step P t u) : Runs step P s u := by
  induction h' with
  | refl => exact h
  | move _ hmeets hturn ih => exact move ih hmeets hturn

/-- A run meets a weaker condition as well. -/
theorem mono (h : Runs step P s t) (hP : ∀ {t m}, P t m → P' t m) : Runs step P' s t := by
  induction h with
  | refl => exact refl
  | move _ hmeets hturn ih => exact move ih (hP hmeets) hturn

/-- A property of the first state that every move keeps holds of the last one. -/
theorem invariant {Q : σ → Prop} (h : Runs step P s t) (hstart : Q s)
    (hkeep : ∀ {t u m}, Q t → P t m → step t m = some u → Q u) : Q t := by
  induction h with
  | refl => exact hstart
  | move _ hmeets hturn ih => exact hkeep ih hmeets hturn

/-- A property of the last state that the first one does not have began with a move, and has held
since then. -/
theorem since {Q : σ → Prop} (h : Runs step P s u) (hQ : Q u) (hstart : ¬ Q s) :
    ∃ t m t', Runs step P s t ∧ ¬ Q t ∧ P t m ∧ step t m = some t' ∧ Q t' ∧
      Runs step (fun x m => P x m ∧ Q x ∧ ∀ y, step x m = some y → Q y) t' u := by
  induction h with
  | refl => exact absurd hQ hstart
  | @move x u m hrun hmeets hturn ih =>
      by_cases hx : Q x
      · obtain ⟨t, m', t', hbefore, hnot, hmeets', hbegin, hQ', hafter⟩ := ih hx
        refine ⟨t, m', t', hbefore, hnot, hmeets', hbegin, hQ', move hafter ⟨hmeets, hx, ?_⟩ hturn⟩
        intro y hy
        exact Option.some.inj (hturn.symm.trans hy) ▸ hQ
      · exact ⟨x, m, u, hrun, hx, hmeets, hturn, hQ, refl⟩

end Runs

end CLib
