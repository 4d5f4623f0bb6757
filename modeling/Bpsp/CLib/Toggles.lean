import Mathlib.Data.List.Induction

/-!
# Parties that follow one sequence of toggles

A sequence of toggles switches each element that it names on or off. Several parties can follow one
sequence at different speeds: each shows what the toggles that it has applied leave on (`Shows`), so
those that have applied equally many show the same. `Separated` sequences never leave two elements on
that a party which knows elements by a key would mix up.
-/

namespace CLib

variable {α κ : Type} [DecidableEq α]

/-- The toggles leave the element on; everything is off at first. -/
def isOn (toggles : List α) (x : α) : Bool :=
  toggles.foldl (fun on y => if y = x then !on else on) false

/-- A party shows what the first `n` toggles leave on. -/
def Shows (shown : α → Prop) (toggles : List α) (n : Nat) : Prop :=
  ∀ x, shown x ↔ isOn (toggles.take n) x = true

/-- At no time two elements with the same key are on. -/
def Separated (key : α → κ) (toggles : List α) : Prop :=
  ∀ n x y, isOn (toggles.take n) x = true → isOn (toggles.take n) y = true → key x = key y → x = y

@[simp] theorem isOn_nil (x : α) : isOn [] x = false := rfl

theorem isOn_concat (toggles : List α) (y x : α) :
    isOn (toggles ++ [y]) x = if y = x then !isOn toggles x else isOn toggles x := by
  simp [isOn]

variable {toggles : List α} {shown shown' : α → Prop} {key : α → κ} {n : Nat} {x y : α}

/-- What is on has been toggled. -/
theorem mem_of_isOn (h : isOn toggles x = true) : x ∈ toggles := by
  induction toggles using List.reverseRecOn with
  | nil => cases h
  | append_singleton toggles y ih =>
      rw [isOn_concat] at h
      rw [List.mem_append, List.mem_singleton]
      split_ifs at h with heq
      · exact .inr heq.symm
      · exact .inl (ih h)

theorem isOn_take_succ (h : toggles[n]? = some y) (x : α) : isOn (toggles.take (n + 1)) x =
    if y = x then !isOn (toggles.take n) x else isOn (toggles.take n) x := by
  rw [List.take_add_one, h, Option.toList_some, isOn_concat]

/-- A party that applies the next toggle. -/
theorem Shows.toggle (h : Shows shown toggles n) (hy : toggles[n]? = some y)
    (hshown : ∀ x, shown' x ↔ if y = x then ¬ shown x else shown x) :
    Shows shown' toggles (n + 1) := by
  intro x
  rw [hshown, isOn_take_succ hy, h x]
  split_ifs
  · rw [Bool.not_eq_true, Bool.not_eq_true']
  · rfl

/-- A party that switches on what is off. -/
theorem Shows.switch_on (h : Shows shown toggles n) (hy : toggles[n]? = some y)
    (hoff : isOn (toggles.take n) y = false) : Shows (fun x => shown x ∨ x = y) toggles (n + 1) := by
  refine h.toggle hy fun x => ?_
  split_ifs with heq
  · subst heq
    exact iff_of_true (.inr rfl) fun hx => by simp [(h y).mp hx] at hoff
  · exact or_iff_left fun hx => heq hx.symm

/-- A party that switches off what is on. -/
theorem Shows.switch_off (h : Shows shown toggles n) (hy : toggles[n]? = some y)
    (hon : isOn (toggles.take n) y = true) : Shows (fun x => shown x ∧ x ≠ y) toggles (n + 1) := by
  refine h.toggle hy fun x => ?_
  split_ifs with heq
  · subst heq
    exact iff_of_false (fun hx => hx.2 rfl) (not_not.mpr ((h y).mpr hon))
  · exact and_iff_left fun hx => heq hx.symm

/-- Toggles that a party has not applied do not matter to it. -/
theorem Shows.append (h : Shows shown toggles n) (hn : n ≤ toggles.length) (more : List α) :
    Shows shown (toggles ++ more) n := by
  intro x
  rw [List.take_append_of_le_length hn]
  exact h x

theorem Separated.nil (key : α → κ) : Separated key [] := by
  intro n x y hx
  simp at hx

/-- What is switched on shares its key with nothing that is on. -/
theorem Separated.ne (h : Separated key toggles) (hy : toggles[n]? = some y)
    (hoff : isOn (toggles.take n) y = false) (hx : isOn (toggles.take n) x = true) :
    key x ≠ key y := by
  have hne : y ≠ x := by
    rintro rfl
    rw [hoff] at hx
    cases hx
  intro hkey
  refine hne (h (n + 1) y x ?_ ?_ hkey.symm)
  · rw [isOn_take_succ hy, if_pos rfl, hoff]
    rfl
  · rw [isOn_take_succ hy, if_neg hne, hx]

/-- What is switched on last has a key that nothing has which is on. -/
theorem Separated.concat (h : Separated key toggles)
    (hfree : isOn toggles y = false → ∀ x, isOn toggles x = true → key x ≠ key y) :
    Separated key (toggles ++ [y]) := by
  intro n x x' hx hx' hkey
  rcases Nat.lt_or_ge toggles.length n with hn | hn
  · have hall : (toggles ++ [y]).length ≤ n := by
      rw [List.length_append]
      exact hn
    rw [List.take_of_length_le hall, isOn_concat] at hx hx'
    have hold : ∀ {x x'}, isOn toggles x = true → isOn toggles x' = true → key x = key x' →
        x = x' := by
      intro x x' hx hx'
      have hsame := h toggles.length x x'
      rw [List.take_length] at hsame
      exact hsame hx hx'
    split_ifs at hx hx' with hyx hyx' hyx'
    · exact hyx.symm.trans hyx'
    · subst hyx
      exact absurd hkey.symm (hfree (by simpa using hx) x' hx')
    · subst hyx'
      exact absurd hkey (hfree (by simpa using hx') x hx)
    · exact hold hx hx' hkey
  · rw [List.take_append_of_le_length hn] at hx hx'
    exact h n x x' hx hx' hkey

end CLib
