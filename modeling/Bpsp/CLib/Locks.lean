import Mathlib.Algebra.Group.Pi.Basic
import Mathlib.Tactic.Abel

/-!
# Locks as counters

A function that takes and gives back locks, over a state and a counter for each lock that says how
often it is held. `Net m δ` says that every path through `m` that returns changes the counters by `δ`,
and its rules read a function from its start: taking a lock leaves one more to be given back.
`Balanced m`, a change by nothing, is what callers rely on. `Returns m w Q` says that `m` is defined
from the state `w`, whatever is held, and ends in `Q`.
-/

namespace CLib

/-- How often each lock is held. -/
abbrev Held (ι : Type) := ι → Int

/-- A computation on the counters and a state, which may be undefined. -/
abbrev Locked (ι σ α : Type) := StateT (Held ι × σ) Option α

namespace Locked

variable {ι σ α β : Type}

section Operations

variable [DecidableEq ι]

/-- Takes a lock. -/
def acquire (l : ι) : Locked ι σ Unit := fun (h, w) => some ((), h + Pi.single l 1, w)

/-- Gives a lock back. -/
def release (l : ι) : Locked ι σ Unit := fun (h, w) => some ((), h - Pi.single l 1, w)

/-- Takes a lock when the flag is set. -/
def acquireIf (flag : Bool) (l : ι) : Locked ι σ Unit := if flag then acquire l else pure ()

/-- Gives a lock back when the flag is set. -/
def releaseIf (flag : Bool) (l : ι) : Locked ι σ Unit := if flag then release l else pure ()

/-- A counter that a flag decides about. -/
def heldIf (flag : Bool) (l : ι) : Held ι := if flag then Pi.single l 1 else 0

end Operations

/-- What leaves the locks alone. -/
def onState (f : σ → Option (α × σ)) : Locked ι σ α :=
  fun (h, w) => (f w).map fun r => (r.1, h, r.2)

/-- Every path that returns changes the counters by `δ`. -/
def Net (m : Locked ι σ α) (δ : Held ι) : Prop :=
  ∀ h w a h' w', m.run (h, w) = some (a, h', w') → h' = h + δ

/-- Every path that returns leaves the counters as they were. -/
def Balanced (m : Locked ι σ α) : Prop := Net m 0

/-- Whenever it returns from `w`, the counters are what they were. -/
def Keeps (m : Locked ι σ α) (w : σ) : Prop :=
  ∀ h a h' w', m.run (h, w) = some (a, h', w') → h' = h

/-- Started in `w`, whatever is held, it returns, and `Q` holds then. -/
def Returns (m : Locked ι σ α) (w : σ) (Q : α → σ → Prop) : Prop :=
  ∀ h, ∃ a h' w', m.run (h, w) = some (a, h', w') ∧ Q a w'

theorem run_on_state (f : σ → Option (α × σ)) (h : Held ι) (w : σ) :
    (onState f).run (h, w) = (f w).map fun r => (r.1, h, r.2) := rfl

section Run

variable [DecidableEq ι] (h : Held ι) (w : σ)

theorem run_acquire (l : ι) :
    (acquire l).run (h, w) = some ((), h + Pi.single l 1, w) := rfl

theorem run_release (l : ι) :
    (release l).run (h, w) = some ((), h - Pi.single l 1, w) := rfl

theorem run_acquire_if (flag : Bool) (l : ι) :
    (acquireIf flag l).run (h, w) = some ((), h + heldIf flag l, w) := by
  cases flag with
  | false => exact congrArg (fun h => some ((), h, w)) (add_zero h).symm
  | true => rfl

theorem run_release_if (flag : Bool) (l : ι) :
    (releaseIf flag l).run (h, w) = some ((), h - heldIf flag l, w) := by
  cases flag with
  | false => exact congrArg (fun h => some ((), h, w)) (sub_zero h).symm
  | true => rfl

end Run

section Nets

variable {m : Locked ι σ α} {f : α → Locked ι σ β} {δ ε : Held ι}

theorem Net.of_eq (hm : Net m δ) (h : δ = ε) : Net m ε := h ▸ hm

theorem Net.bind (hm : Net m δ) (hf : ∀ a, Net (f a) ε) : Net (m >>= f) (δ + ε) := by
  intro h w b h' w' hrun
  obtain ⟨⟨a, h₁, w₁⟩, hfirst, hrest⟩ := Option.bind_eq_some_iff.mp hrun
  rw [hf a _ _ _ _ _ hrest, hm _ _ _ _ _ hfirst, add_assoc]

/-- What is balanced can stand anywhere. -/
theorem Balanced.bind (hm : Balanced m) (hf : ∀ a, Net (f a) δ) : Net (m >>= f) δ :=
  Net.of_eq (Net.bind hm hf) (zero_add δ)

theorem Balanced.pure (a : α) : Balanced (Pure.pure a : Locked ι σ α) := by
  intro h w a' h' w' hrun
  obtain ⟨-, hheld⟩ := Prod.mk.inj (Option.some.inj hrun)
  rw [add_zero, (Prod.mk.inj hheld).1]

/-- The end of a path: nothing is left to be given back. -/
theorem Net.pure (a : α) (h : δ = 0) : Net (Pure.pure a : Locked ι σ α) δ :=
  h ▸ Balanced.pure a

theorem Balanced.on_state (g : σ → Option (α × σ)) : Balanced (onState g : Locked ι σ α) := by
  intro h w a h' w' hrun
  obtain ⟨r, -, heq⟩ := Option.map_eq_some_iff.mp hrun
  obtain ⟨-, hheld⟩ := Prod.mk.inj heq
  rw [add_zero, (Prod.mk.inj hheld).1]

theorem net_of_run {m : Locked ι σ Unit}
    (h : ∀ h w, m.run (h, w) = some ((), h + δ, w)) : Net m δ := by
  intro h₀ w a h' w' hrun
  obtain ⟨-, hheld⟩ := Prod.mk.inj (Option.some.inj ((h h₀ w).symm.trans hrun))
  exact (Prod.mk.inj hheld).1.symm

theorem Balanced.keeps (hm : Balanced m) (w : σ) : Keeps m w := by
  intro h a h' w' hrun
  rw [hm h w a h' w' hrun, add_zero]

/-- Dropping the result changes nothing about the locks. -/
theorem keeps_bind_pure {w : σ} (b : β) : Keeps (m >>= fun _ => Pure.pure b) w ↔ Keeps m w := by
  constructor
  · intro h held a h' w' hrun
    exact h held b h' w' (Option.bind_eq_some_iff.mpr ⟨_, hrun, rfl⟩)
  · intro h held _ h' w' hrun
    obtain ⟨⟨a, h₁, w₁⟩, hfirst, hrest⟩ := Option.bind_eq_some_iff.mp hrun
    obtain ⟨-, hheld⟩ := Prod.mk.inj (Option.some.inj hrest)
    rw [← (Prod.mk.inj hheld).1]
    exact h held a h₁ w₁ hfirst

section Change

variable [DecidableEq ι] {l : ι} {flag : Bool} {f : Unit → Locked ι σ β}

theorem Net.acquire_if_bind (hf : Net (f ()) (δ - heldIf flag l)) :
    Net (acquireIf flag l >>= f) δ :=
  Net.of_eq (Net.bind (net_of_run fun h w => run_acquire_if h w flag l) fun _ => hf)
    (add_sub_cancel _ _)

theorem net_release_if (flag : Bool) (l : ι) :
    Net (releaseIf flag l : Locked ι σ Unit) (-heldIf flag l) :=
  net_of_run fun h w => by
    rw [← sub_eq_add_neg]
    exact run_release_if h w flag l

theorem Net.release_if_bind (hf : Net (f ()) (δ + heldIf flag l)) :
    Net (releaseIf flag l >>= f) δ :=
  Net.of_eq (Net.bind (net_release_if flag l) fun _ => hf) (by abel)

theorem Net.acquire_bind (hf : Net (f ()) (δ - Pi.single l 1)) : Net (acquire l >>= f) δ :=
  @Net.acquire_if_bind _ _ _ _ _ _ true _ hf

theorem Net.release_bind (hf : Net (f ()) (δ + Pi.single l 1)) : Net (release l >>= f) δ :=
  @Net.release_if_bind _ _ _ _ _ _ true _ hf

end Change

end Nets

section Returning

variable {m : Locked ι σ α} {w w' : σ} {a : α} {P : α → σ → Prop} {Q : β → σ → Prop}

theorem Returns.bind {f : α → Locked ι σ β} (hm : Returns m w P)
    (hf : ∀ a w', P a w' → Returns (f a) w' Q) : Returns (m >>= f) w Q := by
  intro h
  obtain ⟨a, h₁, w₁, hfirst, ha⟩ := hm h
  obtain ⟨b, h₂, w₂, hrest, hb⟩ := hf a w₁ ha h₁
  exact ⟨b, h₂, w₂, Option.bind_eq_some_iff.mpr ⟨_, hfirst, hrest⟩, hb⟩

theorem Returns.mono {P' : α → σ → Prop} (hm : Returns m w P) (h : ∀ a w', P a w' → P' a w') :
    Returns m w P' := fun held =>
  (hm held).imp fun _ hrun => hrun.imp fun _ hrun => hrun.imp fun _ hrun => ⟨hrun.1, h _ _ hrun.2⟩

theorem Returns.pure (h : P a w) : Returns (Pure.pure a : Locked ι σ α) w P :=
  fun held => ⟨a, held, w, rfl, h⟩

/-- The result of a call that nobody looks at. -/
theorem Returns.then_pure {b : β} (hm : Returns m w fun _ _ => True) :
    Returns (m >>= fun _ => Pure.pure b) w fun _ _ => True :=
  hm.bind fun _ _ _ => Returns.pure trivial

theorem Returns.on_state {g : σ → Option (α × σ)} (hg : g w = some (a, w')) (h : P a w') :
    Returns (onState g : Locked ι σ α) w P :=
  fun held => ⟨a, held, w', by rw [run_on_state, hg]; rfl, h⟩

theorem Returns.on_state_bind {g : σ → Option (α × σ)} {f : α → Locked ι σ β}
    (hg : g w = some (a, w')) (h : Returns (f a) w' Q) : Returns (onState g >>= f) w Q :=
  Returns.bind (P := fun b v => b = a ∧ v = w') (Returns.on_state hg ⟨rfl, rfl⟩)
    fun _ _ heq => by rw [heq.1, heq.2]; exact h

section Change

variable [DecidableEq ι] {l : ι} {flag : Bool} {f : Unit → Locked ι σ β}

theorem Returns.acquire_if_bind (h : Returns (f ()) w Q) :
    Returns (acquireIf flag l >>= f) w Q :=
  Returns.bind (P := fun _ v => v = w) (fun held => ⟨_, _, _, run_acquire_if held w flag l, rfl⟩)
    fun _ _ heq => heq ▸ h

theorem Returns.release_if_bind (h : Returns (f ()) w Q) :
    Returns (releaseIf flag l >>= f) w Q :=
  Returns.bind (P := fun _ v => v = w) (fun held => ⟨_, _, _, run_release_if held w flag l, rfl⟩)
    fun _ _ heq => heq ▸ h

theorem Returns.acquire_bind (h : Returns (f ()) w Q) : Returns (acquire l >>= f) w Q :=
  @Returns.acquire_if_bind _ _ _ _ _ _ _ true _ h

theorem Returns.release_bind (h : Returns (f ()) w Q) : Returns (release l >>= f) w Q :=
  @Returns.release_if_bind _ _ _ _ _ _ _ true _ h

end Change

end Returning

end Locked

end CLib
