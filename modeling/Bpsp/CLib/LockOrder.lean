import Bpsp.CLib.Locks
import Mathlib.Logic.Relation

/-!
# Taking locks in order

`Procedure` is a function that takes and gives back locks as the sequence of what it does, and
`Procedure.run` is its effect in the sense of `Locked`. Threads run procedures side by side
(`Turn`): a thread that takes a lock waits while another thread has it, unless both only read.
`Ordered rank held p held'` says that `p` takes locks in the order of their ranks only. When all
procedures are ordered and give back what they took, some thread can always go on (`no_deadlock`).
-/

namespace CLib

/-- How a lock is taken: a mutex always is `exclusive`. -/
inductive Mode where
  | shared
  | exclusive
  deriving DecidableEq

/-- A function that takes and gives back locks. -/
inductive Procedure (ι σ α : Type) : Type 1 where
  | done (a : α)
  | acquire (l : ι) (mode : Mode) (next : Procedure ι σ α)
  | release (l : ι) (next : Procedure ι σ α)
  | access {β : Type} (f : σ → Option (β × σ)) (next : β → Procedure ι σ α)

namespace Procedure

variable {ι σ α β : Type}

def bind : Procedure ι σ α → (α → Procedure ι σ β) → Procedure ι σ β
  | done a, g => g a
  | acquire l mode next, g => acquire l mode (next.bind g)
  | release l next, g => release l (next.bind g)
  | access f next, g => access f fun b => (next b).bind g

instance : Monad (Procedure ι σ) where
  pure := done
  bind := bind

/-- Takes a lock. -/
def lock (l : ι) (mode : Mode) : Procedure ι σ Unit := acquire l mode (done ())

/-- Gives a lock back. -/
def unlock (l : ι) : Procedure ι σ Unit := release l (done ())

/-- Takes a lock when the flag is set. -/
def lockIf (flag : Bool) (l : ι) (mode : Mode) : Procedure ι σ Unit :=
  if flag then lock l mode else pure ()

/-- Gives a lock back when the flag is set. -/
def unlockIf (flag : Bool) (l : ι) : Procedure ι σ Unit := if flag then unlock l else pure ()

/-- What leaves the locks alone. -/
def onState (f : σ → Option (α × σ)) : Procedure ι σ α := access f done

section Run

variable [DecidableEq ι]

/-- The effect of a procedure that is not interrupted. -/
def run : Procedure ι σ α → Locked ι σ α
  | done a => pure a
  | acquire l _ next => Locked.acquire l >>= fun _ => next.run
  | release l next => Locked.release l >>= fun _ => next.run
  | access f next => Locked.onState f >>= fun b => (next b).run

@[simp] theorem run_pure (a : α) : (pure a : Procedure ι σ α).run = pure a := rfl

@[simp] theorem run_bind (p : Procedure ι σ α) (g : α → Procedure ι σ β) :
    (p >>= g).run = p.run >>= fun a => (g a).run := by
  show (p.bind g).run = _
  induction p with
  | done a => rfl
  | acquire l mode next ih => simp only [bind, run, ih, bind_assoc]
  | release l next ih => simp only [bind, run, ih, bind_assoc]
  | access f next ih => simp only [bind, run, ih, bind_assoc]

@[simp] theorem run_lock (l : ι) (mode : Mode) :
    (lock l mode : Procedure ι σ Unit).run = Locked.acquire l := bind_pure _

@[simp] theorem run_unlock (l : ι) :
    (unlock l : Procedure ι σ Unit).run = Locked.release l := bind_pure _

@[simp] theorem run_lock_if (flag : Bool) (l : ι) (mode : Mode) :
    (lockIf flag l mode : Procedure ι σ Unit).run = Locked.acquireIf flag l := by
  cases flag
  · rfl
  · exact run_lock l mode

@[simp] theorem run_unlock_if (flag : Bool) (l : ι) :
    (unlockIf flag l : Procedure ι σ Unit).run = Locked.releaseIf flag l := by
  cases flag
  · rfl
  · exact run_unlock l

@[simp] theorem run_on_state (f : σ → Option (α × σ)) :
    (onState f : Procedure ι σ α).run = Locked.onState f := bind_pure _

end Run

section Ordered

variable [DecidableEq ι] {rank : ι → Nat} {held held' held'' : List ι}

/-- From where `held` is held, the procedure takes only locks that rank above all that are held
then, gives back only what is held, and ends with `held'`. -/
def Ordered (rank : ι → Nat) : List ι → Procedure ι σ α → List ι → Prop
  | held, done _, held' => held = held'
  | held, acquire l _ next, held' =>
      (∀ k ∈ held, rank k < rank l) ∧ Ordered rank (l :: held) next held'
  | held, release l next, held' => l ∈ held ∧ Ordered rank (held.erase l) next held'
  | held, access _ next, held' => ∀ b, Ordered rank held (next b) held'

theorem Ordered.pure (a : α) : Ordered rank held (Pure.pure a : Procedure ι σ α) held := rfl

theorem Ordered.bind {p : Procedure ι σ α} {g : α → Procedure ι σ β}
    (hp : Ordered rank held p held') (hg : ∀ a, Ordered rank held' (g a) held'') :
    Ordered rank held (p >>= g) held'' := by
  show Ordered rank held (p.bind g) held''
  induction p generalizing held with
  | done a => exact (show held = held' from hp) ▸ hg a
  | acquire l mode next ih => exact ⟨hp.1, ih hp.2⟩
  | release l next ih => exact ⟨hp.1, ih hp.2⟩
  | access f next ih => exact fun b => ih b (hp b)

theorem Ordered.lock {l : ι} (mode : Mode) (h : ∀ k ∈ held, rank k < rank l) :
    Ordered rank held (Procedure.lock l mode : Procedure ι σ Unit) (l :: held) := ⟨h, rfl⟩

theorem Ordered.unlock (l : ι) :
    Ordered rank (l :: held) (Procedure.unlock l : Procedure ι σ Unit) held :=
  ⟨List.mem_cons_self, List.erase_cons_head ..⟩

/-- What is held after a lock was taken that a flag decides about. -/
def heldWith (flag : Bool) (l : ι) (held : List ι) : List ι := if flag then l :: held else held

theorem Ordered.lock_if {l : ι} {flag : Bool} (mode : Mode)
    (h : flag = true → ∀ k ∈ held, rank k < rank l) :
    Ordered rank held (Procedure.lockIf flag l mode : Procedure ι σ Unit)
      (heldWith flag l held) := by
  cases flag
  · exact Ordered.pure ()
  · exact Ordered.lock mode (h rfl)

theorem Ordered.unlock_if (flag : Bool) (l : ι) :
    Ordered rank (heldWith flag l held) (Procedure.unlockIf flag l : Procedure ι σ Unit) held := by
  cases flag
  · exact Ordered.pure ()
  · exact Ordered.unlock l

theorem Ordered.on_state (f : σ → Option (α × σ)) :
    Ordered rank held (Procedure.onState f) held := fun _ => rfl

end Ordered

end Procedure

/-- Threads that run procedures on one state: what each holds, and what is left of the procedure
that it is in. -/
structure Threads (τ ι σ : Type) where
  state : σ
  held : τ → List (ι × Mode)
  running : τ → Option (Procedure ι σ Unit)

namespace Threads

open Procedure

variable {τ ι σ : Type} {rank : ι → Nat} {P : Procedure ι σ Unit → Prop} {c c' : Threads τ ι σ}
  {t : τ}

/-- Threads that run nothing yet. -/
def start (state : σ) : Threads τ ι σ := ⟨state, fun _ => [], fun _ => none⟩

/-- A lock can be taken in a mode: nobody has it, or all who have it only read. The thread itself
counts as well, as a lock must not be taken twice. -/
def Free (c : Threads τ ι σ) (t : τ) (l : ι) (mode : Mode) : Prop :=
  ∀ u m, (l, m) ∈ c.held u → u ≠ t ∧ mode = .shared ∧ m = .shared

/-- The thread is at a lock that it cannot take. -/
def Waiting (c : Threads τ ι σ) (t : τ) : Prop :=
  ∃ l mode next, c.running t = some (.acquire l mode next) ∧ ¬ c.Free t l mode

/-- The thread is at an operation that is undefined. -/
def Undefined (c : Threads τ ι σ) (t : τ) : Prop :=
  ∃ (β : Type) (f : σ → Option (β × σ)) (next : β → Procedure ι σ Unit),
    c.running t = some (.access f next) ∧ f c.state = none

section Order

variable [DecidableEq ι]

/-- What is left of a procedure is ordered, and a thread that runs nothing holds nothing. -/
def InOrder (rank : ι → Nat) (c : Threads τ ι σ) : Prop :=
  ∀ t, match c.running t with
    | none => c.held t = []
    | some p => Ordered rank ((c.held t).map Prod.fst) p []

theorem InOrder.running (h : InOrder rank c) {p : Procedure ι σ Unit}
    (hrun : c.running t = some p) : Ordered rank ((c.held t).map Prod.fst) p [] := by
  have ht := h t
  rwa [hrun] at ht

theorem InOrder.idle (h : InOrder rank c) (hrun : c.running t = none) : c.held t = [] := by
  have ht := h t
  rwa [hrun] at ht

/-- A lock that is not free has a holder that goes on, or is at a lock that ranks higher. -/
theorem InOrder.holder (h : InOrder rank c) {l : ι} {mode : Mode} (hfree : ¬ c.Free t l mode) :
    ∃ u p, c.running u = some p ∧ ∀ {l' mode' next'}, p = .acquire l' mode' next' →
      rank l < rank l' := by
  unfold Free at hfree
  push Not at hfree
  obtain ⟨u, m, hmem, -⟩ := hfree
  have hheld : l ∈ (c.held u).map Prod.fst := List.mem_map_of_mem (f := Prod.fst) hmem
  cases hu : c.running u with
  | none =>
      rw [h.idle hu] at hmem
      cases hmem
  | some p =>
      refine ⟨u, p, hu, ?_⟩
      rintro l' mode' next' rfl
      exact (h.running hu).1 l hheld

/-- Threads that are in order are not deadlocked: while one of them runs a procedure, one of those
that do is not waiting. -/
theorem InOrder.goes_on {n : Nat} (hrank : ∀ l, rank l ≤ n) (h : InOrder rank c)
    {p : Procedure ι σ Unit} (hrun : c.running t = some p) :
    ∃ u p', c.running u = some p' ∧ ¬ c.Waiting u := by
  -- from holder to holder the rank of the lock that is waited for grows
  have hgrow : ∀ k t l mode, ¬ c.Free t l mode → n < rank l + k →
      ∃ u p', c.running u = some p' ∧ ¬ c.Waiting u := by
    intro k
    induction k with
    | zero =>
        intro t l mode _ hlt
        exact absurd (hrank l) (by omega)
    | succ k ih =>
        intro t l mode hfree hlt
        obtain ⟨u, p', hu, habove⟩ := h.holder hfree
        by_cases hwait : c.Waiting u
        · obtain ⟨l', mode', next', hu', hfree'⟩ := hwait
          have hlt' := habove (Option.some.inj (hu.symm.trans hu'))
          exact ih u l' mode' hfree' (by omega)
        · exact ⟨u, p', hu, hwait⟩
  by_cases hwait : c.Waiting t
  · obtain ⟨l, mode, next, hrun', hfree⟩ := hwait
    exact hgrow (n + 1) t l mode hfree (by omega)
  · exact ⟨t, p, hrun, hwait⟩

end Order

section Turn

variable [DecidableEq ι] [DecidableEq τ]

/-- A thread with what it holds and what it runs. -/
def set (c : Threads τ ι σ) (state : σ) (t : τ) (held : List (ι × Mode))
    (running : Option (Procedure ι σ Unit)) : Threads τ ι σ :=
  ⟨state, Function.update c.held t held, Function.update c.running t running⟩

/-- What a thread gives back. -/
def drop (l : ι) (held : List (ι × Mode)) : List (ι × Mode) := held.eraseP fun e => e.1 = l

/-- A turn of one thread. A thread that runs nothing can begin any procedure with the property. -/
inductive Turn (P : Procedure ι σ Unit → Prop) (c : Threads τ ι σ) : τ → Threads τ ι σ → Prop
  | begins {t : τ} {p : Procedure ι σ Unit} (hidle : c.running t = none) (hp : P p) :
      Turn P c t (c.set c.state t (c.held t) (some p))
  | ends {t : τ} (hrun : c.running t = some (.done ())) :
      Turn P c t (c.set c.state t (c.held t) none)
  | acquires {t : τ} {l : ι} {mode : Mode} {next : Procedure ι σ Unit}
      (hrun : c.running t = some (.acquire l mode next)) (hfree : c.Free t l mode) :
      Turn P c t (c.set c.state t ((l, mode) :: c.held t) (some next))
  | releases {t : τ} {l : ι} {next : Procedure ι σ Unit}
      (hrun : c.running t = some (.release l next)) :
      Turn P c t (c.set c.state t (drop l (c.held t)) (some next))
  | accesses {t : τ} {β : Type} {f : σ → Option (β × σ)} {next : β → Procedure ι σ Unit} {b : β}
      {state : σ} (hrun : c.running t = some (.access f next)) (hf : f c.state = some (b, state)) :
      Turn P c t (c.set state t (c.held t) (some (next b)))

/-- What turns of any threads lead to. -/
def Reaches (P : Procedure ι σ Unit → Prop) : Threads τ ι σ → Threads τ ι σ → Prop :=
  Relation.ReflTransGen fun c c' => ∃ t, Turn P c t c'

theorem map_drop (l : ι) (held : List (ι × Mode)) :
    (drop l held).map Prod.fst = (held.map Prod.fst).erase l := by
  induction held with
  | nil => rfl
  | cons e held ih =>
      unfold drop at ih ⊢
      by_cases he : e.1 = l
      · rw [List.eraseP_cons_of_pos (by simpa using he), List.map_cons, he, List.erase_cons_head]
      · rw [List.eraseP_cons_of_neg (by simpa using he), List.map_cons, List.map_cons, ih,
          List.erase_cons_tail (by simpa using he)]

/-- A turn that leaves the thread in order keeps all threads in order. -/
theorem InOrder.set (h : InOrder rank c) {state : σ} {held : List (ι × Mode)}
    {running : Option (Procedure ι σ Unit)}
    (hself : match running with
      | none => held = []
      | some p => Ordered rank (held.map Prod.fst) p []) :
    InOrder rank (c.set state t held running) := by
  intro u
  by_cases hu : u = t
  · subst hu
    simpa only [Threads.set, Function.update_self] using hself
  · simpa only [Threads.set, Function.update_of_ne hu] using h u

/-- Every turn keeps the threads in order when the procedures that begin are. -/
theorem InOrder.turn (hP : ∀ p, P p → Ordered rank [] p []) (h : InOrder rank c)
    (hturn : Turn P c t c') : InOrder rank c' := by
  cases hturn with
  | begins hidle hp =>
      refine h.set ?_
      rw [h.idle hidle]
      exact hP _ hp
  | ends hrun => exact h.set (List.map_eq_nil_iff.mp (h.running hrun))
  | acquires hrun hfree => exact h.set (h.running hrun).2
  | releases hrun =>
      refine h.set ?_
      dsimp only
      rw [map_drop]
      exact (h.running hrun).2
  | accesses hrun hf => exact h.set (h.running hrun _)

theorem inOrder_of_reaches (hP : ∀ p, P p → Ordered rank [] p []) {state : σ}
    (h : Reaches P (start state : Threads τ ι σ) c) : InOrder rank c := by
  induction h with
  | refl => exact fun _ => rfl
  | tail _ hturn ih =>
      obtain ⟨t, hturn⟩ := hturn
      exact ih.turn hP hturn

/-- A thread that does not wait takes a turn, unless what it is about to do is undefined. -/
theorem turn_of_not_waiting {p : Procedure ι σ Unit} (hrun : c.running t = some p)
    (hwait : ¬ c.Waiting t) : (∃ c', Turn P c t c') ∨ c.Undefined t := by
  cases p with
  | done a => exact Or.inl ⟨_, .ends hrun⟩
  | acquire l mode next =>
      refine Or.inl ⟨_, .acquires hrun ?_⟩
      by_contra hfree
      exact hwait ⟨l, mode, next, hrun, hfree⟩
  | release l next => exact Or.inl ⟨_, .releases hrun⟩
  | access f next =>
      cases hf : f c.state with
      | none => exact Or.inr ⟨_, f, next, hrun, hf⟩
      | some r => exact Or.inl ⟨_, .accesses hrun hf⟩

/-- Threads that run ordered procedures are never deadlocked, and a thread that is done with its
procedure holds nothing. -/
theorem no_deadlock {n : Nat} (hrank : ∀ l, rank l ≤ n) (hP : ∀ p, P p → Ordered rank [] p [])
    {state : σ} (h : Reaches P (start state : Threads τ ι σ) c) :
    (∀ t, c.running t = none → c.held t = []) ∧
      ∀ {t p}, c.running t = some p →
        ∃ u p', c.running u = some p' ∧ ((∃ c', Turn P c u c') ∨ c.Undefined u) := by
  have horder := inOrder_of_reaches hP h
  refine ⟨fun t => horder.idle, fun hrun => ?_⟩
  obtain ⟨u, p', hu, hwait⟩ := horder.goes_on hrank hrun
  exact ⟨u, p', hu, turn_of_not_waiting hu hwait⟩

end Turn

end Threads

end CLib
