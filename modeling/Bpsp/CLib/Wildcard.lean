import Mathlib

/-!
# Wildcard patterns over levels

Patterns are sequences of levels. A level is a fixed text, a wildcard for one level, or a wildcard
for all remaining levels. `Accepts p ts` is the matching relation. `collect C q ts` visits a store
`C` indexed by patterns in the order in which a tree of patterns is searched for the levels `ts`;
it finds exactly what is stored under the accepting patterns (`mem_collect`), each item once
(`nodup_collect`).
-/

namespace Wildcard

variable {τ σ : Type}

/-- One level of a pattern. -/
inductive Level (τ : Type) where
  | exact (text : τ)
  | single
  | multi
  deriving DecidableEq

/-- `Accepts p ts` says the pattern `p` matches the levels `ts`: a text matches itself, `single`
takes one level, and a final `multi` takes one or more. -/
inductive Accepts : List (Level τ) → List τ → Prop where
  | nil : Accepts [] []
  | exact {p ts} (t : τ) : Accepts p ts → Accepts (.exact t :: p) (t :: ts)
  | single {p ts} (t : τ) : Accepts p ts → Accepts (.single :: p) (t :: ts)
  | multi (t : τ) (ts : List τ) : Accepts [.multi] (t :: ts)

/-- `accepts` decides `Accepts`. -/
def accepts [DecidableEq τ] : List (Level τ) → List τ → Bool
  | [], [] => true
  | .exact t :: p, t' :: ts => t = t' && accepts p ts
  | .single :: p, _ :: ts => accepts p ts
  | [.multi], _ :: _ => true
  | _, _ => false

theorem accepts_of [DecidableEq τ] {p : List (Level τ)} {ts : List τ} (h : Accepts p ts) :
    accepts p ts = true := by
  induction h with
  | nil => rfl
  | exact t _ ih => simpa [accepts] using ih
  | single t _ ih => simpa [accepts] using ih
  | multi t ts => rfl

theorem of_accepts [DecidableEq τ] : ∀ {p : List (Level τ)} {ts : List τ},
    accepts p ts = true → Accepts p ts
  | [], [], _ => .nil
  | .exact t :: p, t' :: ts, h => by
      simp only [accepts, Bool.and_eq_true, decide_eq_true_eq] at h
      obtain ⟨rfl, h⟩ := h
      exact .exact t (of_accepts h)
  | .single :: p, t' :: ts, h => .single t' (of_accepts (by simpa [accepts] using h))
  | [.multi], t' :: ts, _ => .multi t' ts
  | [], _ :: _, h => by simp [accepts] at h
  | .exact _ :: _, [], h => by simp [accepts] at h
  | .single :: _, [], h => by simp [accepts] at h
  | .multi :: _, [], h => by simp [accepts] at h
  | .multi :: _ :: _, _ :: _, h => by simp [accepts] at h

/-- Matching is decided by `accepts`. -/
instance [DecidableEq τ] (p : List (Level τ)) (ts : List τ) : Decidable (Accepts p ts) :=
  decidable_of_iff _ ⟨of_accepts, accepts_of⟩

/-- Searches a store of patterns for the levels `ts`, starting from the patterns that begin
with `q`: first the `multi` entries at this level, then the patterns that go on with `single`,
then those that go on with the text itself. -/
def collect (C : List (Level τ) → List σ) : List (Level τ) → List τ → List σ
  | q, [] => C q
  | q, t :: ts =>
      C (q ++ [.multi]) ++ collect C (q ++ [.single]) ts ++ collect C (q ++ [.exact t]) ts

/-- The search finds what is stored under the accepting patterns and nothing else. -/
theorem mem_collect {C : List (Level τ) → List σ} {q : List (Level τ)} {ts : List τ} {x : σ} :
    x ∈ collect C q ts ↔ ∃ r, Accepts r ts ∧ x ∈ C (q ++ r) := by
  induction ts generalizing q with
  | nil =>
      refine ⟨fun h => ⟨[], .nil, by simpa [collect] using h⟩, ?_⟩
      rintro ⟨r, hr, hx⟩
      cases hr
      simpa [collect] using hx
  | cons t ts ih =>
      simp only [collect, List.mem_append, ih, List.append_assoc, List.singleton_append]
      constructor
      · rintro (hx | ⟨r, hr, hx⟩ | ⟨r, hr, hx⟩)
        · exact ⟨[.multi], .multi t ts, hx⟩
        · exact ⟨.single :: r, .single t hr, hx⟩
        · exact ⟨.exact t :: r, .exact t hr, hx⟩
      · rintro ⟨r, hr, hx⟩
        cases hr with
        | exact _ hr => exact Or.inr (Or.inr ⟨_, hr, hx⟩)
        | single _ hr => exact Or.inr (Or.inl ⟨_, hr, hx⟩)
        | multi => exact Or.inl hx

/-- When no item is stored twice, the search returns no item twice. -/
theorem nodup_collect {C : List (Level τ) → List σ} (hC : ∀ q, (C q).Nodup)
    (hdisj : ∀ {q q' x}, x ∈ C q → x ∈ C q' → q = q') (q : List (Level τ)) (ts : List τ) :
    (collect C q ts).Nodup := by
  have hpath : ∀ (q : List (Level τ)) {l l' r r' x},
      x ∈ C (q ++ [l] ++ r) → x ∈ C (q ++ [l'] ++ r') → l = l' := by
    intro q l l' r r' x hx hx'
    have heq := hdisj hx hx'
    simp only [List.append_assoc, List.append_cancel_left_eq, List.singleton_append] at heq
    exact (List.cons.inj heq).1
  induction ts generalizing q with
  | nil => exact hC q
  | cons t ts ih =>
      simp only [collect, List.nodup_append]
      refine ⟨⟨hC _, ih _, ?_⟩, ih _, ?_⟩
      · rintro x hx y hy rfl
        obtain ⟨r, -, hr⟩ := mem_collect.mp hy
        exact absurd (hpath q (r := []) (by simpa using hx) hr) (by simp)
      · rintro x hx y hy rfl
        obtain ⟨r, -, hr⟩ := mem_collect.mp hy
        rcases List.mem_append.mp hx with hx | hx
        · exact absurd (hpath q (r := []) (by simpa using hx) hr) (by simp)
        · obtain ⟨r', -, hr'⟩ := mem_collect.mp hx
          exact absurd (hpath q hr' hr) (by simp)

/-- A part of the store with nothing in it contributes nothing. -/
theorem collect_eq_nil {C : List (Level τ) → List σ} {q : List (Level τ)}
    (h : ∀ r, C (q ++ r) = []) (ts : List τ) : collect C q ts = [] := by
  refine List.eq_nil_iff_forall_not_mem.mpr fun x hx => ?_
  obtain ⟨r, -, hr⟩ := mem_collect.mp hx
  simp [h] at hr

/-- Filtering the result is searching the filtered store. -/
theorem filter_collect (C : List (Level τ) → List σ) (f : σ → Bool) (q : List (Level τ))
    (ts : List τ) : (collect C q ts).filter f = collect (fun q => (C q).filter f) q ts := by
  induction ts generalizing q with
  | nil => rfl
  | cons t ts ih => simp [collect, ih]

/-- Mapping the result is searching the mapped store. -/
theorem map_collect {ρ : Type} (C : List (Level τ) → List σ) (f : σ → ρ) (q : List (Level τ))
    (ts : List τ) : (collect C q ts).map f = collect (fun q => (C q).map f) q ts := by
  induction ts generalizing q with
  | nil => rfl
  | cons t ts ih => simp [collect, ih]

end Wildcard
