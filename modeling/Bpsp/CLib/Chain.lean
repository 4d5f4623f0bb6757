import Mathlib

/-!
# Doubly linked lists

Objects that are linked through two of their fields, as intrusive lists in C are. A field is a map
from the objects to what it points to, so an assignment to one field leaves all others alone. With
`Chain next prev p l q` the objects `l` are linked in this order; the first points back to `p` and
the last on to `q`. The operations put an object in front (`Chain.push`), put one at the end
(`Chain.snoc`) or take one out (`Chain.unlink`). Loops along a chain are bounded by a number of
turns, and the length of the chain is enough (`Chain.search`, `iterate_rule`).
-/

namespace CLib

variable {ι : Type}

/-- `l` is linked in its order, between `p` and `q`. -/
def Chain (next prev : ι → Option ι) : Option ι → List ι → Option ι → Prop
  | _, [], _ => True
  | p, a :: l, q => prev a = p ∧ next a = l.head?.or q ∧ Chain next prev (some a) l q

section Chain

variable {next prev next' prev' : ι → Option ι} {p q : Option ι} {l l₁ l₂ : List ι} {a : ι}

@[simp] theorem chain_nil : Chain next prev p [] q := trivial

theorem chain_cons : Chain next prev p (a :: l) q ↔
    prev a = p ∧ next a = l.head?.or q ∧ Chain next prev (some a) l q := Iff.rfl

theorem chain_append : Chain next prev p (l₁ ++ l₂) q ↔
    Chain next prev p l₁ (l₂.head?.or q) ∧ Chain next prev (l₁.getLast?.or p) l₂ q := by
  induction l₁ generalizing p with
  | nil => simp
  | cons b l₁ ih =>
      have hlast : (b :: l₁).getLast?.or p = l₁.getLast?.or (some b) := by
        cases h : l₁.getLast? <;> simp [List.getLast?_cons, h]
      rw [List.cons_append, chain_cons, chain_cons, ih, hlast, List.head?_append, Option.or_assoc]
      tauto

/-- A chain depends on the fields of its own objects only. -/
theorem Chain.congr (h : Chain next prev p l q) (hnext : ∀ b ∈ l, next' b = next b)
    (hprev : ∀ b ∈ l, prev' b = prev b) : Chain next' prev' p l q := by
  induction l generalizing p with
  | nil => trivial
  | cons b l ih =>
      obtain ⟨hp, hn, hrest⟩ := chain_cons.mp h
      refine chain_cons.mpr ⟨?_, ?_, ih hrest ?_ ?_⟩
      · rw [hprev b List.mem_cons_self, hp]
      · rw [hnext b List.mem_cons_self, hn]
      · exact fun c hc => hnext c (List.mem_cons_of_mem b hc)
      · exact fun c hc => hprev c (List.mem_cons_of_mem b hc)

/-- The fields of an object in a chain point to its neighbours. -/
theorem Chain.neighbours (h : Chain next prev p (l₁ ++ a :: l₂) q) :
    prev a = l₁.getLast?.or p ∧ next a = l₂.head?.or q := by
  obtain ⟨-, hsuffix⟩ := chain_append.mp h
  obtain ⟨hprev, hnext, -⟩ := chain_cons.mp hsuffix
  exact ⟨hprev, hnext⟩

end Chain

section Assign

variable [DecidableEq ι]

/-- `if (o != NULL) o->f = v`. -/
def assign (f : ι → Option ι) (o v : Option ι) : ι → Option ι :=
  match o with
  | none => f
  | some a => Function.update f a v

@[simp] theorem assign_none (f : ι → Option ι) (v : Option ι) : assign f none v = f := rfl

@[simp] theorem assign_some (f : ι → Option ι) (a : ι) (v : Option ι) :
    assign f (some a) v = Function.update f a v := rfl

theorem assign_of_ne (f : ι → Option ι) {o v : Option ι} {b : ι} (h : o ≠ some b) :
    assign f o v b = f b := by
  cases o with
  | none => rfl
  | some a => exact Function.update_of_ne (fun hb => h (congrArg some hb.symm)) v f

variable {next prev : ι → Option ι} {l l₁ l₂ : List ι} {a : ι}

/-- The first object of a chain gets another predecessor. -/
theorem Chain.assign_prev {p q : Option ι} (h : Chain next prev p l q) (hnodup : l.Nodup)
    (v : Option ι) : Chain next (assign prev l.head? v) v l q := by
  cases l with
  | nil => trivial
  | cons b l =>
      obtain ⟨-, hn, hrest⟩ := chain_cons.mp h
      refine chain_cons.mpr ⟨by simp, hn, hrest.congr (fun _ _ => rfl) ?_⟩
      intro c hc
      refine assign_of_ne prev fun hb => (List.nodup_cons.mp hnodup).1 ?_
      rw [Option.some.inj hb]
      exact hc

/-- The last object of a chain gets another successor. -/
theorem Chain.assign_next {p q : Option ι} (h : Chain next prev p l q) (hnodup : l.Nodup)
    (v : Option ι) : Chain (assign next l.getLast? v) prev p l v := by
  induction l using List.reverseRecOn with
  | nil => trivial
  | append_singleton l b =>
      obtain ⟨hfront, hlast⟩ := chain_append.mp h
      obtain ⟨hp, -, -⟩ := chain_cons.mp hlast
      rw [List.getLast?_concat]
      refine chain_append.mpr ⟨hfront.congr ?_ fun _ _ => rfl, ?_⟩
      · intro c hc
        refine assign_of_ne next fun hb => ?_
        rw [Option.some.inj hb] at hnodup
        exact (List.nodup_append.mp hnodup).2.2 c hc c List.mem_cons_self rfl
      · exact chain_cons.mpr ⟨hp, by simp, trivial⟩

/-- An object is put in front of a chain. -/
theorem Chain.push (h : Chain next prev none l none) (hnodup : l.Nodup) (ha : a ∉ l) :
    Chain (Function.update next a l.head?) (assign (Function.update prev a none) l.head? (some a))
      none (a :: l) none := by
  have hne : l.head? ≠ some a := fun hb => ha (List.mem_of_mem_head? hb)
  refine chain_cons.mpr ⟨?_, by simp, ?_⟩
  · rw [assign_of_ne _ hne, Function.update_self]
  · refine Chain.assign_prev (h.congr (fun b hb => ?_) fun b hb => ?_) hnodup (some a)
    · exact Function.update_of_ne (ne_of_mem_of_not_mem hb ha) _ _
    · exact Function.update_of_ne (ne_of_mem_of_not_mem hb ha) _ _

/-- An object is put at the end of a chain. -/
theorem Chain.snoc (h : Chain next prev none l none) (hnodup : l.Nodup) (ha : a ∉ l) :
    Chain (assign (Function.update next a none) l.getLast? (some a))
      (Function.update prev a l.getLast?) none (l ++ [a]) none := by
  have hne : l.getLast? ≠ some a := fun hb => ha (List.mem_of_mem_getLast? hb)
  refine chain_append.mpr ⟨?_, chain_cons.mpr ⟨by simp, ?_, trivial⟩⟩
  · refine Chain.assign_next (h.congr (fun b hb => ?_) fun b hb => ?_) hnodup (some a)
    · exact Function.update_of_ne (ne_of_mem_of_not_mem hb ha) _ _
    · exact Function.update_of_ne (ne_of_mem_of_not_mem hb ha) _ _
  · rw [assign_of_ne _ hne, Function.update_self]
    rfl

/-- An object is taken out of a chain: its neighbours are linked to each other. -/
theorem Chain.unlink (h : Chain next prev none (l₁ ++ a :: l₂) none)
    (hnodup : (l₁ ++ a :: l₂).Nodup) :
    Chain (assign next (prev a) (next a)) (assign prev (next a) (prev a)) none (l₁ ++ l₂) none := by
  obtain ⟨hprev, hnext⟩ := h.neighbours
  obtain ⟨hfront, hrest⟩ := chain_append.mp h
  obtain ⟨-, -, hback⟩ := chain_cons.mp hrest
  obtain ⟨hnodup₁, hnodup', hdisj⟩ := List.nodup_append.mp hnodup
  obtain ⟨-, hnodup₂⟩ := List.nodup_cons.mp hnodup'
  rw [Option.or_none] at hprev hnext
  rw [hprev, hnext]
  refine chain_append.mpr ⟨?_, ?_⟩
  · refine (hfront.assign_next hnodup₁ (l₂.head?.or none)).congr (fun b _ => ?_) fun b hb => ?_
    · rw [Option.or_none]
    · refine assign_of_ne prev fun hc => ?_
      exact hdisj b hb b (List.mem_cons_of_mem a (List.mem_of_mem_head? hc)) rfl
  · refine (hback.assign_prev hnodup₂ (l₁.getLast?.or none)).congr (fun b hb => ?_) fun b _ => ?_
    · refine assign_of_ne next fun hc => ?_
      exact hdisj b (List.mem_of_mem_getLast? hc) b (List.mem_cons_of_mem a hb) rfl
    · rw [Option.or_none]

/-- The last object when one is taken out. -/
theorem getLast?_unlink {b : ι} (h : (l₁ ++ a :: l₂).getLast? = some b) (ha : a ∉ l₂) :
    (if a = b then l₁.getLast? else some b) = (l₁ ++ l₂).getLast? := by
  cases l₂ with
  | nil =>
      rw [List.getLast?_concat] at h
      rw [if_pos (Option.some.inj h), List.append_nil]
  | cons c l₂ =>
      rw [List.getLast?_append, List.getLast?_cons_cons] at h
      have hlast : (l₁ ++ c :: l₂).getLast? = some b := by rw [List.getLast?_append, h]
      rw [hlast]
      refine if_neg fun hab => ha ?_
      rw [List.getLast?_cons, Option.some_or, ← List.getLast?_cons] at h
      rw [hab]
      exact List.mem_of_mem_getLast? h

omit [DecidableEq ι] in
/-- The first object when one is taken out. -/
theorem head?_unlink {b : ι} (h : (l₁ ++ a :: l₂).head? = some b) :
    (if l₁.getLast? = none then l₂.head? else some b) = (l₁ ++ l₂).head? := by
  cases l₁ with
  | nil => rfl
  | cons c l₁ => simpa [List.getLast?_cons] using h.symm

end Assign

section Loops

/-- `while (el != NULL && !found(el)) el = next(el)`, in at most so many turns: where it stops. -/
def search (next : ι → Option ι) (found : ι → Bool) : Nat → Option ι → Option (Option ι)
  | _, none => some none
  | 0, some _ => none
  | fuel + 1, some el => if found el then some (some el) else search next found fuel (next el)

theorem Chain.search {next prev : ι → Option ι} {p : Option ι} {l : List ι}
    (h : Chain next prev p l none) (found : ι → Bool) {fuel : Nat} (hfuel : l.length ≤ fuel) :
    search next found fuel l.head? = some (l.find? found) := by
  induction l generalizing p fuel with
  | nil => cases fuel <;> rfl
  | cons a l ih =>
      obtain ⟨-, hn, hrest⟩ := chain_cons.mp h
      cases fuel with
      | zero => cases hfuel
      | succ fuel =>
          rw [List.head?_cons, CLib.search, List.find?_cons]
          cases found a with
          | true => rfl
          | false =>
              rw [if_neg Bool.false_ne_true, hn, Option.or_none]
              exact ih hrest (Nat.le_of_succ_le_succ hfuel)

variable {σ : Type}

/-- `while (el != NULL) { tmp = next(el); body; el = tmp; }`, in at most so many turns. The body may
change the links, and those of `el` too. -/
def iterate (next : σ → ι → Option ι) (body : ι → σ → Option σ) :
    Nat → Option ι → σ → Option σ
  | _, none, s => some s
  | 0, some _, _ => none
  | fuel + 1, some el, s => do
      let tmp := next s el
      let s ← body el s
      iterate next body fuel tmp s

/-- The rule for such a loop: `I` relates the objects that are left and the state. -/
theorem iterate_rule {next : σ → ι → Option ι} {body : ι → σ → Option σ} (I : List ι → σ → Prop)
    (hnext : ∀ el rest s, I (el :: rest) s → next s el = rest.head?)
    (hbody : ∀ el rest s, I (el :: rest) s → ∃ s', body el s = some s' ∧ I rest s')
    {l : List ι} {s : σ} {fuel : Nat} (h : I l s) (hfuel : l.length ≤ fuel) :
    ∃ s', iterate next body fuel l.head? s = some s' ∧ I [] s' := by
  induction l generalizing s fuel with
  | nil => exact ⟨s, by cases fuel <;> rfl, h⟩
  | cons el rest ih =>
      cases fuel with
      | zero => cases hfuel
      | succ fuel =>
          obtain ⟨s', hs', hI⟩ := hbody el rest s h
          obtain ⟨t, ht, hend⟩ := ih hI (Nat.le_of_succ_le_succ hfuel)
          refine ⟨t, ?_, hend⟩
          rw [List.head?_cons, iterate, hnext el rest s h, hs']
          exact ht

end Loops

end CLib
