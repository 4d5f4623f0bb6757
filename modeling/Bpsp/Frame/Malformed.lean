import Bpsp.Frame.Grammar

/-!
# Malformed header blocks

The parser reads the documented grammar, but it does not check it: any byte opens the first key, any
text may stand between strings and between pairs, any byte ends a pair, and a refused header does not
stop it. What it does notice is a block that breaks off inside a pair. `rejects_iff` says that a
block outside of the grammar is answered with an error exactly then. In a block of 65535 bytes that
ends with a closing quote the cursor wraps, and the block is read again with that quote overwritten.
-/

namespace Bpsp.Frame

open CLib

/-- The block is a sequence of pairs `"key""value";` of strings, in which no key is empty and every
quote follows a backslash. -/
def Documented (bytes : List Byte) : Prop :=
  ∃ ps : List (CStr × CStr), bytes = block ps ∧ ∀ p ∈ ps, p.1.length ≠ 0 ∧
    escapedFrom quote p.1.bytes = true ∧ escapedFrom quote p.2.bytes = true

/-- Only a documented block is accepted, and every other one is answered with an error. -/
def Rejects (fr : Frame) (bytes : List Byte) : Prop :=
  (∀ fr', fr.parseVarHeader bytes = some (.ok, fr') → Documented bytes) ∧
    (¬ Documented bytes → ∃ s fr', fr.parseVarHeader bytes = some (s, fr') ∧ s ≠ .ok)

/-- The block breaks off inside a pair, after the pairs `ps`. -/
def BreaksOff (bytes : List Byte) (ps : List (CStr × CStr)) : Prop :=
  ∃ (b : Byte) (r : Reading), bytes = b :: r.bytes quote ∧ r.Reads b ∧ r.complete = false ∧
    ps = r.pairs

/-- The block of 65535 bytes ends with a closing quote, and breaks off inside a pair when it is read
again with the closing quotes overwritten. -/
def BreaksOffAgain (bytes : List Byte) (ps : List (CStr × CStr)) : Prop :=
  ∃ (b : Byte) (r : Reading) (again : List (CStr × CStr)), bytes = b :: r.bytes quote ∧ r.Reads b ∧
    r.closes = true ∧ bytes.length = 65535 ∧ BreaksOff (b :: r.bytes 0) again ∧
    ps = r.pairs ++ again

/-- Pairs are set while the header of their key, if there is one, has a value. -/
def Settable (fr : Frame) (ps : List (CStr × CStr)) : Prop :=
  ∀ before p after fr', ps = before ++ p :: after → setPairs fr before = some fr' →
    p.1.length ≠ 0 → fr'.getVarHeader p.1 ≠ some none

section Passes

variable {b : Byte} {r : Reading} {fuel : Nat}

/-- A pass that breaks off. -/
theorem pass_inside (hsize : (b :: r.bytes quote).length < 65536) (hreads : r.Reads b)
    (hinside : r.complete = false) (hfuel : (b :: r.bytes quote).length < fuel)
    (ps : List (CStr × CStr)) :
    ∃ c, parseLoop record (b :: r.bytes quote).length fuel (b :: r.bytes quote) ⟨0, 0, 0, 0⟩ ps =
      some (c, ps ++ r.pairs) ∧ c.startKey ≠ 0 := by
  obtain ⟨fuel', c, hle, hends, hrun⟩ := parse_loop_pass record hsize hreads (Nat.le_of_lt hfuel)
  obtain ⟨hn, hkey⟩ := hends.inside hinside
  obtain ⟨fuel'', rfl⟩ := Nat.exists_eq_add_of_le' (show 1 ≤ fuel' by omega)
  refine ⟨c, ?_, hkey⟩
  rw [hrun, feed_record]
  exact parse_loop_end (Nat.le_of_eq hn.symm) _ _

/-- A pass that ends outside a pair, and after which the cursor has not wrapped. -/
theorem pass_outside (hsize : (b :: r.bytes quote).length < 65536) (hreads : r.Reads b)
    (houtside : r.complete = true)
    (hwrap : ¬ (r.closes = true ∧ (b :: r.bytes quote).length = 65535))
    (hfuel : (b :: r.bytes quote).length < fuel) (ps : List (CStr × CStr)) :
    ∃ c, parseLoop record (b :: r.bytes quote).length fuel (b :: r.bytes quote) ⟨0, 0, 0, 0⟩ ps =
      some (c, ps ++ r.pairs) ∧ c.startKey = 0 := by
  obtain ⟨fuel', c, hle, hends, hrun⟩ := parse_loop_pass record hsize hreads (Nat.le_of_lt hfuel)
  have hc := hends.outside houtside
  obtain ⟨fuel'', rfl⟩ := Nat.exists_eq_add_of_le' (show 1 ≤ fuel' by omega)
  refine ⟨c, ?_, by rw [hc]⟩
  rw [hrun, feed_record]
  refine parse_loop_end ?_ _ _
  rw [hc]
  dsimp only
  split_ifs with hcloses
  · have hshort : (b :: r.bytes quote).length ≠ 65535 := fun h => hwrap ⟨hcloses, h⟩
    rw [wrap16, Nat.mod_eq_of_lt (by omega)]
    exact Nat.le_succ _
  · rw [Nat.add_zero, wrap16, Nat.mod_eq_of_lt hsize]

/-- A pass after which the cursor has wrapped. -/
theorem pass_wraps (hsize : (b :: r.bytes quote).length = 65535) (hreads : r.Reads b)
    (hcloses : r.closes = true) (hfuel : (b :: r.bytes quote).length ≤ fuel)
    (ps : List (CStr × CStr)) :
    ∃ fuel', fuel ≤ fuel' + (b :: r.bytes quote).length ∧
      parseLoop record (b :: r.bytes quote).length fuel (b :: r.bytes quote) ⟨0, 0, 0, 0⟩ ps =
        parseLoop record (b :: r.bytes 0).length fuel' (b :: r.bytes 0) ⟨0, 0, 0, 0⟩
          (ps ++ r.pairs) := by
  obtain ⟨fuel', c, hle, hends, hrun⟩ := parse_loop_pass record (by omega) hreads hfuel
  have hcomplete : r.complete = true := r.complete_of_closes hcloses
  obtain rfl := hends.outside hcomplete
  refine ⟨fuel', hle, ?_⟩
  rw [hrun, feed_record, if_pos hcloses, hsize, List.length_cons, length_bytes, ← List.length_cons,
    hsize]
  rfl

/-- After a second pass the cursor does not wrap: the last byte is overwritten. -/
theorem closes_overwritten {r' : Reading} (h : r.closes = true) (heq : r.bytes 0 = r'.bytes quote) :
    r'.closes = false := by
  by_contra hcloses
  have hlast := getLast_of_closes quote r' (Bool.eq_true_of_not_eq_false hcloses)
  rw [← heq, getLast_of_closes 0 r h] at hlast
  exact absurd (Option.some.inj hlast) (by decide)

end Passes

/-- A block that breaks off leaves the walk inside a pair. -/
theorem walk_breaks_off {bytes : List Byte} (hlen : bytes.length ≤ 65535) {ps : List (CStr × CStr)}
    (h : BreaksOff bytes ps ∨ BreaksOffAgain bytes ps) :
    ∃ c, parseLoop record bytes.length (2 * (bytes.length + 1)) bytes ⟨0, 0, 0, 0⟩ [] =
      some (c, ps) ∧ c.startKey ≠ 0 := by
  rcases h with ⟨b, r, rfl, hreads, hinside, rfl⟩ | ⟨b, r, again, rfl, hreads, hcloses, hfull, h, rfl⟩
  · exact pass_inside (by omega) hreads hinside (by omega) []
  · obtain ⟨fuel, hle, hrun⟩ := pass_wraps hfull hreads hcloses
      (show _ ≤ 2 * ((b :: r.bytes quote).length + 1) by omega) []
    obtain ⟨b', r', heq, hreads', hinside, rfl⟩ := h
    have hlen' : (b' :: r'.bytes quote).length = (b :: r.bytes quote).length := by
      rw [← heq, List.length_cons, List.length_cons, length_bytes]
    rw [hrun, heq]
    exact pass_inside (by omega) hreads' hinside (by omega) _

/-- A walk that does not break off ends outside a pair. -/
theorem walk_cases {bytes : List Byte} (hlen : bytes.length ≤ 65535) :
    (∃ ps, BreaksOff bytes ps ∨ BreaksOffAgain bytes ps) ∨
      ∃ c ps, parseLoop record bytes.length (2 * (bytes.length + 1)) bytes ⟨0, 0, 0, 0⟩ [] =
        some (c, ps) ∧ c.startKey = 0 := by
  cases bytes with
  | nil => exact Or.inr ⟨⟨0, 0, 0, 0⟩, [], rfl, rfl⟩
  | cons b rest =>
      obtain ⟨r, hreads, rfl⟩ := exists_reading b rest
      cases hcomplete : r.complete with
      | false => exact Or.inl ⟨_, Or.inl ⟨b, r, rfl, hreads, hcomplete, rfl⟩⟩
      | true =>
          by_cases hwrap : r.closes = true ∧ (b :: r.bytes quote).length = 65535
          · -- the block is read again
            obtain ⟨hcloses, hfull⟩ := hwrap
            obtain ⟨r', hreads', heq⟩ := exists_reading b (r.bytes 0)
            cases hcomplete' : r'.complete with
            | false =>
                exact Or.inl ⟨_, Or.inr ⟨b, r, _, rfl, hreads, hcloses, hfull,
                  ⟨b, r', by rw [heq], hreads', hcomplete', rfl⟩, rfl⟩⟩
            | true =>
                obtain ⟨fuel, hle, hrun⟩ := pass_wraps hfull hreads hcloses
                  (show _ ≤ 2 * ((b :: r.bytes quote).length + 1) by omega) []
                have hnot := closes_overwritten hcloses heq.symm
                have hlen' : (b :: r'.bytes quote).length = (b :: r.bytes quote).length := by
                  rw [heq, List.length_cons, List.length_cons, length_bytes]
                obtain ⟨c, hend, hkey⟩ := pass_outside (by omega) hreads' hcomplete'
                  (fun h => absurd (hnot.symm.trans h.1) Bool.false_ne_true)
                  (show _ < fuel by omega) ([] ++ r.pairs)
                rw [heq] at hend
                exact Or.inr ⟨c, _, hrun.trans hend, hkey⟩
          · obtain ⟨c, hend, hkey⟩ := pass_outside (by omega) hreads hcomplete hwrap
              (show _ < 2 * ((b :: r.bytes quote).length + 1) by omega) []
            exact Or.inr ⟨c, _, hend, hkey⟩

/-- What the pairs of a block that breaks off come to, and the error. -/
theorem parse_breaks_off (fr : Frame) {bytes : List Byte} (hlen : bytes.length ≤ 65535)
    {ps : List (CStr × CStr)} (h : BreaksOff bytes ps ∨ BreaksOffAgain bytes ps) :
    fr.parseVarHeader bytes = (setPairs fr ps).map fun fr => (.invalidVarHeaders, fr) := by
  obtain ⟨c, hrun, hkey⟩ := walk_breaks_off hlen h
  obtain ⟨c', hhands, hparse⟩ := parse_hands fr (show bytes.length < 65536 by omega)
  obtain ⟨rfl, rfl⟩ := Prod.mk.inj (Option.some.inj (hrun.symm.trans hhands))
  rw [hparse]
  simp only [if_pos hkey]

/-- Any other block is not answered with an error. -/
theorem parse_not_broken (fr : Frame) {bytes : List Byte} (hlen : bytes.length ≤ 65535)
    (h : ¬ ∃ ps, BreaksOff bytes ps ∨ BreaksOffAgain bytes ps) {s : Status} {fr' : Frame}
    (hparse : fr.parseVarHeader bytes = some (s, fr')) : s = .ok := by
  obtain ⟨c, ps, hrun, hkey⟩ := (walk_cases hlen).resolve_left h
  obtain ⟨c', hhands, hparse'⟩ := parse_hands fr (show bytes.length < 65536 by omega)
  obtain ⟨rfl, rfl⟩ := Prod.mk.inj (Option.some.inj (hrun.symm.trans hhands))
  rw [hparse'] at hparse
  obtain ⟨fr₁, -, heq⟩ := Option.map_eq_some_iff.mp hparse
  rw [if_neg (not_not.mpr hkey)] at heq
  exact (Prod.mk.inj heq).1.symm

/-- A header without a value cannot be set; any other can. -/
theorem setParsed_eq_none_iff {fr : Frame} {k v : CStr} :
    setParsed fr k v = none ↔ k.length ≠ 0 ∧ fr.getVarHeader k = some none := by
  unfold setParsed setVarHeader getVarHeader
  by_cases hk : k.length = 0
  · simp [hk]
  · rw [if_neg hk]
    cases hfind : fr.varHeaders.find k with
    | none =>
        simp only [bind, Option.bind_some]
        split_ifs <;> simp
    | some old =>
        cases old with
        | none => simp [hk]
        | some old =>
            simp only [bind, Option.bind_some]
            split_ifs <;> simp

theorem settable_iff (ps : List (CStr × CStr)) : ∀ {fr : Frame},
    Settable fr ps ↔ ∃ fr', setPairs fr ps = some fr' := by
  induction ps with
  | nil =>
      intro fr
      refine iff_of_true (fun before p after fr' h => ?_) ⟨fr, rfl⟩
      simp at h
  | cons p ps ih =>
      intro fr
      rw [setPairs_cons]
      constructor
      · intro h
        cases hset : setParsed fr p.1 p.2 with
        | none =>
            obtain ⟨hk, hnone⟩ := setParsed_eq_none_iff.mp hset
            exact absurd hnone (h [] p ps fr rfl rfl hk)
        | some fr₁ =>
            refine ih.mp fun before q after fr' heq hrun => h (p :: before) q after fr' ?_ ?_
            · rw [heq, List.cons_append]
            · rw [setPairs_cons, hset]
              exact hrun
      · rintro ⟨fr', hrun⟩
        obtain ⟨fr₁, hset, hrest⟩ := Option.bind_eq_some_iff.mp hrun
        intro before q after fr₂ heq hbefore hk hnone
        cases before with
        | nil =>
            obtain ⟨rfl, rfl⟩ := List.cons.inj heq
            obtain rfl : fr = fr₂ := Option.some.inj hbefore
            rw [setParsed_eq_none_iff.mpr ⟨hk, hnone⟩] at hset
            cases hset
        | cons p' before =>
            obtain ⟨rfl, rfl⟩ := List.cons.inj heq
            rw [setPairs_cons, hset] at hbefore
            exact ih.mpr ⟨fr', hrest⟩ before q after fr₂ rfl hbefore hk hnone

/-- Every block of up to 65535 bytes: it is accepted only in the documented grammar, and answered
with an error otherwise, exactly when it is documented or it breaks off inside a pair and none of
the pairs before is for a header without a value. -/
theorem rejects_iff (fr : Frame) {bytes : List Byte} (hlen : bytes.length ≤ 65535) :
    Rejects fr bytes ↔ Documented bytes ∨
      ∃ ps, (BreaksOff bytes ps ∨ BreaksOffAgain bytes ps) ∧ Settable fr ps := by
  by_cases hdoc : Documented bytes
  · exact iff_of_true ⟨fun _ _ => hdoc, fun h => absurd hdoc h⟩ (Or.inl hdoc)
  constructor
  · rintro ⟨-, herror⟩
    obtain ⟨s, fr', hparse, hs⟩ := herror hdoc
    have hbroken : ∃ ps, BreaksOff bytes ps ∨ BreaksOffAgain bytes ps := by
      by_contra h
      exact hs (parse_not_broken fr hlen h hparse)
    obtain ⟨ps, hps⟩ := hbroken
    rw [parse_breaks_off fr hlen hps] at hparse
    obtain ⟨fr₁, hset, -⟩ := Option.map_eq_some_iff.mp hparse
    exact Or.inr ⟨ps, hps, (settable_iff ps).mpr ⟨fr₁, hset⟩⟩
  · intro h
    obtain ⟨ps, hps, hsettable⟩ := h.resolve_left hdoc
    obtain ⟨fr', hset⟩ := (settable_iff ps).mp hsettable
    have hparse : fr.parseVarHeader bytes = some (.invalidVarHeaders, fr') := by
      rw [parse_breaks_off fr hlen hps, hset]
      rfl
    refine ⟨fun fr₁ hok => ?_, fun _ => ⟨_, fr', hparse, by decide⟩⟩
    rw [hparse] at hok
    cases hok

/-- A block that breaks off in a key. -/
theorem rejects_cut : Rejects new [34, 107] := by
  refine (rejects_iff new (by decide)).mpr (Or.inr ⟨[], Or.inl ⟨34, .inKey [107], rfl, ?_, rfl, rfl⟩, ?_⟩)
  · show escapedFrom 34 [107] = true
    decide
  · intro before p after fr' h
    simp at h

/-- The block `xk""v";` is accepted. -/
theorem rejects_fails : ¬ Rejects new [120, 107, 34, 34, 118, 34, 59] := by
  rintro ⟨hok, -⟩
  have hparse : (new.parseVarHeader [120, 107, 34, 34, 118, 34, 59]).map Prod.fst = some .ok := by
    decide
  obtain ⟨⟨s, fr⟩, hrun, hs⟩ := Option.map_eq_some_iff.mp hparse
  obtain rfl : s = .ok := hs
  obtain ⟨ps, hblock, -⟩ := hok fr hrun
  cases ps with
  | nil => cases hblock
  | cons p ps => exact absurd (List.cons.inj hblock).1 (by decide)

end Bpsp.Frame
