import Bpsp.CLib.Loop
import Bpsp.Frame.Scan

/-!
# The turns of the parser's loop

The loop of `frame__parse_var_header` turn by turn, with what a variable does to the numbers stored
in it as a parameter: `wrap16` for the 16 bits of the program. At a size of 65535 the index alone is
no measure, as it can start again at 0; but it does so only at a quote that is the last byte, and
overwrites that quote before (`turnsLeft`). So the loop is left for every block and every size
(`parse_loop_terminates`), and it hands the same pairs to every function (`parse_hands`).
-/

namespace Bpsp.Frame

open CLib

/-- What the loop works on. -/
structure Walk where
  buf : List Byte
  c : Cursor

/-- Where the loop starts. -/
def Walk.start (buf : List Byte) : Walk := ⟨buf, ⟨0, 0, 0, 0⟩⟩

/-- A `uint16_t` holds a number modulo 65536. -/
def wrap16 (n : Nat) : Nat := n % 65536

/-- What a turn does at a quote that counts. -/
def atQuote (wrap : Nat → Nat) (buf : List Byte) (c : Cursor) : Walk × Option (CStr × CStr) :=
  if c.startKey = 0 then (⟨buf, { c with startKey := wrap (c.n + 1), n := wrap (c.n + 1) }⟩, none)
  else if c.endKey = 0 then (⟨buf, { c with endKey := c.n, n := wrap (c.n + 1) }⟩, none)
  else if c.startValue = 0 then
    (⟨buf, { c with startValue := wrap (c.n + 1), n := wrap (c.n + 1) }⟩, none)
  else
    let buf := (buf.set c.endKey 0).set c.n 0
    (⟨buf, ⟨wrap (c.n + 2), 0, 0, 0⟩⟩,
      some (CStr.ofBytes (buf.drop c.startKey), CStr.ofBytes (buf.drop c.startValue)))

/-- A turn of the loop: the index it looks at, and the pair it hands to `frame__set_var_header`. -/
def turn (wrap : Nat → Nat) (size : Nat) : Loop Walk (Nat × Option (CStr × CStr)) :=
  fun w =>
    if w.c.n < size then
      if w.c.n ≠ 0 ∧ (w.buf[w.c.n]? ≠ some quote ∨ w.buf[w.c.n - 1]? = some backslash) then
        some ({ w with c := { w.c with n := wrap (w.c.n + 1) } }, w.c.n, none)
      else some ((atQuote wrap w.buf w.c).1, w.c.n, (atQuote wrap w.buf w.c).2)
    else none

/-- The pairs that are handed over in these turns. -/
def calls (es : List (Nat × Option (CStr × CStr))) : List (CStr × CStr) :=
  es.filterMap Prod.snd

/-- The status of the parser after the loop. -/
def Cursor.status (c : Cursor) : Status :=
  if c.startKey ≠ 0 then .invalidVarHeaders else .ok

@[simp] theorem calls_nil : calls [] = [] := rfl

@[simp] theorem calls_append (es fs : List (Nat × Option (CStr × CStr))) :
    calls (es ++ fs) = calls es ++ calls fs := List.filterMap_append

/-- The index moves on by one byte and nothing else but the cursor changes, or a pair is cut out of
the block and the index moves on by two. -/
theorem at_quote_cases (wrap : Nat → Nat) (buf : List Byte) (c : Cursor) :
    ((atQuote wrap buf c).1.buf = buf ∧ (atQuote wrap buf c).1.c.n = wrap (c.n + 1) ∧
      (atQuote wrap buf c).2 = none) ∨
    ((atQuote wrap buf c).1 = ⟨(buf.set c.endKey 0).set c.n 0, ⟨wrap (c.n + 2), 0, 0, 0⟩⟩ ∧
      ∃ p, (atQuote wrap buf c).2 = some p) := by
  unfold atQuote
  split_ifs
  · exact Or.inl ⟨rfl, rfl, rfl⟩
  · exact Or.inl ⟨rfl, rfl, rfl⟩
  · exact Or.inl ⟨rfl, rfl, rfl⟩
  · exact Or.inr ⟨rfl, _, rfl⟩

/-- The turns of the loop that are left at most: those to the end of the block, and another pass
when the block ends in a quote. -/
def turnsLeft (size : Nat) (buf : List Byte) (n : Nat) : Nat :=
  (size - n) + if buf[size - 1]? = some quote then size + 1 else 0

/-- Writing a NUL does not make the block end in a quote. -/
theorem last_quote_set {buf : List Byte} {i j : Nat} (h : (buf.set i 0)[j]? = some quote) :
    buf[j]? = some quote := by
  rw [List.getElem?_set] at h
  split_ifs at h with hij hlt
  · exact absurd (Option.some.inj h) (by decide)
  · exact h

section Turn

variable {wrap : Nat → Nat} {size : Nat} {w w' : Walk} {e : Nat × Option (CStr × CStr)}

/-- What a turn does. -/
theorem turn_cases (h : turn wrap size w = some (w', e)) : w.c.n < size ∧ e.1 = w.c.n ∧
    ((w'.buf = w.buf ∧ w'.c.n = wrap (w.c.n + 1)) ∨
      ((w.c.n ≠ 0 → w.buf[w.c.n]? = some quote) ∧
        w' = ⟨(w.buf.set w.c.endKey 0).set w.c.n 0, ⟨wrap (w.c.n + 2), 0, 0, 0⟩⟩)) := by
  unfold turn at h
  split_ifs at h with hmore hskip
  · obtain ⟨rfl, rfl⟩ := Prod.mk.inj (Option.some.inj h)
    exact ⟨hmore, rfl, Or.inl ⟨rfl, rfl⟩⟩
  · obtain ⟨rfl, rfl⟩ := Prod.mk.inj (Option.some.inj h)
    refine ⟨hmore, rfl, (at_quote_cases wrap w.buf w.c).imp (fun h => ⟨h.1, h.2.1⟩)
      fun h => ⟨fun hn => ?_, h.1⟩⟩
    by_contra hq
    exact hskip ⟨hn, Or.inl hq⟩

theorem turn_none_iff : turn wrap size w = none ↔ size ≤ w.c.n := by
  unfold turn
  split_ifs with hmore hskip
  · exact iff_of_false (fun h => by cases h) (by omega)
  · exact iff_of_false (fun h => by cases h) (by omega)
  · exact iff_of_true rfl (by omega)

/-- Every turn brings the end of the loop closer. -/
theorem turns_left_lt (hsize : size < 65536) (h : turn wrap16 size w = some (w', e)) :
    turnsLeft size w'.buf w'.c.n < turnsLeft size w.buf w.c.n := by
  obtain ⟨hmore, -, ⟨hbuf, hn⟩ | ⟨hquote, rfl⟩⟩ := turn_cases h
  · rw [hbuf, hn, wrap16, Nat.mod_eq_of_lt (by omega)]
    unfold turnsLeft
    omega
  · unfold turnsLeft wrap16
    dsimp only
    by_cases hwrap : w.c.n + 2 < 65536
    · rw [Nat.mod_eq_of_lt hwrap]
      by_cases hlast : ((w.buf.set w.c.endKey 0).set w.c.n 0)[size - 1]? = some quote
      · rw [if_pos hlast, if_pos (last_quote_set (last_quote_set hlast))]
        omega
      · rw [if_neg hlast]
        omega
    · -- the index starts again, and the closing quote at the end is gone
      have hc : w.c.n = size - 1 := by omega
      have hlast : w.buf[size - 1]? = some quote := by
        rw [← hc]
        exact hquote (by omega)
      have hin : size - 1 < w.buf.length := (List.getElem?_eq_some_iff.mp hlast).1
      have hgone : ((w.buf.set w.c.endKey 0).set w.c.n 0)[size - 1]? ≠ some quote := by
        rw [hc, List.getElem?_set_self (by rw [List.length_set]; exact hin)]
        decide
      rw [if_pos hlast, if_neg hgone]
      omega

/-- The loop is left from everywhere. -/
theorem turn_exits (hsize : size < 65536) (w : Walk) : ∃ es t,
    (turn wrap16 size).Exits w es t ∧ es.length ≤ turnsLeft size w.buf w.c.n :=
  Loop.exits_of_measure (fun w => turnsLeft size w.buf w.c.n)
    (fun _ _ _ h => turns_left_lt hsize h) w

theorem turns_left_start (size : Nat) (buf : List Byte) :
    turnsLeft size buf 0 < 2 * (size + 1) := by
  unfold turnsLeft
  split_ifs <;> omega

end Turn

section Parse

variable {σ : Type} {call : σ → CStr → CStr → Exec σ} {size : Nat}

/-- Hands pairs to `call` one after another. -/
def handTo (call : σ → CStr → CStr → Exec σ) (ps : List (CStr × CStr)) (st : σ) : Exec σ :=
  ps.foldlM (fun st p => call st p.1 p.2) st

theorem hand_to_record (ps qs : List (CStr × CStr)) : handTo record qs ps = some (ps ++ qs) := by
  induction qs generalizing ps with
  | nil => rw [List.append_nil]; rfl
  | cons q qs ih =>
      rw [handTo, List.foldlM_cons]
      exact (ih (ps ++ [q])).trans (by rw [List.append_assoc, List.singleton_append])

/-- The loop is left. -/
theorem parse_loop_left {w : Walk} (h : turn wrap16 size w = none) (fuel : Nat) (st : σ) :
    parseLoop call size (fuel + 1) w.buf w.c st = some (w.c, st) := by
  rw [parseLoop, if_neg (Nat.not_lt.mpr (turn_none_iff.mp h))]

/-- `parseLoop` takes a turn and hands over its pair. -/
theorem parse_loop_turn {w w' : Walk} {e : Nat × Option (CStr × CStr)}
    (h : turn wrap16 size w = some (w', e)) (fuel : Nat) (st : σ) :
    parseLoop call size (fuel + 1) w.buf w.c st =
      (handTo call e.2.toList st).bind fun st => parseLoop call size fuel w'.buf w'.c st := by
  unfold turn at h
  rw [parseLoop]
  split_ifs at h with hmore hskip
  · obtain ⟨rfl, rfl⟩ := Prod.mk.inj (Option.some.inj h)
    rw [if_pos hmore, if_pos hskip]
    rfl
  · obtain ⟨rfl, rfl⟩ := Prod.mk.inj (Option.some.inj h)
    rw [if_pos hmore, if_neg hskip]
    unfold atQuote
    split_ifs
    · rfl
    · rfl
    · rfl
    · simp only [handTo, Option.toList, List.foldlM_cons, List.foldlM_nil]
      cases call st _ _ with
      | none => rfl
      | some st => rfl

/-- `parseLoop` takes the turns and hands over their pairs. -/
theorem parse_loop_turns {w w' : Walk} {es : List (Nat × Option (CStr × CStr))}
    (h : (turn wrap16 size).Turns w es w') (fuel : Nat) (st : σ) :
    parseLoop call size (fuel + es.length) w.buf w.c st =
      (handTo call (calls es) st).bind fun st => parseLoop call size fuel w'.buf w'.c st := by
  induction h generalizing st with
  | refl w => rfl
  | @cons w w₁ w' e es hturn hrest ih =>
      have hcalls : calls (e :: es) = e.2.toList ++ calls es := by
        cases he : e.2 <;> simp [calls, he]
      rw [List.length_cons, ← Nat.add_assoc, parse_loop_turn hturn, hcalls]
      simp only [ih]
      unfold handTo
      rw [List.foldlM_append]
      exact (Option.bind_assoc _ _ _).symm

/-- With enough fuel `parseLoop` hands over the pairs of the turns up to the one that leaves it. -/
theorem parse_loop_exits {w t : Walk} {es : List (Nat × Option (CStr × CStr))}
    (h : (turn wrap16 size).Exits w es t) {fuel : Nat} (hfuel : es.length < fuel) (st : σ) :
    parseLoop call size fuel w.buf w.c st =
      (handTo call (calls es) st).map fun st => (t.c, st) := by
  obtain ⟨fuel, rfl⟩ := Nat.exists_eq_add_of_lt hfuel
  rw [show es.length + fuel + 1 = fuel + 1 + es.length by omega, parse_loop_turns h.1]
  simp only [parse_loop_left h.2]
  exact (Option.map_eq_bind ..).symm

end Parse

/-- Parsing hands its pairs to `frame__set_var_header`, and reports whether the walk ended outside a
pair. -/
theorem parse_hands (frame : Frame) {block : List Byte} (hlen : block.length < 65536) :
    ∃ c : Cursor, parseLoop record block.length (2 * (block.length + 1)) block ⟨0, 0, 0, 0⟩ [] =
        some (c, handed block) ∧
      frame.parseVarHeader block = (setPairs frame (handed block)).map fun fr =>
        (if c.startKey ≠ 0 then .invalidVarHeaders else .ok, fr) := by
  by_cases hempty : block.length = 0
  · obtain rfl : block = [] := List.length_eq_zero_iff.mp hempty
    exact ⟨⟨0, 0, 0, 0⟩, rfl, rfl⟩
  obtain ⟨es, t, hexits, hturns⟩ := turn_exits hlen (.start block)
  have hfuel := Nat.lt_of_le_of_lt hturns (turns_left_start block.length block)
  have hrec : parseLoop record block.length (2 * (block.length + 1)) block ⟨0, 0, 0, 0⟩ [] =
      some (t.c, calls es) := by
    rw [← List.nil_append (calls es)]
    exact (parse_loop_exits hexits hfuel []).trans (by rw [hand_to_record]; rfl)
  have hhanded : handed block = calls es := by
    unfold handed
    rw [hrec]
    rfl
  refine ⟨t.c, by rw [hrec, hhanded], ?_⟩
  unfold parseVarHeader
  rw [if_neg hempty, hhanded]
  change ((parseLoop setParsed _ _ _ _ frame).bind _) = _
  rw [show parseLoop setParsed block.length _ block ⟨0, 0, 0, 0⟩ frame = _ from
    parse_loop_exits hexits hfuel frame]
  change ((setPairs frame (calls es)).map _).bind _ = _
  cases setPairs frame (calls es) with
  | none => rfl
  | some fr => by_cases h0 : t.c.startKey = 0 <;> simp [h0]

/-- For every block and every 16-bit size the loop is left after at most two passes, whatever is
done with the pairs. -/
theorem parse_loop_terminates {size : Nat} (hsize : size < 65536) (buf : List Byte) :
    ∃ es t, (turn wrap16 size).Exits (.start buf) es t ∧ es.length < 2 * (size + 1) ∧
      ∀ {σ : Type} (call : σ → CStr → CStr → Exec σ) (st : σ),
        parseLoop call size (2 * (size + 1)) buf ⟨0, 0, 0, 0⟩ st =
          (handTo call (calls es) st).map fun st => (t.c, st) := by
  obtain ⟨es, t, hexits, hturns⟩ := turn_exits hsize (.start buf)
  have hfuel := Nat.lt_of_le_of_lt hturns (turns_left_start size buf)
  exact ⟨es, t, hexits, hfuel, fun call st => parse_loop_exits hexits hfuel st⟩

/-- The size at which the index can wrap, with a block of quotes. -/
theorem parse_loop_terminates_longest :
    ∃ es t, (turn wrap16 65535).Exits (.start (List.replicate 65535 quote)) es t ∧
      es.length < 2 * (65535 + 1) ∧
      ∀ {σ : Type} (call : σ → CStr → CStr → Exec σ) (st : σ),
        parseLoop call 65535 (2 * (65535 + 1)) (List.replicate 65535 quote) ⟨0, 0, 0, 0⟩ st =
          (handTo call (calls es) st).map fun st => (t.c, st) :=
  parse_loop_terminates (by decide) _

end Bpsp.Frame
