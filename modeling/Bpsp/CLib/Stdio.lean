import Bpsp.CLib.CString

/-!
# Reading text line by line

`fgets` on a stream, and the idiom around it: the buffer is cut at its last newline, and a buffer
without one is dropped. `getLine` is that loop. A line longer than the buffer is not refused as a
whole: its end is what is left after as many full buffers as there are, and it is taken for a line
(`get_line_cases`).
-/

namespace CLib

/-- A newline. -/
def newline : Byte := 10

/-- `fgets` with room for `n` bytes beside the NUL: the bytes it stores and what is left of the
stream. At the end of the stream it stores nothing. -/
def fgets : Nat → List Byte → List Byte × List Byte
  | _, [] => ([], [])
  | 0, stream => ([], stream)
  | n + 1, b :: stream =>
      if b = newline then ([b], stream)
      else
        let (buf, stream) := fgets n stream
        (b :: buf, stream)

/-- The string in front of the last `b`, when `strrchr` finds one. -/
def CStr.beforeLast (s : CStr) (b : Byte) : Option CStr :=
  if b ∈ s.bytes then
    some
      { bytes := ((s.bytes.reverse.dropWhile (· ≠ b)).drop 1).reverse
        nul_free := fun h => s.nul_free (List.mem_reverse.mp
          ((List.dropWhile_suffix _).mem (List.mem_of_mem_drop (List.mem_reverse.mp h)))) }
  else none

/-- `tolower` in the C locale. -/
def tolower (b : Byte) : Byte := if 65 ≤ b ∧ b ≤ 90 then b + 32 else b

/-- `strcasecmp(s, t) == 0`. -/
def strcasecmp (s t : CStr) : Bool := s.bytes.map tolower = t.bytes.map tolower

/-- Reads with `fgets` until a buffer has a newline: the text in front of it and what is left of the
stream, or `none` at the end of the stream. Every turn takes at least one byte. -/
def getLine (n : Nat) : Nat → List Byte → Option (CStr × List Byte)
  | 0, _ => none
  | fuel + 1, stream =>
      let (buf, stream) := fgets n stream
      if buf = [] then none
      else
        match (CStr.ofBytes buf).beforeLast newline with
        | none => getLine n fuel stream
        | some text => some (text, stream)

/-- The lines of a stream that end in a newline. -/
def linesOf (stream : List Byte) : List (List Byte) := (stream.splitOn newline).dropLast

/-- What a line comes to when it is read through buffers with room for `n` bytes: full buffers are
dropped, and so is a rest with a NUL. -/
def entered (n : Nat) (line : List Byte) : Option CStr :=
  let text := line.drop (line.length / n * n)
  if 0 ∈ text then none else some (CStr.ofBytes text)

/-- The texts that a stream comes to. -/
def textsOf (n : Nat) (stream : List Byte) : List CStr := (linesOf stream).filterMap (entered n)

section Lines

variable {n : Nat} {line stream : List Byte}

theorem texts_of_rest (h : newline ∉ stream) : textsOf n stream = [] := by
  rw [textsOf, linesOf, List.splitOn_eq_singleton h]
  rfl

theorem texts_of_line (h : newline ∉ line) (rest : List Byte) :
    textsOf n (line ++ newline :: rest) = (entered n line).toList ++ textsOf n rest := by
  rw [textsOf, linesOf, List.splitOn_append_cons_self_of_not_mem h,
    List.dropLast_cons_of_ne_nil (List.splitOn_ne_nil _ _)]
  cases hentered : entered n line with
  | none => rw [List.filterMap_cons_none hentered]; rfl
  | some text => rw [List.filterMap_cons_some hentered]; rfl

/-- A stream has a first line, or no newline at all. -/
theorem first_line (stream : List Byte) : newline ∉ stream ∨
    ∃ line rest, stream = line ++ newline :: rest ∧ newline ∉ line := by
  by_cases h : newline ∈ stream
  · obtain ⟨line, rest, hsplit, hline⟩ := List.eq_append_cons_of_mem h
    exact Or.inr ⟨line, rest, hsplit, hline⟩
  · exact Or.inl h

/-- A full buffer, or what is left of the stream. -/
theorem fgets_full : ∀ {n : Nat} {stream : List Byte}, newline ∉ stream.take n →
    fgets n stream = (stream.take n, stream.drop n) := by
  intro n
  induction n with
  | zero => intro stream _; cases stream <;> rfl
  | succ n ih =>
      intro stream h
      cases stream with
      | nil => rfl
      | cons b stream =>
          rw [List.take_succ_cons, List.mem_cons, not_or] at h
          rw [fgets, if_neg (Ne.symm h.1), ih h.2]
          rfl

/-- A line for which there is room, with its newline. -/
theorem fgets_line : ∀ {n : Nat} {line : List Byte}, newline ∉ line → line.length < n →
    ∀ rest, fgets n (line ++ newline :: rest) = (line ++ [newline], rest) := by
  intro n
  induction n with
  | zero => exact fun _ h => absurd h (Nat.not_lt_zero _)
  | succ n ih =>
      intro line h hlen rest
      cases line with
      | nil => simp [fgets]
      | cons b line =>
          rw [List.mem_cons, not_or] at h
          rw [List.cons_append, fgets, if_neg (Ne.symm h.1),
            ih h.2 (Nat.lt_of_succ_lt_succ hlen) rest]
          rfl

theorem before_last_none {s : CStr} {b : Byte} (h : b ∉ s.bytes) : s.beforeLast b = none :=
  if_neg h

theorem before_last_end {s t : CStr} {b : Byte} (h : s.bytes = t.bytes ++ [b]) :
    s.beforeLast b = some t := by
  have hmem : b ∈ s.bytes := by simp [h]
  rw [CStr.beforeLast, if_pos hmem, Option.some_inj]
  refine CStr.ext ?_
  simp [h]

/-- A buffer without a newline is dropped, and so is one with a NUL in front of it. -/
theorem dropped_of_nul (h : newline ∉ line) (hnul : 0 ∈ line) (rest : List Byte) :
    (CStr.ofBytes (line ++ rest)).beforeLast newline = none := by
  refine before_last_none fun hmem => ?_
  obtain ⟨before, after, rfl, hbefore⟩ := List.eq_append_cons_of_mem hnul
  have htext := CStr.ofBytes_terminated ⟨before, hbefore⟩ (after ++ rest)
  rw [List.append_assoc, List.cons_append, htext] at hmem
  exact h (List.mem_append_left _ hmem)

/-- A line that is cut by full buffers comes to what its rest comes to. -/
theorem entered_drop (hn : 0 < n) (hlen : n ≤ line.length) :
    entered n (line.drop n) = entered n line := by
  have hdiv : n + (line.length - n) / n * n = line.length / n * n := by
    have h := Nat.div_eq_sub_div hn hlen
    rw [h, Nat.add_mul, Nat.one_mul, Nat.add_comm]
  simp only [entered, List.length_drop, List.drop_drop, hdiv]

/-- A line for which there is room is entered as it is. -/
theorem entered_short (hlen : line.length < n) :
    entered n line = if 0 ∈ line then none else some (CStr.ofBytes line) := by
  have hzero : line.length / n * n = 0 := by rw [Nat.div_eq_of_lt hlen, Nat.zero_mul]
  simp only [entered, hzero, List.drop_zero]

/-- One buffer: it is dropped, or cut at its newline, and the texts of the stream are the one it
comes to and those of what is left. -/
theorem fgets_cases (hn : 0 < n) (hne : stream ≠ []) :
    ∃ buf rest, fgets n stream = (buf, rest) ∧ buf ≠ [] ∧ rest.length < stream.length ∧
      textsOf n stream = ((CStr.ofBytes buf).beforeLast newline).toList ++ textsOf n rest := by
  rcases first_line stream with hno | ⟨line, rest, rfl, hline⟩
  · -- no newline is left
    have htake : newline ∉ stream.take n := fun h => hno (List.mem_of_mem_take h)
    have hnone : (CStr.ofBytes (stream.take n)).beforeLast newline = none :=
      before_last_none fun h => htake ((List.takeWhile_prefix _).mem h)
    have hpos : 0 < stream.length := List.length_pos_iff.mpr hne
    refine ⟨_, _, fgets_full htake, by simp [hne, Nat.ne_of_gt hn], ?_, ?_⟩
    · rw [List.length_drop]
      omega
    · rw [hnone, texts_of_rest hno, texts_of_rest fun h => hno (List.mem_of_mem_drop h)]
      rfl
  by_cases hlen : n ≤ line.length
  · -- the buffer is full before the line ends
    have htake : (line ++ newline :: rest).take n = line.take n :=
      List.take_append_of_le_length hlen
    have hdrop : (line ++ newline :: rest).drop n = line.drop n ++ newline :: rest :=
      List.drop_append_of_le_length hlen
    have hbuf := @fgets_full n (line ++ newline :: rest)
      (by rw [htake]; exact fun h => hline (List.mem_of_mem_take h))
    rw [htake, hdrop] at hbuf
    have hnone : (CStr.ofBytes (line.take n)).beforeLast newline = none :=
      before_last_none fun h => hline (List.mem_of_mem_take ((List.takeWhile_prefix _).mem h))
    refine ⟨_, _, hbuf, ?_, ?_, ?_⟩
    · rw [ne_eq, List.take_eq_nil_iff, not_or]
      exact ⟨Nat.ne_of_gt hn, List.ne_nil_of_length_pos (Nat.lt_of_lt_of_le hn hlen)⟩
    · simp only [List.length_append, List.length_drop]
      omega
    · rw [hnone, texts_of_line hline, texts_of_line fun h => hline (List.mem_of_mem_drop h),
        entered_drop hn hlen]
      rfl
  · have hshort : line.length < n := Nat.lt_of_not_le hlen
    refine ⟨_, _, fgets_line hline hshort rest, by simp, ?_, ?_⟩
    · simp only [List.length_append, List.length_cons]
      omega
    · rw [texts_of_line hline, entered_short hshort]
      by_cases hnul : 0 ∈ line
      · rw [if_pos hnul, dropped_of_nul hline hnul]
      · have hall : 0 ∉ line ++ [newline] := by simp [hnul, newline]
        rw [if_neg hnul, before_last_end (t := CStr.ofBytes line)
          (by rw [CStr.bytes_ofBytes hall, CStr.bytes_ofBytes hnul])]

end Lines

/-- What one call returns: the first text of the stream and a shorter stream with the others, or the
end of a stream without any. -/
theorem get_line_cases {n : Nat} (hn : 0 < n) : ∀ {fuel : Nat} {stream : List Byte},
    stream.length < fuel →
      (getLine n fuel stream = none ∧ textsOf n stream = []) ∨
      ∃ text rest, getLine n fuel stream = some (text, rest) ∧
        textsOf n stream = text :: textsOf n rest ∧ rest.length < stream.length := by
  intro fuel
  induction fuel with
  | zero => exact fun h => absurd h (Nat.not_lt_zero _)
  | succ fuel ih =>
      intro stream hfuel
      by_cases hne : stream = []
      · subst hne
        exact Or.inl ⟨by simp [getLine, fgets], texts_of_rest List.not_mem_nil⟩
      obtain ⟨buf, rest, hbuf, hbufNe, hlt, htexts⟩ := fgets_cases hn hne
      rw [getLine, hbuf]
      cases hcut : (CStr.ofBytes buf).beforeLast newline with
      | none =>
          rw [hcut, Option.toList_none, List.nil_append] at htexts
          simp only [if_neg hbufNe, hcut, htexts]
          rcases @ih rest (by omega) with hend | ⟨text, more, hrun, hmore, hlt'⟩
          · exact Or.inl hend
          · exact Or.inr ⟨text, more, hrun, hmore, Nat.lt_trans hlt' hlt⟩
      | some text =>
          rw [hcut] at htexts
          simp only [if_neg hbufNe, hcut]
          exact Or.inr ⟨text, rest, rfl, htexts, hlt⟩

example : textsOf 4 [97, 98, 10, 97, 98, 99, 100, 101, 10, 102] =
    [.ofString "ab", .ofString "e"] := by decide

end CLib
