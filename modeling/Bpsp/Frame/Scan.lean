import Bpsp.Frame.Accounting

/-!
# Parsing header blocks

`frame__parse_var_header` walks over the block with a 16-bit cursor, remembers where a key and a
value start, and writes NULs into the block to cut out the strings it hands to
`frame__set_var_header`. `scanBytes` describes the same walk as an automaton over the bytes.
-/

namespace Bpsp.Frame

open CLib

/-- The character `"`. -/
def quote : Byte := 34

/-- The character `\`. -/
def backslash : Byte := 92

/-- The local variables of `frame__parse_var_header`. -/
structure Cursor where
  n : Nat
  startKey : Nat
  endKey : Nat
  startValue : Nat

/-- The loop of `frame__parse_var_header`, for any function in the place of
`frame__set_var_header`. A block can be passed at most twice, as the first pass overwrites a closing
quote that is its last byte. -/
def parseLoop {σ : Type} (call : σ → CStr → CStr → Exec σ) (size : Nat) :
    Nat → List Byte → Cursor → σ → Exec (Cursor × σ)
  | 0, _, _, _ => none
  | fuel + 1, buf, c, st =>
      if c.n < size then
        if c.n ≠ 0 ∧ (buf[c.n]? ≠ some quote ∨ buf[c.n - 1]? = some backslash) then
          parseLoop call size fuel buf { c with n := (c.n + 1) % 65536 } st
        else if c.startKey = 0 then
          parseLoop call size fuel buf
            { c with startKey := (c.n + 1) % 65536, n := (c.n + 1) % 65536 } st
        else if c.endKey = 0 then
          parseLoop call size fuel buf { c with endKey := c.n, n := (c.n + 1) % 65536 } st
        else if c.startValue = 0 then
          parseLoop call size fuel buf
            { c with startValue := (c.n + 1) % 65536, n := (c.n + 1) % 65536 } st
        else do
          let buf := (buf.set c.endKey 0).set c.n 0
          let st ← call st (CStr.ofBytes (buf.drop c.startKey))
            (CStr.ofBytes (buf.drop c.startValue))
          -- the byte after the pair is skipped
          parseLoop call size fuel buf ⟨(c.n + 2) % 65536, 0, 0, 0⟩ st
      else some (c, st)

/-- `frame__parse_var_header`. The status of setting a header is ignored. -/
def parseVarHeader (frame : Frame) (buf : List Byte) : Exec (Status × Frame) :=
  if buf.length = 0 then some (.ok, frame)
  else do
    let call := fun (frame : Frame) key value => (frame.setVarHeader key (some value)).map Prod.snd
    let (c, frame) ← parseLoop call buf.length (2 * (buf.length + 1)) buf ⟨0, 0, 0, 0⟩ frame
    if c.startKey ≠ 0 then some (.invalidVarHeaders, frame) else some (.ok, frame)

/-- Where the walk is: before a key, in one, between key and value, in a value, or at the byte
after a pair. -/
inductive Mode where
  | outside
  | key (k : List Byte)
  | gap (k : List Byte)
  | value (k v : List Byte)
  | skip

/-- The pairs of a block from the current byte on, and whether the block ends outside a pair. A
quote counts when the byte before it (`prev`) is not a backslash. -/
def scanBytes : Mode → Byte → List Byte → List (List Byte × List Byte) × Bool
  | .outside, _, [] => ([], true)
  | .skip, _, [] => ([], true)
  | .key _, _, [] => ([], false)
  | .gap _, _, [] => ([], false)
  | .value _ _, _, [] => ([], false)
  | .outside, prev, b :: rest =>
      if b = quote ∧ prev ≠ backslash then scanBytes (.key []) b rest
      else scanBytes .outside b rest
  | .key k, prev, b :: rest =>
      if b = quote ∧ prev ≠ backslash then scanBytes (.gap k) b rest
      else scanBytes (.key (k ++ [b])) b rest
  | .gap k, prev, b :: rest =>
      if b = quote ∧ prev ≠ backslash then scanBytes (.value k []) b rest
      else scanBytes (.gap k) b rest
  | .value k v, prev, b :: rest =>
      if b = quote ∧ prev ≠ backslash then
        ((k, v) :: (scanBytes .skip b rest).1, (scanBytes .skip b rest).2)
      else scanBytes (.value k (v ++ [b])) b rest
  | .skip, _, b :: rest => scanBytes .outside b rest

/-- The raw texts of the pairs of a block: its first byte opens a key, whatever it is. -/
def scan : List Byte → List (List Byte × List Byte) × Bool
  | [] => ([], true)
  | b :: rest => scanBytes (.key []) b rest

/-- The strings of the pairs: a text ends at its first NUL. -/
def pairs (block : List Byte) : List (CStr × CStr) :=
  (scan block).1.map fun p => (CStr.ofBytes p.1, CStr.ofBytes p.2)

/-- Hands the pairs to `call` one after another. -/
def feed {σ : Type} (call : σ → CStr → CStr → Exec σ) (st : σ)
    (ps : List (List Byte × List Byte)) : Exec σ :=
  ps.foldlM (fun st p => call st (CStr.ofBytes p.1) (CStr.ofBytes p.2)) st

/-- What the calls of the parser keep, the parser keeps. -/
theorem parse_loop_keeps {σ : Type} {call : σ → CStr → CStr → Exec σ} {Q : σ → Prop} {size : Nat}
    (hcall : ∀ {st st' k v}, Q st → k.length ≤ size → v.length ≤ size → call st k v = some st' →
      Q st') (fuel : Nat) :
    ∀ {buf : List Byte} {c : Cursor} {st : σ} {r : Cursor × σ}, buf.length = size → Q st →
      parseLoop call size fuel buf c st = some r → Q r.2 := by
  induction fuel with
  | zero =>
      intro buf c st r _ _ hrun
      cases hrun
  | succ fuel ih =>
      intro buf c st r hlen hst hrun
      unfold parseLoop at hrun
      split_ifs at hrun with h1 h2 h3 h4 h5
      · exact ih hlen hst hrun
      · exact ih hlen hst hrun
      · exact ih hlen hst hrun
      · exact ih hlen hst hrun
      · simp only [bind, Option.bind_eq_some_iff] at hrun
        obtain ⟨st', hset, hrun⟩ := hrun
        have hcut : ∀ (n : Nat) (l : List Byte), l.length = size →
            (CStr.ofBytes (l.drop n)).length ≤ size := by
          intro n l hl
          have := CStr.length_ofBytes_le (l.drop n)
          rw [List.length_drop] at this
          omega
        refine ih (by simpa using hlen) (hcall hst ?_ ?_ hset) hrun
        · exact hcut _ _ (by simpa using hlen)
        · exact hcut _ _ (by simpa using hlen)
      · rw [← Option.some.inj hrun]
        exact hst

/-- One header from the parser, whatever the status. -/
def setParsed (frame : Frame) (key value : CStr) : Exec Frame :=
  (frame.setVarHeader key (some value)).map Prod.snd

/-- Sets pairs one after another, whatever the status. -/
def setPairs (fr : Frame) (ps : List (CStr × CStr)) : Exec Frame :=
  ps.foldlM (fun fr p => setParsed fr p.1 p.2) fr

theorem setPairs_cons (fr : Frame) (p : CStr × CStr) (ps : List (CStr × CStr)) :
    setPairs fr (p :: ps) = (setParsed fr p.1 p.2).bind fun fr => setPairs fr ps := rfl

/-- Setting values that are not empty is defined when every header has a value. -/
theorem Valued.set_pairs {ps : List (CStr × CStr)} : ∀ {fr : Frame}, Valued fr.varHeaders →
    (∀ p ∈ ps, p.2.length ≠ 0) → ∃ fr', setPairs fr ps = some fr' ∧ Valued fr'.varHeaders := by
  induction ps with
  | nil => exact fun {fr} h _ => ⟨fr, rfl, h⟩
  | cons p ps ih =>
      intro fr h hvalues
      obtain ⟨r, hset, hr⟩ := h.set p.1 (Or.inl (hvalues p List.mem_cons_self))
      obtain ⟨fr', hrest, hfr'⟩ := ih hr fun q hq => hvalues q (List.mem_cons_of_mem _ hq)
      refine ⟨fr', ?_, hfr'⟩
      rw [setPairs_cons, setParsed, hset]
      exact hrest

/-- Remembers a pair. -/
def record (ps : List (CStr × CStr)) (key value : CStr) : Exec (List (CStr × CStr)) :=
  some (ps ++ [(key, value)])

/-- The pairs that the parser hands to `frame__set_var_header`, in order. -/
def handed (block : List Byte) : List (CStr × CStr) :=
  ((parseLoop record block.length (2 * (block.length + 1)) block ⟨0, 0, 0, 0⟩ []).map
    Prod.snd).getD []

theorem feed_record (ps : List (CStr × CStr)) (raw : List (List Byte × List Byte)) :
    feed record ps raw = some (ps ++ raw.map fun p => (CStr.ofBytes p.1, CStr.ofBytes p.2)) := by
  induction raw generalizing ps with
  | nil => simp [feed]
  | cons p raw ih =>
      show feed record (ps ++ [(CStr.ofBytes p.1, CStr.ofBytes p.2)]) raw = _
      rw [ih, List.map_cons, List.append_assoc, List.singleton_append]

end Bpsp.Frame
