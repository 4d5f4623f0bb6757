import Bpsp.CLib.CString

/-!
# Splitting a topic into levels

`topic__extract_token` cuts a copy of the topic with `strtok_r` and counts the tokens; every later
consumer walks the cut buffer with `topic__next_token`, by string length plus one. `levels` is the
sequence of strings that this walk visits. Read `levels_spec` first: an accepted topic has at least
one level, and none but the last is `*`.

The two walks differ when separators are repeated: `strtok_r` skips the second of two slashes,
while the walk finds it at the start of the next level.
-/

namespace Bpsp.Topic

open CLib

/-- The separator of levels. -/
def slash : Byte := 47

/-- The multi-level wildcard. -/
def star : CStr := .ofString "*"

/-- The single-level wildcard. -/
def plus : CStr := .ofString "+"

/-- The buffer that `strtok_r` works on: the part before `saveptr`, as it stands after the NULs
written so far, and the untouched part from `saveptr` on. -/
structure Tokenizer where
  past : List Byte
  rest : List Byte

/-- `strtok_r(…, "/", &saveptr)`: the offset and the bytes of the next token, if there is one. The
separator that ends the token is overwritten by a NUL. -/
def strtokR (tz : Tokenizer) : Option (Nat × List Byte) × Tokenizer :=
  let sep := tz.rest.takeWhile (· = slash)
  let body := tz.rest.dropWhile (· = slash)
  let tok := body.takeWhile (· ≠ slash)
  if body = [] then (none, ⟨tz.past ++ sep, []⟩)
  else
    match body.dropWhile (· ≠ slash) with
    | [] => (some ((tz.past ++ sep).length, tok), ⟨tz.past ++ sep ++ tok, []⟩)
    | _ :: rest => (some ((tz.past ++ sep).length, tok), ⟨tz.past ++ sep ++ tok ++ [0], rest⟩)

/-- The loop of `topic__extract_token`: counts the tokens from `tok` on and refuses a `*` that
another token follows. A token has at least one byte, so the length of the topic is enough fuel. -/
def extractLoop : Nat → Option (Nat × List Byte) → Tokenizer → Nat → Option (Nat × Tokenizer)
  | _, none, tz, nTok => some (nTok, tz)
  | 0, some _, _, _ => none
  | fuel + 1, some tok, tz, nTok =>
      let (nextTok, tz) := strtokR tz
      if tok.2 = star.bytes ∧ nextTok.isSome then none
      else extractLoop fuel nextTok tz (nTok + 1)

/-- `topic__extract_token`: the number of tokens and the cut buffer from the first token on, or
`none` for `BPSP_INVALID_TOPIC`. -/
def extractToken (topic : CStr) : Option (Nat × List Byte) :=
  if topic.length = 0 then none
  else if topic.bytes.head? = some slash ∨ topic.bytes.getLast? = some slash then none
  else
    let (tok, tz) := strtokR ⟨[], topic.bytes⟩
    match extractLoop topic.length tok tz 0 with
    | none => none
    | some (nTok, tz) =>
        match tok with
        | none => none
        | some (offset, _) =>
            if nTok = 0 then none else some (nTok, (tz.past ++ tz.rest).drop offset)

/-- `topic__next_token`. -/
def nextToken (curTok : List Byte) : List Byte := curTok.drop ((CStr.ofBytes curTok).length + 1)

/-- `topic__token_to_array`: the strings met on a walk over `nTok` tokens. -/
def tokenToArray : Nat → List Byte → List CStr
  | 0, _ => []
  | nTok + 1, curTok => CStr.ofBytes curTok :: tokenToArray nTok (nextToken curTok)

/-- The levels that the code walks for a topic, when `topic__extract_token` accepts it. -/
def levels (topic : CStr) : Option (List CStr) :=
  (extractToken topic).map fun (nTok, firstTok) => tokenToArray nTok firstTok

/-- What `strtok_r` returns and leaves behind: the rest is separators, a token and an unread tail
that starts with a separator. -/
theorem strtok_cases (tz : Tokenizer) :
    ((strtokR tz).1 = none ∧ (strtokR tz).2 = ⟨tz.past ++ tz.rest, []⟩ ∧
      ∀ b ∈ tz.rest, b = slash) ∨
    ∃ sep tok tail, tz.rest = sep ++ tok ++ tail ∧ (∀ b ∈ sep, b = slash) ∧ tok ≠ [] ∧
      slash ∉ tok ∧ (tail = [] ∨ tail.head? = some slash) ∧
      (strtokR tz).1 = some (tz.past.length + sep.length, tok) ∧
      (strtokR tz).2 = ⟨tz.past ++ sep ++ tok ++ (if tail = [] then [] else [0]), tail.drop 1⟩ := by
  have hsplit := List.takeWhile_append_dropWhile (p := fun b : Byte => decide (b = slash))
    (l := tz.rest)
  have hsep : ∀ b ∈ tz.rest.takeWhile (· = slash), b = slash := by
    intro b hb
    simpa using List.mem_takeWhile_imp hb
  by_cases hbody : tz.rest.dropWhile (· = slash) = []
  · left
    rw [hbody, List.append_nil] at hsplit
    refine ⟨by simp [strtokR, hbody], by simp [strtokR, hbody, hsplit], ?_⟩
    rwa [← hsplit]
  · right
    have hbodySplit := List.takeWhile_append_dropWhile (p := fun b : Byte => decide (b ≠ slash))
      (l := tz.rest.dropWhile (· = slash))
    refine ⟨_, (tz.rest.dropWhile (· = slash)).takeWhile (· ≠ slash),
      (tz.rest.dropWhile (· = slash)).dropWhile (· ≠ slash), ?_, hsep, ?_, ?_, ?_, ?_, ?_⟩
    · rw [List.append_assoc, hbodySplit, hsplit]
    · obtain ⟨b, body, hcons⟩ := List.exists_cons_of_ne_nil hbody
      have hb : b ≠ slash := by
        have := List.head_dropWhile_not (fun b : Byte => decide (b = slash)) hbody
        simpa [hcons] using this
      simp [hcons, hb]
    · intro hmem
      simpa using List.mem_takeWhile_imp hmem
    · cases htail : (tz.rest.dropWhile (· = slash)).dropWhile (· ≠ slash) with
      | nil => exact Or.inl rfl
      | cons b tail =>
          have hne : (tz.rest.dropWhile (· = slash)).dropWhile (· ≠ slash) ≠ [] := by
            rw [htail]
            exact List.cons_ne_nil b tail
          have hhead := List.head_dropWhile_not (fun b : Byte => decide (b ≠ slash)) hne
          simp only [htail, List.head_cons, decide_eq_false_iff_not, not_not] at hhead
          exact Or.inr (by simp [hhead])
    · simp only [strtokR, hbody, if_false]
      split <;> simp
    · simp only [strtokR, hbody, if_false]
      split
      · rename_i htail
        rw [htail]
        simp
      · rename_i htail
        rw [htail]
        simp

theorem star_bytes : star.bytes = [42] := by decide

/-- Stepping over a string that ends in a NUL. -/
theorem token_to_array_terminated (nTok : Nat) (s : CStr) (rest : List Byte) :
    tokenToArray (nTok + 1) (s.bytes ++ 0 :: rest) = s :: tokenToArray nTok rest := by
  simp only [tokenToArray, nextToken, CStr.ofBytes_terminated]
  have hdrop : (s.bytes ++ 0 :: rest).drop (s.length + 1) = rest := by
    rw [List.append_cons, show s.length + 1 = (s.bytes ++ [0]).length by simp [CStr.length]]
    exact List.drop_left
  rw [hdrop]

/-- A text as separators and tokens: each piece is the separators before a token, beyond the one that
ends the token before it, and the token. -/
inductive Pieces : List Byte → List (List Byte × List Byte) → Prop where
  | nil {rest : List Byte} (hrest : ∀ b ∈ rest, b = slash) : Pieces rest []
  | last {sep tok : List Byte} (hsep : ∀ b ∈ sep, b = slash) (hne : tok ≠ []) (htok : slash ∉ tok) :
      Pieces (sep ++ tok) [(sep, tok)]
  | cons {sep tok rest : List Byte} {ps : List (List Byte × List Byte)}
      (hsep : ∀ b ∈ sep, b = slash) (hne : tok ≠ []) (htok : slash ∉ tok) (hrest : Pieces rest ps) :
      Pieces (sep ++ tok ++ slash :: rest) ((sep, tok) :: ps)

/-- The strings that a walk over the pieces meets. -/
def visited (ps : List (List Byte × List Byte)) : List (List Byte) := ps.map fun p => p.1 ++ p.2

theorem Pieces.of_strtok {sep tok tail : List Byte} {ps : List (List Byte × List Byte)}
    (hsep : ∀ b ∈ sep, b = slash) (hne : tok ≠ []) (htok : slash ∉ tok)
    (htail : tail = [] ∨ tail.head? = some slash) (hps : Pieces (tail.drop 1) ps)
    (hend : tail = [] → ps = []) : Pieces (sep ++ tok ++ tail) ((sep, tok) :: ps) := by
  cases tail with
  | nil =>
      rw [List.append_nil, hend rfl]
      exact Pieces.last hsep hne htok
  | cons b rest =>
      obtain rfl : b = slash := by simpa using htail
      exact Pieces.cons hsep hne htok hps

/-- A walk over a buffer that starts with a piece. -/
theorem token_to_array_piece {sep tok tail X : List Byte} {ps : List (List Byte × List Byte)}
    (hnul : (0 : Byte) ∉ sep ++ tok) (hend : tail = [] → ps = [] ∧ X = [])
    (hwalk : (tokenToArray ps.length X).map CStr.bytes = visited ps) :
    (tokenToArray (ps.length + 1) (sep ++ tok ++ (if tail = [] then [] else [0]) ++ X)).map
      CStr.bytes = visited ((sep, tok) :: ps) := by
  by_cases htail : tail = []
  · obtain ⟨rfl, rfl⟩ := hend htail
    simp [htail, tokenToArray, visited, CStr.bytes_ofBytes hnul]
  · have hstep := token_to_array_terminated ps.length ⟨sep ++ tok, hnul⟩ X
    simp only [htail, if_false, List.append_assoc, List.singleton_append] at hstep ⊢
    rw [hstep, List.map_cons, hwalk]
    rfl

/-- The loop of `topic__extract_token` leaves a buffer whose walk meets the pieces after `tok`. A
`*` is refused when a token follows. -/
theorem extract_loop_spec {fuel nTok nTok' : Nat} {tok : Nat × List Byte} {tz tz' : Tokenizer}
    (hnul : (0 : Byte) ∉ tz.rest) (h : extractLoop fuel (some tok) tz nTok = some (nTok', tz')) :
    ∃ ps tail, Pieces tz.rest ps ∧ nTok' = nTok + 1 + ps.length ∧
      tz'.past ++ tz'.rest = tz.past ++ tail ∧ (tz.rest = [] → ps = [] ∧ tail = []) ∧
      (tokenToArray ps.length tail).map CStr.bytes = visited ps ∧
      (ps ≠ [] → tok.2 ≠ star.bytes) ∧ ∀ p ∈ ps.dropLast, p.2 ≠ star.bytes := by
  induction fuel generalizing tok tz nTok with
  | zero => simp [extractLoop] at h
  | succ fuel ih =>
      simp only [extractLoop] at h
      split_ifs at h with hstar
      rcases strtok_cases tz with ⟨hnone, htz, hall⟩ |
        ⟨sep, tok₂, tail, hrest, hsep, hne, hslash, htail, htok, htz⟩
      · rw [hnone, htz] at h
        simp only [extractLoop, Option.some.injEq, Prod.mk.injEq] at h
        obtain ⟨rfl, rfl⟩ := h
        exact ⟨[], tz.rest, Pieces.nil hall, rfl, by simp, fun h0 => ⟨rfl, h0⟩, rfl,
          fun h0 => absurd rfl h0, by simp⟩
      · rw [htok, htz] at h
        have hnul' : (0 : Byte) ∉ sep ++ tok₂ ∧ (0 : Byte) ∉ tail := by
          rw [hrest] at hnul
          simpa [and_assoc] using hnul
        obtain ⟨ps, X, hps, hcount, hpast, hend, hwalk, hnotStar, hstars⟩ :=
          ih (fun h0 => hnul'.2 (List.mem_of_mem_drop h0)) h
        have hend' : tail = [] → ps = [] ∧ X = [] := fun h0 => hend (by simp [h0])
        have htokNe : tok.2 ≠ star.bytes := fun heq => hstar ⟨heq, by rw [htok]; rfl⟩
        refine ⟨(sep, tok₂) :: ps, sep ++ tok₂ ++ (if tail = [] then [] else [0]) ++ X, ?_, ?_, ?_,
          ?_, ?_, fun _ => htokNe, ?_⟩
        · rw [hrest]
          exact Pieces.of_strtok hsep hne hslash htail hps fun h0 => (hend' h0).1
        · rw [hcount, List.length_cons]
          omega
        · rw [hpast]
          simp
        · intro hnil
          simp [hne, hnil] at hrest
        · exact token_to_array_piece hnul'.1 hend' hwalk
        · cases ps with
          | nil => simp
          | cons p ps =>
              rw [List.dropLast_cons_of_ne_nil (List.cons_ne_nil p ps)]
              intro q hq
              rcases List.mem_cons.mp hq with rfl | hq
              · exact hnotStar (List.cons_ne_nil p ps)
              · exact hstars q hq

/-- What `topic__extract_token` accepts: a topic of pieces that does not start with a separator, in
which `*` stands at most at the end. The walk meets its pieces. -/
theorem extract_token_spec {topic : CStr} {nTok : Nat} {firstTok : List Byte}
    (h : extractToken topic = some (nTok, firstTok)) :
    topic.bytes.head? ≠ some slash ∧ topic.bytes.getLast? ≠ some slash ∧
    ∃ ps, Pieces topic.bytes ps ∧ ps ≠ [] ∧ (tokenToArray nTok firstTok).map CStr.bytes = visited ps ∧
      ∀ p ∈ ps.dropLast, p.2 ≠ star.bytes := by
  simp only [extractToken] at h
  split_ifs at h with hlen hslash
  rw [not_or] at hslash
  refine ⟨hslash.1, hslash.2, ?_⟩
  rcases strtok_cases ⟨[], topic.bytes⟩ with ⟨hnone, -, -⟩ |
    ⟨sep, tok, tail, hrest, hsep, hne, hfree, htail, htok, htz⟩
  · simp only [hnone] at h
    split at h <;> simp at h
  · have hrest : topic.bytes = sep ++ tok ++ tail := hrest
    have hsepNil : sep = [] := by
      cases sep with
      | nil => rfl
      | cons b rest =>
          refine absurd ?_ hslash.1
          rw [hrest, hsep b List.mem_cons_self]
          rfl
    subst hsepNil
    simp only [htok, htz] at h
    split at h
    · simp at h
    · rename_i nTok' tz' hloop
      simp only [List.length_nil, Nat.add_zero, List.drop_zero] at h
      split_ifs at h with hzero
      simp only [Option.some.injEq, Prod.mk.injEq] at h
      obtain ⟨rfl, rfl⟩ := h
      have hnul : (0 : Byte) ∉ [] ++ tok ∧ (0 : Byte) ∉ tail := by
        have := topic.nul_free
        rw [hrest] at this
        simpa using this
      obtain ⟨ps, X, hps, hcount, hpast, hend, hwalk, hnotStar, hstars⟩ :=
        extract_loop_spec (fun h0 => hnul.2 (List.mem_of_mem_drop h0)) hloop
      have hend' : tail = [] → ps = [] ∧ X = [] := fun h0 => hend (by simp [h0])
      refine ⟨([], tok) :: ps, ?_, List.cons_ne_nil _ _, ?_, ?_⟩
      · rw [hrest]
        exact Pieces.of_strtok hsep hne hfree htail hps fun h0 => (hend' h0).1
      · rw [hpast, show nTok' = ps.length + 1 by omega]
        exact token_to_array_piece hnul.1 hend' hwalk
      · cases ps with
        | nil => simp
        | cons p ps =>
            rw [List.dropLast_cons_of_ne_nil (List.cons_ne_nil p ps)]
            intro q hq
            rcases List.mem_cons.mp hq with rfl | hq
            · exact hnotStar (List.cons_ne_nil p ps)
            · exact hstars q hq

theorem Pieces.sep_eq {bytes : List Byte} {ps : List (List Byte × List Byte)} (h : Pieces bytes ps)
    {p : List Byte × List Byte} (hp : p ∈ ps) : ∀ b ∈ p.1, b = slash := by
  induction h with
  | nil => cases hp
  | last hsep =>
      rw [List.mem_singleton.mp hp]
      exact hsep
  | cons hsep _ _ _ ih =>
      rcases List.mem_cons.mp hp with rfl | hp
      · exact hsep
      · exact ih hp

/-- An accepted topic has at least one level, and `*` stands at most at the end. -/
theorem levels_spec {topic : CStr} {ls : List CStr} (h : levels topic = some ls) :
    ls ≠ [] ∧ ∀ t ∈ ls.dropLast, t ≠ star := by
  simp only [levels, Option.map_eq_some_iff, Prod.exists] at h
  obtain ⟨nTok, firstTok, hextract, rfl⟩ := h
  obtain ⟨-, -, ps, hps, hne, hwalk, hstars⟩ := extract_token_spec hextract
  refine ⟨fun h0 => hne ?_, fun t ht heq => ?_⟩
  · rw [h0, List.map_nil] at hwalk
    exact List.map_eq_nil_iff.mp hwalk.symm
  · have hmem : t.bytes ∈ (visited ps).dropLast := by
      rw [← hwalk, ← List.map_dropLast]
      exact List.mem_map_of_mem ht
    unfold visited at hmem
    rw [← List.map_dropLast] at hmem
    obtain ⟨p, hp, hbytes⟩ := List.mem_map.mp hmem
    rw [heq, star_bytes] at hbytes
    -- separators are not stars, so the star is a token
    cases hsep : p.1 with
    | nil => exact hstars p hp (by simpa [hsep, star_bytes] using hbytes)
    | cons b rest =>
        have hb := hps.sep_eq (List.mem_of_mem_dropLast hp) b (by simp [hsep])
        rw [hsep, List.cons_append, hb] at hbytes
        exact absurd (List.cons.inj hbytes).1 (by decide)

end Bpsp.Topic
