import Bpsp.Status
import Bpsp.Topic.Separators

/-!
# Which topics are accepted

`topic__extract_token` with all that it leaves behind: the branch it returns from, and where
`first_tok` points in the copy of the topic. `extract_token_iff` relates this to the topic itself:
the loop looks one token ahead, and refuses a `*` exactly when a level follows it.
-/

namespace Bpsp.Topic

open CLib

/-- The branches in which `topic__extract_token` returns `BPSP_INVALID_TOPIC`, in their order. -/
inductive Refusal where
  | empty
  | separator
  | wildcard
  | noLevel
  deriving DecidableEq

/-- What `topic__extract_token` leaves behind. When it accepts, `firstTok` is the offset of
`*first_tok` in the copy of the topic, and `copy` the bytes of the copy; `none` is a NULL pointer.
`*n_tok` is an `int`, which the levels of a topic that fits in a header cannot exceed. -/
inductive Extracted where
  | refused (cause : Refusal)
  | accepted (nTok : Nat) (firstTok : Option Nat) (copy : List Byte)

/-- The value that is returned. -/
def Extracted.status : Extracted → Status
  | .refused _ => .invalidTopic
  | .accepted _ _ _ => .ok

/-- `topic__extract_token`, branch by branch. -/
def extract (topic : CStr) : Extracted :=
  if topic.length = 0 then .refused .empty
  else if topic.bytes.head? = some slash ∨ topic.bytes.getLast? = some slash then
    .refused .separator
  else
    let (tok, tz) := strtokR ⟨[], topic.bytes⟩
    match extractLoop topic.length tok tz 0 with
    | none => .refused .wildcard
    | some (nTok, tz) =>
        if nTok = 0 then .refused .noLevel
        else .accepted nTok (tok.map Prod.fst) (tz.past ++ tz.rest)

/-- No level other than the last is `*`. -/
def StarAtEnd (levels : List (List Byte)) : Prop := ∀ l ∈ levels.dropLast, l ≠ star.bytes

/-- A topic that is not empty, neither starts nor ends with a separator, and has no `*` before its
last level. -/
structure Valid (topic : CStr) : Prop where
  nonempty : topic.bytes ≠ []
  head : topic.bytes.head? ≠ some slash
  last : topic.bytes.getLast? ≠ some slash
  stars : StarAtEnd (runs topic.bytes)

/-- What is to hold of `topic__extract_token`. -/
def ExtractsLevels (topic : CStr) : Extracted → Prop
  | .refused cause => ¬ Valid topic ∧ cause ≠ .noLevel
  | .accepted nTok firstTok copy => Valid topic ∧ nTok = (runs topic.bytes).length ∧ 1 ≤ nTok ∧
      firstTok = some 0 ∧ some (CStr.ofBytes copy).bytes = (runs topic.bytes).head?

theorem star_at_end_cons {l l' : List Byte} {ls : List (List Byte)} :
    StarAtEnd (l :: l' :: ls) ↔ l ≠ star.bytes ∧ StarAtEnd (l' :: ls) := by
  unfold StarAtEnd
  rw [List.dropLast_cons_of_ne_nil (List.cons_ne_nil _ _), List.forall_mem_cons]

/-- The loop goes through when no `*` is followed by another token. A token has at least one byte,
so the fuel lasts. -/
theorem extract_loop_accepts (fuel : Nat) : ∀ {tok : Nat × List Byte} {tz : Tokenizer} {nTok : Nat},
    tz.rest.length < fuel → StarAtEnd (tok.2 :: runs tz.rest) →
      (extractLoop fuel (some tok) tz nTok).isSome := by
  induction fuel with
  | zero => exact fun h => absurd h (Nat.not_lt_zero _)
  | succ fuel ih =>
      intro tok tz nTok hfuel hstars
      unfold extractLoop
      rcases strtok_cases tz with ⟨hnone, -, -⟩ |
        ⟨sep, tok₂, tail, hrest, hsep, hne, hfree, htail, htok, htz⟩
      · simp only [hnone, Option.isSome_none, Bool.false_eq_true, and_false, if_false]
        cases fuel <;> rfl
      · rw [hrest, runs_strtok hsep hne hfree htail, star_at_end_cons] at hstars
        have hshort : (tail.drop 1).length < fuel :=
          Nat.lt_of_lt_of_le (length_after_token hrest hne) (Nat.le_of_lt_succ hfuel)
        have hnotStar : ¬ (tok.2 = star.bytes ∧ ((strtokR tz).1).isSome) := fun h0 => hstars.1 h0.1
        simp only [hnotStar, if_false]
        rw [htok, htz]
        exact ih hshort hstars.2

/-- The tokens that the loop of `topic__extract_token` counts, and what it refuses. -/
theorem extract_loop_counts {fuel nTok nTok' : Nat} {tok : Nat × List Byte} {tz tz' : Tokenizer}
    (hnul : (0 : Byte) ∉ tz.rest) (h : extractLoop fuel (some tok) tz nTok = some (nTok', tz')) :
    nTok' = nTok + (tok.2 :: runs tz.rest).length ∧ StarAtEnd (tok.2 :: runs tz.rest) ∧
      ∃ tail, tz'.past ++ tz'.rest = tz.past ++ tail ∧ (tz.rest = [] → tail = []) := by
  obtain ⟨ps, tail, hps, hcount, hpast, hend, -, hfirst, hstars⟩ := extract_loop_spec hnul h
  rw [hps.runs_eq, List.length_cons, List.length_map]
  refine ⟨by omega, ?_, tail, hpast, fun h0 => (hend h0).2⟩
  cases ps with
  | nil => simp [StarAtEnd]
  | cons p ps =>
      rw [List.map_cons, star_at_end_cons]
      refine ⟨hfirst (List.cons_ne_nil _ _), fun l hl => ?_⟩
      rw [← List.map_cons (f := Prod.snd), ← List.map_dropLast] at hl
      obtain ⟨q, hq, rfl⟩ := List.mem_map.mp hl
      exact hstars q hq

/-- The string at the start of the copy is the first token. -/
theorem first_level {tok tail : List Byte} (hnul : (0 : Byte) ∉ tok) {rest : List Byte}
    (hrest : tail = [] → rest = []) :
    (CStr.ofBytes (tok ++ (if tail = [] then [] else [0]) ++ rest)).bytes = tok := by
  by_cases htail : tail = []
  · simp [htail, hrest htail, CStr.bytes_ofBytes hnul]
  · have hcut := CStr.ofBytes_terminated ⟨tok, hnul⟩ rest
    simp only [htail, if_false, List.append_assoc, List.singleton_append]
    rw [hcut]

/-- Each branch of `topic__extract_token` is taken for the topics that it is meant for. -/
theorem extract_levels (topic : CStr) : ExtractsLevels topic (extract topic) := by
  unfold extract
  split_ifs with hlen hslash
  · exact ⟨fun h => h.nonempty (CStr.length_eq_zero_iff.mp hlen), by decide⟩
  · exact ⟨fun h => hslash.elim h.head h.last, by decide⟩
  · rw [not_or] at hslash
    have hne : topic.bytes ≠ [] := fun h0 => hlen (CStr.length_eq_zero_iff.mpr h0)
    rcases strtok_cases ⟨[], topic.bytes⟩ with ⟨-, -, hall⟩ |
      ⟨sep, tok, tail, hrest, hsep, htokNe, hfree, htail, htok, htz⟩
    · obtain ⟨b, rest, hbytes⟩ := List.exists_cons_of_ne_nil hne
      refine absurd ?_ hslash.1
      rw [hbytes, hall b (by simp [hbytes])]
      rfl
    · have hrest : topic.bytes = sep ++ tok ++ tail := hrest
      obtain rfl : sep = [] := by
        by_contra hsepNe
        obtain ⟨b, rest, hsepEq⟩ := List.exists_cons_of_ne_nil hsepNe
        refine hslash.1 ?_
        rw [hrest, hsepEq, hsep b (by simp [hsepEq])]
        rfl
      have hruns : runs topic.bytes = tok :: runs (tail.drop 1) := by
        rw [hrest, runs_strtok hsep htokNe hfree htail]
      have hshort := length_after_token hrest htokNe
      have hnul : (0 : Byte) ∉ tok ∧ (0 : Byte) ∉ tail := by
        have := topic.nul_free
        rw [hrest] at this
        simpa using this
      rw [show strtokR ⟨[], topic.bytes⟩ = (some (0, tok), (strtokR ⟨[], topic.bytes⟩).2) from
        Prod.ext htok rfl, htz]
      dsimp only
      cases hloop : extractLoop topic.length (some (0, tok))
          ⟨[] ++ [] ++ tok ++ if tail = [] then [] else [0], tail.drop 1⟩ 0 with
      | none =>
          refine ⟨fun h => ?_, by decide⟩
          have hstars := h.stars
          rw [hruns] at hstars
          have haccepts := @extract_loop_accepts topic.length (0, tok)
            ⟨[] ++ [] ++ tok ++ if tail = [] then [] else [0], tail.drop 1⟩ 0 hshort hstars
          rw [hloop] at haccepts
          cases haccepts
      | some found =>
          obtain ⟨nTok, tz⟩ := found
          obtain ⟨hcount, hstars, rest, hcopy, hend⟩ :=
            extract_loop_counts (fun h0 => hnul.2 (List.mem_of_mem_drop h0)) hloop
          dsimp only at hcount hcopy hend hstars
          rw [← hruns] at hcount hstars
          rw [Nat.zero_add] at hcount
          have hpos : nTok ≠ 0 := by
            rw [hcount, hruns, List.length_cons]
            omega
          dsimp only
          rw [if_neg hpos]
          refine ⟨⟨hne, hslash.1, hslash.2, hstars⟩, hcount, by omega, rfl, ?_⟩
          rw [hcopy, hruns, List.head?_cons]
          refine congrArg some (first_level hnul.1 fun h0 => hend ?_)
          rw [h0, List.drop_nil]

/-- For every topic, `topic__extract_token` accepts it exactly when it is not empty, neither starts
nor ends with a separator and has no `*` before its last level. It then counts the levels, and
`first_tok` points to the first level at the start of the copy. Otherwise it returns
`BPSP_INVALID_TOPIC`, but never from the branch for a topic without levels. -/
theorem extract_token_iff (topic : CStr) :
    ((extract topic).status = .ok ↔ Valid topic) ∧
    (Valid topic → ∃ nTok copy, extract topic = .accepted nTok (some 0) copy ∧
      nTok = (runs topic.bytes).length ∧ 1 ≤ nTok ∧
      some (CStr.ofBytes copy).bytes = (runs topic.bytes).head?) ∧
    (¬ Valid topic →
      (extract topic).status = .invalidTopic ∧ extract topic ≠ .refused .noLevel) := by
  have hlevels := extract_levels topic
  cases hextract : extract topic with
  | refused cause =>
      rw [hextract] at hlevels
      refine ⟨iff_of_false (fun h => Status.noConfusion h) hlevels.1,
        fun h => absurd h hlevels.1, fun _ => ⟨rfl, ?_⟩⟩
      exact fun h => hlevels.2 (Extracted.refused.inj h)
  | accepted nTok firstTok copy =>
      rw [hextract] at hlevels
      obtain ⟨hvalid, hcount, hpos, rfl, hfirst⟩ := hlevels
      exact ⟨iff_of_true rfl hvalid, fun _ => ⟨nTok, copy, rfl, hcount, hpos, hfirst⟩,
        fun h => absurd hvalid h⟩

/-- What later functions get from `topic__extract_token`. -/
theorem extract_token_eq (topic : CStr) : extractToken topic = match extract topic with
    | .accepted nTok (some offset) copy => some (nTok, copy.drop offset)
    | _ => none := by
  unfold extractToken extract
  split_ifs
  · rfl
  · rfl
  · dsimp only
    generalize strtokR ⟨[], topic.bytes⟩ = first
    cases extractLoop topic.length first.1 first.2 0 with
    | none => rfl
    | some found =>
        cases first.1 with
        | none =>
            dsimp only
            split_ifs <;> rfl
        | some tok =>
            dsimp only
            split_ifs <;> rfl

end Bpsp.Topic
