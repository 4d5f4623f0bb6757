import Bpsp.Topic.Token

/-!
# Two walks over a topic

`topic__extract_token` counts the tokens that `strtok_r` returns, which are the maximal runs between
separators (`strtok_tokens_eq`). The walk with `topic__next_token` steps over one byte after each
string, so it meets the same tokens exactly when no two separators are adjacent
(`walk_tokens_iff`).
-/

namespace Bpsp.Topic

open CLib

/-- The tokens that successive calls of `strtok_r` return. -/
def strtokTokens : Nat → Tokenizer → List (List Byte)
  | 0, _ => []
  | fuel + 1, tz =>
      match strtokR tz with
      | (none, _) => []
      | (some tok, tz) => tok.2 :: strtokTokens fuel tz

/-- The tokens that `topic__extract_token` gets from `strtok_r`. -/
def tokens (topic : CStr) : List (List Byte) := strtokTokens topic.length ⟨[], topic.bytes⟩

/-- The maximal runs of bytes that are not separators. -/
noncomputable def runs (bytes : List Byte) : List (List Byte) :=
  (bytes.splitOn slash).filter (· ≠ [])

theorem runs_slash (rest : List Byte) : runs (slash :: rest) = runs rest := by
  have hsplit := List.splitOn_append_cons_self (a := slash) [] rest
  rw [List.nil_append, List.splitOn_nil] at hsplit
  unfold runs
  rw [hsplit]
  rfl

theorem runs_separators {sep : List Byte} (hsep : ∀ b ∈ sep, b = slash) (rest : List Byte) :
    runs (sep ++ rest) = runs rest := by
  induction sep with
  | nil => rfl
  | cons b sep ih =>
      rw [hsep b List.mem_cons_self, List.cons_append, runs_slash,
        ih fun b' hb' => hsep b' (List.mem_cons_of_mem _ hb')]

theorem runs_nil : runs [] = [] := by
  unfold runs
  rw [List.splitOn_nil]
  rfl

theorem runs_token {tok : List Byte} (hne : tok ≠ []) (htok : slash ∉ tok) (rest : List Byte) :
    runs tok = [tok] ∧ runs (tok ++ slash :: rest) = tok :: runs rest := by
  unfold runs
  rw [List.splitOn_append_cons_self, List.splitOn_eq_singleton htok]
  simp [hne]

/-- The tokens of the pieces are the maximal runs. -/
theorem Pieces.runs_eq {bytes : List Byte} {ps : List (List Byte × List Byte)}
    (h : Pieces bytes ps) : runs bytes = ps.map Prod.snd := by
  induction h with
  | nil hrest =>
      have := runs_separators hrest []
      rwa [List.append_nil, runs_nil] at this
  | last hsep hne htok =>
      rw [runs_separators hsep, (runs_token hne htok []).1]
      rfl
  | cons hsep hne htok _ ih =>
      rw [List.append_assoc, runs_separators hsep, (runs_token hne htok _).2, ih]
      rfl

/-- The maximal runs when `strtok_r` returns a token. -/
theorem runs_strtok {sep tok tail : List Byte} (hsep : ∀ b ∈ sep, b = slash) (hne : tok ≠ [])
    (hfree : slash ∉ tok) (htail : tail = [] ∨ tail.head? = some slash) :
    runs (sep ++ tok ++ tail) = tok :: runs (tail.drop 1) := by
  rw [List.append_assoc, runs_separators hsep]
  cases tail with
  | nil => rw [List.append_nil, (runs_token hne hfree []).1, List.drop_nil, runs_nil]
  | cons b rest =>
      obtain rfl : b = slash := by simpa using htail
      exact (runs_token hne hfree rest).2

/-- What is left after a token is shorter. -/
theorem length_after_token {sep tok tail rest : List Byte} (hrest : rest = sep ++ tok ++ tail)
    (hne : tok ≠ []) : (tail.drop 1).length < rest.length := by
  have hpos := List.length_pos_iff.mpr hne
  rw [hrest, List.length_append, List.length_append, List.length_drop]
  omega

/-- `strtok_r` returns the maximal runs. -/
theorem strtok_tokens_eq (fuel : Nat) : ∀ {tz : Tokenizer}, tz.rest.length ≤ fuel →
    strtokTokens fuel tz = runs tz.rest := by
  induction fuel with
  | zero =>
      intro tz hfuel
      rw [List.length_eq_zero_iff.mp (Nat.le_zero.mp hfuel), runs_nil]
      rfl
  | succ fuel ih =>
      intro tz hfuel
      unfold strtokTokens
      rcases strtok_cases tz with ⟨hnone, -, hall⟩ |
        ⟨sep, tok, tail, hrest, hsep, hne, hfree, htail, htok, htz⟩
      · rw [show strtokR tz = (none, (strtokR tz).2) from Prod.ext hnone rfl, ← List.append_nil tz.rest,
          runs_separators hall, runs_nil]
      · have hlen : (tail.drop 1).length ≤ fuel :=
          Nat.le_of_lt_succ (Nat.lt_of_lt_of_le (length_after_token hrest hne) hfuel)
        rw [show strtokR tz = (some (tz.past.length + sep.length, tok), (strtokR tz).2) from
          Prod.ext htok rfl, htz]
        dsimp only
        rw [ih hlen, hrest, runs_strtok hsep hne hfree htail]

/-- Not both of two adjacent bytes are separators. -/
def Apart (a b : Byte) : Prop := ¬ (a = slash ∧ b = slash)

/-- A token after separators, with another separator or none behind it. -/
theorem chain_piece_iff {sep tok stop : List Byte} (hsep : ∀ b ∈ sep, b = slash) (hne : tok ≠ [])
    (htok : slash ∉ tok) (hstop : stop = [] ∨ stop = [slash]) :
    (slash :: (sep ++ tok ++ stop)).IsChain Apart ↔ sep = [] := by
  constructor
  · intro hchain
    cases sep with
    | nil => rfl
    | cons b rest =>
        have hb := hsep b List.mem_cons_self
        exact absurd ⟨rfl, hb⟩ (List.isChain_cons_cons.mp hchain).1
  · rintro rfl
    have hapart : ∀ a ∈ tok, ∀ b, Apart a b := fun a ha b h0 => htok (h0.1 ▸ ha)
    have hinner : tok.IsChain Apart :=
      (List.pairwise_of_forall_mem_list fun a ha b _ => hapart a ha b).isChain
    rw [List.nil_append, List.isChain_cons, List.isChain_append]
    refine ⟨fun y hy h0 => ?_, hinner, ?_, fun x hx y _ => hapart x (List.mem_of_mem_getLast? hx) y⟩
    · obtain ⟨b, rest, rfl⟩ := List.exists_cons_of_ne_nil hne
      rw [List.cons_append, List.head?_cons, Option.mem_some_iff] at hy
      exact htok (h0.2 ▸ hy ▸ List.mem_cons_self)
    · rcases hstop with rfl | rfl <;> simp

/-- The pieces have no extra separators exactly when no two separators are adjacent. -/
theorem Pieces.chain_iff {bytes : List Byte} {ps : List (List Byte × List Byte)}
    (h : Pieces bytes ps) (hlast : bytes.getLast? ≠ some slash) :
    (slash :: bytes).IsChain Apart ↔ ∀ p ∈ ps, p.1 = [] := by
  induction h with
  | @nil rest hrest =>
      have hnil : rest = [] := by
        by_contra h0
        refine hlast ?_
        rw [List.getLast?_eq_some_getLast h0, hrest _ (List.getLast_mem h0)]
      simp [hnil]
  | @last sep tok hsep hne htok =>
      have hpiece := chain_piece_iff hsep hne htok (Or.inl rfl)
      rw [List.append_nil] at hpiece
      rw [hpiece]
      simp
  | @cons sep tok rest ps hsep hne htok _ ih =>
      have hlast' : rest.getLast? ≠ some slash := by
        intro h0
        refine hlast ?_
        rw [List.getLast?_append, List.getLast?_cons, h0]
        rfl
      have hsplit : slash :: (sep ++ tok ++ slash :: rest) =
          (slash :: (sep ++ tok)) ++ slash :: rest := rfl
      rw [hsplit, List.isChain_split, ih hlast', List.forall_mem_cons, List.cons_append,
        chain_piece_iff hsep hne htok (Or.inr rfl)]

/-- For an accepted topic, what the walk meets are the tokens of `strtok_r`, and these are the
maximal runs, exactly when the topic has no two adjacent separators. -/
theorem walk_tokens_iff {topic : CStr} {nTok : Nat} {firstTok : List Byte}
    (h : extractToken topic = some (nTok, firstTok)) :
    ((tokenToArray nTok firstTok).map CStr.bytes = tokens topic ∧
      tokens topic = runs topic.bytes) ↔ topic.bytes.IsChain Apart := by
  obtain ⟨hhead, hlast, ps, hps, -, hwalk, -⟩ := extract_token_spec h
  have htokens : tokens topic = runs topic.bytes :=
    @strtok_tokens_eq topic.length ⟨[], topic.bytes⟩ (Nat.le_refl _)
  have hchain : topic.bytes.IsChain Apart ↔ (slash :: topic.bytes).IsChain Apart := by
    rw [List.isChain_cons]
    refine (and_iff_right fun y hy h0 => hhead ?_).symm
    rw [← h0.2]
    exact hy
  rw [hchain, hps.chain_iff hlast, and_iff_left htokens, hwalk, htokens, hps.runs_eq]
  unfold visited
  rw [List.map_inj_left]
  exact forall₂_congr fun p _ => by simp

/-- The walk over `a/b` meets its tokens. -/
theorem walk_two_levels :
    (tokenToArray 2 [97, 0, 98]).map CStr.bytes = tokens (.ofString "a/b") ∧
      tokens (.ofString "a/b") = runs (CStr.ofString "a/b").bytes :=
  (walk_tokens_iff (show extractToken (.ofString "a/b") = some (2, [97, 0, 98]) by decide)).mpr
    (by
      rw [show (CStr.ofString "a/b").bytes = [97, 47, 98] by decide]
      simp [Apart, slash])

/-- The walk over `a//b` meets `/b` in the place of `b`. -/
theorem walk_doubled_slash : ∃ nTok firstTok,
    extractToken (.ofString "a//b") = some (nTok, firstTok) ∧
      (tokenToArray nTok firstTok).map CStr.bytes ≠ tokens (.ofString "a//b") :=
  ⟨2, [97, 0, 47, 98], by decide, by decide⟩

end Bpsp.Topic
