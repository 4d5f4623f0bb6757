import Bpsp.JLib.Lang
import Bpsp.Frame.RoundTrip

/-!
# The header parser of the Java client

`VarHeader.fromString` of `com/core/frame/VarHeader.java` is written after `frame__parse_var_header`:
the same four cursors, with zero for one that is not set. It reads an immutable string with `int`
cursors, where the C code overwrites the block it is reading and its cursors have 16 bits. On blocks
on which these do not wrap the two loops take the same turns (`from_string_loop_simulates`), so they
accept the same blocks and find the same headers (`from_string_agrees`).
-/

namespace Bpsp.Java

open CLib JLib Bpsp.Frame

/-- `VarHeader`. -/
structure VarHeader where
  key : JString
  value : JString
  deriving DecidableEq

/-- `HashMap<String, VarHeader>`. -/
abbrev VarHeaders := HashTable JString VarHeader

/-- The loop of `fromString`. Each turn advances `n`. -/
def fromStringLoop (s : JString) : Nat → Cursor → VarHeaders → Option (Cursor × VarHeaders)
  | 0, _, _ => none
  | fuel + 1, c, varHeaders =>
      if c.n < s.length then
        if c.n ≠ 0 ∧ (s[c.n]? ≠ some quote.toUInt16 ∨ s[c.n - 1]? = some backslash.toUInt16) then
          fromStringLoop s fuel { c with n := c.n + 1 } varHeaders
        else if c.startKey = 0 then
          fromStringLoop s fuel { c with startKey := c.n + 1, n := c.n + 1 } varHeaders
        else if c.endKey = 0 then
          fromStringLoop s fuel { c with endKey := c.n, n := c.n + 1 } varHeaders
        else if c.startValue = 0 then
          fromStringLoop s fuel { c with startValue := c.n + 1, n := c.n + 1 } varHeaders
        else do
          let key ← substring s c.startKey c.endKey
          let value ← substring s c.startValue c.n
          -- the semicolon is skipped
          fromStringLoop s fuel ⟨c.n + 2, 0, 0, 0⟩ (HashMap.put varHeaders key ⟨key, value⟩)
      else some (c, varHeaders)

/-- `VarHeader.fromString`; `none` when it throws. -/
def fromString (s : JString) : Option VarHeaders :=
  if s.length = 0 then some []
  else do
    let (c, varHeaders) ← fromStringLoop s (s.length + 1) ⟨0, 0, 0, 0⟩ []
    if 0 < c.startKey then none else some varHeaders

/-- The map after the pairs that the C parser finds were put. -/
def putPairs (m : VarHeaders) (ps : List (CStr × CStr)) : VarHeaders :=
  ps.foldl (fun m p => HashMap.put m (ascii p.1.bytes) ⟨ascii p.1.bytes, ascii p.2.bytes⟩) m

/-- The block that is overwritten, and the cursors into it: what can still be read, from the opening
quote of the key or the byte before `n` on, is as it was, and the cursors that are set are in
order. -/
structure Tracks (block buf : List Byte) (c : Cursor) : Prop where
  length : buf.length = block.length
  same : ∀ i, (c.startKey = 0 → c.n ≤ i + 1) → (c.startKey ≠ 0 → c.startKey ≤ i + 1) →
    buf[i]? = block[i]?
  key : c.startKey ≠ 0 → c.startKey ≤ c.n
  endKey : c.endKey ≠ 0 → c.startKey ≠ 0 ∧ c.startKey ≤ c.endKey ∧ c.endKey < c.n
  value : c.startValue ≠ 0 → c.endKey ≠ 0 ∧ c.endKey < c.startValue ∧ c.startValue ≤ c.n

section Simulation

variable {block buf : List Byte} {c : Cursor}

theorem Tracks.start (block : List Byte) : Tracks block block ⟨0, 0, 0, 0⟩ where
  length := rfl
  same _ _ _ := rfl
  key h := absurd rfl h
  endKey h := absurd rfl h
  value h := absurd rfl h

/-- The text between two cursors: a NUL is written at the second, and there is none before. -/
theorem cut_eq {buf : List Byte} {first last : Nat} (hle : first ≤ last) (hlt : last < block.length)
    (hnul : (0 : Byte) ∉ block) (hsame : ∀ i, first ≤ i → i < last → buf[i]? = block[i]?)
    (hcut : buf[last]? = some 0) :
    (CStr.ofBytes (buf.drop first)).bytes = (block.drop first).take (last - first) := by
  have hbuf : buf.drop first = (block.drop first).take (last - first) ++ 0 :: buf.drop (last + 1) := by
    refine List.ext_getElem? fun i => ?_
    have hlen : ((block.drop first).take (last - first)).length = last - first := by
      rw [List.length_take, List.length_drop]
      omega
    rw [List.getElem?_drop]
    rcases Nat.lt_trichotomy i (last - first) with hi | hi | hi
    · rw [List.getElem?_append_left (by omega), List.getElem?_take_of_lt hi, List.getElem?_drop]
      exact hsame _ (Nat.le_add_right _ _) (by omega)
    · rw [List.getElem?_append_right (by omega), hlen, hi, Nat.sub_self, List.getElem?_cons_zero,
        show first + (last - first) = last by omega, hcut]
    · rw [List.getElem?_append_right (by omega), hlen]
      obtain ⟨j, hj⟩ := Nat.exists_eq_add_of_lt hi
      rw [show i - (last - first) = j + 1 by omega, List.getElem?_cons_succ, List.getElem?_drop]
      congr 1
      omega
  rw [hbuf, ofBytes_cut]
  refine CStr.bytes_ofBytes fun h => hnul ?_
  exact List.mem_of_mem_drop (List.mem_of_mem_take h)

theorem substring_ascii {first last : Nat} (hle : first ≤ last) (hlt : last ≤ block.length) :
    substring (ascii block) first last = some (ascii ((block.drop first).take (last - first))) := by
  unfold substring
  rw [if_pos ⟨hle, by rw [length_ascii]; exact hlt⟩]
  unfold ascii
  rw [← List.map_drop, ← List.map_take]

/-- A turn reads the same in the block as in the string. -/
theorem Tracks.stop_iff (h : Tracks block buf c) :
    (c.n ≠ 0 ∧ ((ascii block)[c.n]? ≠ some quote.toUInt16 ∨
      (ascii block)[c.n - 1]? = some backslash.toUInt16)) ↔
    (c.n ≠ 0 ∧ (buf[c.n]? ≠ some quote ∨ buf[c.n - 1]? = some backslash)) := by
  have hkey := h.key
  have hn : buf[c.n]? = block[c.n]? := h.same _ (by omega) (by omega)
  have hprev : buf[c.n - 1]? = block[c.n - 1]? := h.same _ (by omega) (by omega)
  rw [ne_eq, ne_eq, ne_eq, get_ascii_eq_iff, get_ascii_eq_iff, hn, hprev]

/-- A turn that finds no complete pair advances `n` and sets one cursor at most. -/
theorem Tracks.next (h : Tracks block buf c) {c₁ : Cursor} (hn : c₁.n = c.n + 1)
    (hkey : c₁.startKey = c.startKey ∨ c.startKey = 0 ∧ c₁.startKey = c.n + 1)
    (hend : c₁.endKey = c.endKey ∨ c.startKey ≠ 0 ∧ c.endKey = 0 ∧ c₁.endKey = c.n)
    (hvalue : c₁.startValue = c.startValue ∨ c.endKey ≠ 0 ∧ c₁.startValue = c.n + 1) :
    Tracks block buf c₁ := by
  obtain ⟨hsize, hsame, hkey₀, hend₀, hvalue₀⟩ := h
  refine ⟨hsize, fun i hi hi' => hsame i ?_ ?_, ?_, ?_, ?_⟩
  all_goals omega

/-- The cursors of a complete pair. -/
structure Closed (size : Nat) (c : Cursor) : Prop where
  start : c.startKey ≠ 0
  key : c.startKey ≤ c.endKey
  value : c.endKey < c.startValue
  last : c.startValue ≤ c.n
  inside : c.n < size

/-- Both sides cut the same pair out. -/
theorem Tracks.cut (h : Tracks block buf c) (hnul : (0 : Byte) ∉ block)
    (hc : Closed block.length c) :
    let cut := (buf.set c.endKey 0).set c.n 0
    substring (ascii block) c.startKey c.endKey =
      some (ascii (CStr.ofBytes (cut.drop c.startKey)).bytes) ∧
    substring (ascii block) c.startValue c.n =
      some (ascii (CStr.ofBytes (cut.drop c.startValue)).bytes) ∧
    Tracks block cut ⟨c.n + 2, 0, 0, 0⟩ := by
  obtain ⟨hstart, hkey, hvalue, hlast, hin⟩ := hc
  have hlen := h.length
  have hkeep : ∀ i, c.startKey ≤ i → i ≠ c.endKey → i ≠ c.n →
      ((buf.set c.endKey 0).set c.n 0)[i]? = block[i]? := by
    intro i hi hne hne'
    rw [List.getElem?_set_ne (Ne.symm hne'), List.getElem?_set_ne (Ne.symm hne)]
    exact h.same _ (by omega) (by omega)
  have hnulKey : ((buf.set c.endKey 0).set c.n 0)[c.endKey]? = some 0 := by
    rw [List.getElem?_set_ne (by omega), List.getElem?_set_self (by omega)]
  have hnulValue : ((buf.set c.endKey 0).set c.n 0)[c.n]? = some 0 :=
    List.getElem?_set_self (by rw [List.length_set]; omega)
  refine ⟨?_, ?_, ⟨by simpa using hlen, fun i hi _ => ?_, ?_, ?_, ?_⟩⟩
  · rw [substring_ascii hkey (by omega), cut_eq hkey (by omega) hnul (fun i hi hi' =>
      hkeep i hi (by omega) (by omega)) hnulKey]
  · rw [substring_ascii hlast (by omega), cut_eq hlast hin hnul (fun i hi hi' =>
      hkeep i (by omega) (by omega) (by omega)) hnulValue]
  · have hi' : c.n + 2 ≤ i + 1 := hi rfl
    exact hkeep i (by omega) (by omega) (by omega)
  · exact fun h0 => absurd rfl h0
  · exact fun h0 => absurd rfl h0
  · exact fun h0 => absurd rfl h0

theorem putPairs_cons (m : VarHeaders) (p : CStr × CStr) (ps : List (CStr × CStr)) :
    putPairs m (p :: ps) =
      putPairs (HashMap.put m (ascii p.1.bytes) ⟨ascii p.1.bytes, ascii p.2.bytes⟩) ps := rfl

/-- A closing quote is never so far behind that the cursor wraps after it. -/
theorem Tracks.skip (h : Tracks block buf c) (hlen : block.length < 65536)
    (hwrap : block.length < 65535 ∨ block.getLast? ≠ some quote) (hmore : c.n < block.length)
    (hquote : buf[c.n]? = some quote) : (c.n + 2) % 65536 = c.n + 2 := by
  have hkey := h.key
  rw [h.same _ (by omega) (by omega)] at hquote
  refine Nat.mod_eq_of_lt ?_
  rcases hwrap with hshort | hlast
  · omega
  · rw [List.getLast?_eq_getElem?] at hlast
    have hne : c.n ≠ block.length - 1 := fun heq => hlast (heq ▸ hquote)
    omega

/-- The two loops take the same turns, and the pairs that one finds are put by the other. -/
theorem from_string_loop_simulates (hnul : (0 : Byte) ∉ block) (hlen : block.length < 65536)
    (hwrap : block.length < 65535 ∨ block.getLast? ≠ some quote) (fuel : Nat) : ∀ {buf : List Byte} {c c' : Cursor} {ps ps' : List (CStr × CStr)}
      {m : VarHeaders} {turns : Nat}, Tracks block buf c → block.length - c.n < turns →
      parseLoop record block.length fuel buf c ps = some (c', ps') →
      ∃ found, ps' = ps ++ found ∧
        fromStringLoop (ascii block) turns c m = some (c', putPairs m found) := by
  induction fuel with
  | zero =>
      intro buf c c' ps ps' m turns _ _ hrun
      cases hrun
  | succ fuel ih =>
      intro buf c c' ps ps' m turns h hturns hrun
      obtain ⟨turns, rfl⟩ := Nat.exists_eq_succ_of_ne_zero (Nat.ne_of_gt (Nat.zero_lt_of_lt hturns))
      unfold parseLoop at hrun
      unfold fromStringLoop
      rw [length_ascii]
      by_cases hmore : c.n < block.length
      swap
      · rw [if_neg hmore] at hrun ⊢
        obtain ⟨rfl, rfl⟩ := Prod.mk.inj (Option.some.inj hrun)
        exact ⟨[], by simp, rfl⟩
      have hnext : (c.n + 1) % 65536 = c.n + 1 := Nat.mod_eq_of_lt (by omega)
      have hturns' : block.length - (c.n + 1) < turns := by omega
      rw [if_pos hmore] at hrun ⊢
      rw [hnext] at hrun
      by_cases hstop : c.n ≠ 0 ∧ (buf[c.n]? ≠ some quote ∨ buf[c.n - 1]? = some backslash)
      · rw [if_pos hstop] at hrun
        rw [if_pos (h.stop_iff.mpr hstop)]
        exact ih (h.next rfl (.inl rfl) (.inl rfl) (.inl rfl)) hturns' hrun
      rw [if_neg hstop] at hrun
      rw [if_neg fun hs => hstop (h.stop_iff.mp hs)]
      by_cases hk : c.startKey = 0
      · rw [if_pos hk] at hrun ⊢
        exact ih (h.next rfl (.inr ⟨hk, rfl⟩) (.inl rfl) (.inl rfl)) hturns' hrun
      rw [if_neg hk] at hrun ⊢
      by_cases he : c.endKey = 0
      · rw [if_pos he] at hrun ⊢
        exact ih (h.next rfl (.inl rfl) (.inr ⟨hk, he, rfl⟩) (.inl rfl)) hturns' hrun
      rw [if_neg he] at hrun ⊢
      by_cases hv : c.startValue = 0
      · rw [if_pos hv] at hrun ⊢
        exact ih (h.next rfl (.inl rfl) (.inl rfl) (.inr ⟨he, rfl⟩)) hturns' hrun
      rw [if_neg hv] at hrun ⊢
      obtain ⟨-, hkeyLe, -⟩ := h.endKey he
      obtain ⟨-, hvalueLt, hvalueLe⟩ := h.value hv
      have hquote : buf[c.n]? = some quote := by
        by_contra hne
        exact hstop ⟨by omega, .inl hne⟩
      rw [h.skip hlen hwrap hmore hquote] at hrun
      obtain ⟨hsubKey, hsubValue, hcut⟩ :=
        h.cut hnul ⟨hk, hkeyLe, hvalueLt, hvalueLe, hmore⟩
      obtain ⟨found, rfl, hloop⟩ := ih hcut (show block.length - (c.n + 2) < turns by omega) hrun
      refine ⟨_ :: found, List.append_assoc _ _ _, ?_⟩
      rw [hsubKey, hsubValue]
      exact hloop

end Simulation

/-- A table of the C side as a map of the Java side. -/
def widened (t : Table) : VarHeaders :=
  t.map fun e => (ascii e.1.bytes, ⟨ascii e.1.bytes, ascii e.2.bytes⟩)

/-- The two maps have the same keys with the same values. -/
def SameMap (m : VarHeaders) (h : Headers) : Prop :=
  ∀ k v, (m.find k).map VarHeader.value = some v ↔
    ∃ key value, h.find key = some (some value) ∧ k = ascii key.bytes ∧ v = ascii value.bytes

section Maps

variable {t : Table}

theorem keys_widened (t : Table) : (widened t).keys = t.keys.map fun k => ascii k.bytes := by
  simp [widened, HashTable.keys]

theorem ascii_bytes_inj {k k' : CStr} (h : ascii k.bytes = ascii k'.bytes) : k = k' :=
  CStr.ext (ascii_injective h)

theorem mem_keys_widened {k : CStr} : ascii k.bytes ∈ (widened t).keys ↔ k ∈ t.keys := by
  rw [keys_widened, List.mem_map]
  constructor
  · rintro ⟨k', hk', heq⟩
    exact ascii_bytes_inj heq ▸ hk'
  · exact fun hk => ⟨k, hk, rfl⟩

/-- Putting a pair does the same on both sides. -/
theorem put_widened (t : Table) (k v : CStr) :
    HashMap.put (widened t) (ascii k.bytes) ⟨ascii k.bytes, ascii v.bytes⟩ =
      widened (put t k v) := by
  unfold HashMap.put
  by_cases hk : k ∈ t.keys
  · rw [if_pos (mem_keys_widened.mpr hk), put_of_mem v hk]
    unfold widened HashTable.update
    rw [List.map_map, List.map_map]
    refine List.map_congr_left fun e _ => ?_
    by_cases he : e.1 = k
    · simp [he]
    · have hne : ascii e.1.bytes ≠ ascii k.bytes := fun h => he (ascii_bytes_inj h)
      simp [he, hne]
  · rw [if_neg fun h => hk (mem_keys_widened.mp h), put_of_not_mem v hk]
    simp [widened, HashTable.add]

theorem putPairs_widened {ps : List (CStr × CStr)} (hkeys : ∀ p ∈ ps, p.1.length ≠ 0) (t : Table) :
    putPairs (widened t) ps = widened (fill t ps) := by
  induction ps generalizing t with
  | nil => rfl
  | cons p ps ih =>
      have hfill : fill t (p :: ps) = fill (put t p.1 p.2) ps := by
        simp [fill, hkeys p List.mem_cons_self]
      rw [putPairs_cons, put_widened, ih (fun q hq => hkeys q (List.mem_cons_of_mem _ hq)), hfill]

theorem same_map_widened (h : t.keys.Nodup) : SameMap (widened t) (stored t) := by
  have hnodup : (widened t).keys.Nodup := by
    rw [keys_widened]
    exact h.map fun k k' heq => ascii_bytes_inj heq
  intro k v
  simp only [Option.map_eq_some_iff, HashTable.find_eq_some_iff hnodup, find_stored]
  constructor
  · rintro ⟨x, hx, rfl⟩
    obtain ⟨e, he, heq⟩ := List.mem_map.mp hx
    obtain ⟨rfl, rfl⟩ := Prod.mk.inj heq
    exact ⟨e.1, e.2, ⟨e.2, (HashTable.find_eq_some_iff h).mpr he, rfl⟩, rfl, rfl⟩
  · rintro ⟨key, value, ⟨value', hfind, hvalue⟩, rfl, rfl⟩
    obtain rfl := Option.some.inj hvalue
    exact ⟨_, List.mem_map_of_mem (HashTable.mem_of_find hfind), rfl⟩

end Maps

/-- On a block without NULs on which the cursors of the C parser do not wrap, the Java parser finds the
pairs of the block. -/
theorem from_string_eq {block : List Byte} (hnul : (0 : Byte) ∉ block) (hlen : block.length < 65536)
    (hwrap : block.length < 65535 ∨ block.getLast? ≠ some quote) (hkeys : ∀ p ∈ pairs block, p.1.length ≠ 0) :
    fromString (ascii block) =
      if (scan block).2 then some (widened (fill [] (pairs block))) else none := by
  by_cases h0 : block = []
  · subst h0
    rfl
  obtain ⟨c, hrun, hc⟩ := parse_loop_scan record [] hlen hwrap
  rw [feed_record, Option.map_some, List.nil_append] at hrun
  change _ = some (c, pairs block) at hrun
  -- the Java loop from the start, by the turns that the C loop takes
  obtain ⟨found, hfound, hloop⟩ := from_string_loop_simulates (m := []) hnul hlen hwrap _
    (Tracks.start block) (show block.length - 0 < block.length + 1 by omega) hrun
  rw [List.nil_append] at hfound
  unfold fromString
  rw [if_neg (by rw [length_ascii]; exact fun h => h0 (List.length_eq_zero_iff.mp h)), length_ascii,
    hloop, ← hfound, show ([] : VarHeaders) = widened [] from rfl, putPairs_widened hkeys]
  show (if 0 < c.startKey then none else some (widened (fill [] (pairs block)))) = _
  cases hdone : (scan block).2 with
  | true => simp [hc.mpr hdone]
  | false =>
      have hopen : c.startKey ≠ 0 := fun h => by simpa [hdone] using hc.mp h
      simp [Nat.pos_of_ne_zero hopen]

/-- On a block without NULs of at most 65534 bytes whose keys and values are not empty, the Java
parser returns exactly when the C parser accepts, and then they find the same headers. -/
theorem from_string_agrees {block : List Byte} (hnul : (0 : Byte) ∉ block)
    (hlen : block.length ≤ 65534)
    (hpairs : ∀ p ∈ handed block, p.1.length ≠ 0 ∧ p.2.length ≠ 0) {frame : Frame}
    (hempty : frame.varHeaders = []) (hsize : frame.varsSize = 0) :
    ∃ s fr, frame.parseVarHeader block = some (s, fr) ∧
      ((fromString (ascii block)).isSome ↔ s = .ok) ∧
      ∀ m, fromString (ascii block) = some m → SameMap m fr.varHeaders := by
  have hshort : block.length < 65536 := by omega
  have hwrap : block.length < 65535 ∨ block.getLast? ≠ some quote := .inl (by omega)
  have hcarries : Carries frame [] := ⟨hempty, hsize, by simp, WellFormed.nil⟩
  rw [handed_eq_pairs hshort hwrap] at hpairs
  obtain ⟨hparse, hwf, -⟩ := parse_fills hcarries hshort hwrap fun p hp => (hpairs p hp).2
  have hjava := from_string_eq hnul hshort hwrap fun p hp => (hpairs p hp).1
  refine ⟨_, _, hparse, ?_, fun m hm => ?_⟩
  · rw [hjava]
    cases (scan block).2 <;> simp
  · rw [hjava] at hm
    split_ifs at hm
    rw [← Option.some.inj hm]
    exact same_map_widened hwf.nodup

/-- A block in which a key stands twice. -/
def repeated : List Byte := (CStr.ofString "\"k\"\"v\";\"k\"\"w\";").bytes

/-- Both parsers keep the last value of a key. -/
theorem from_string_agrees_repeated : ∃ m fr, fromString (ascii repeated) = some m ∧
    new.parseVarHeader repeated = some (.ok, fr) ∧ SameMap m fr.varHeaders := by
  obtain ⟨s, fr, hparse, hiff, hsame⟩ := @from_string_agrees repeated (by decide) (by decide)
    (by decide) new rfl rfl
  have hjava : fromString (ascii repeated) =
      some (widened [(.ofString "k", .ofString "w")]) := by decide
  rw [hiff.mp (by rw [hjava]; rfl)] at hparse
  exact ⟨_, fr, hjava, hparse, hsame _ hjava⟩

end Bpsp.Java
