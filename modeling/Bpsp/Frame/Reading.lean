import Bpsp.Frame.Turns

/-!
# Reading header blocks

A quote counts when it does not follow a backslash. Between quotes that count the walk of
`frame__parse_var_header` only moves on, so a block can be read as a tree of texts (`Reading`), and
every block has a reading (`exists_reading`). `passes_reading` says what the walk does with one,
whatever its index holds behind the last byte: it hands over the pairs, overwrites their closing
quotes and ends behind the last byte, or one further when that byte closes a pair. `parse_loop_scan`
is the case in which the 16-bit index does not wrap.
-/

namespace Bpsp.Frame

open CLib

/-- Every quote follows a backslash, where `prev` is the byte before the text. -/
def escapedFrom (prev : Byte) : List Byte → Bool
  | [] => true
  | b :: rest => (b ≠ quote || prev = backslash) && escapedFrom b rest

/-- Every quote follows a backslash and the text does not end in one, where `prev` is the byte
before the text. -/
def plainFrom (prev : Byte) : List Byte → Bool
  | [] => prev ≠ backslash
  | b :: rest => (b ≠ quote || prev = backslash) && plainFrom b rest

/-- How a walk reads the bytes after one that opened a key: it breaks off in the key, between key and
value or in the value, or it reads a pair that is closed by the last byte, or is followed by a byte
that is skipped and a text up to the end or up to the next key. -/
inductive Reading where
  | inKey (text : List Byte)
  | inGap (key text : List Byte)
  | inValue (key gap text : List Byte)
  | closed (key gap value : List Byte)
  | ended (key gap value : List Byte) (skipped : Byte) (text : List Byte)
  | next (key gap value : List Byte) (skipped : Byte) (text : List Byte) (rest : Reading)

namespace Reading

/-- The bytes that are read. `close` stands where a key or a value is closed: a quote, over which the
walk writes a NUL when the pair is complete. -/
def bytes (close : Byte) : Reading → List Byte
  | .inKey text => text
  | .inGap key text => key ++ quote :: text
  | .inValue key gap text => key ++ quote :: (gap ++ quote :: text)
  | .closed key gap value => key ++ close :: (gap ++ quote :: (value ++ [close]))
  | .ended key gap value skipped text =>
      key ++ close :: (gap ++ quote :: (value ++ close :: skipped :: text))
  | .next key gap value skipped text rest =>
      key ++ close :: (gap ++ quote :: (value ++ close :: skipped :: (text ++ quote :: bytes close rest)))

/-- The quotes that count are the ones that the reading says; `prev` is the byte before. -/
def Reads (prev : Byte) : Reading → Prop
  | .inKey text => escapedFrom prev text = true
  | .inGap key text => plainFrom prev key = true ∧ escapedFrom quote text = true
  | .inValue key gap text =>
      plainFrom prev key = true ∧ plainFrom quote gap = true ∧ escapedFrom quote text = true
  | .closed key gap value =>
      plainFrom prev key = true ∧ plainFrom quote gap = true ∧ plainFrom quote value = true
  | .ended key gap value skipped text =>
      plainFrom prev key = true ∧ plainFrom quote gap = true ∧ plainFrom quote value = true ∧
        escapedFrom skipped text = true
  | .next key gap value skipped text rest =>
      plainFrom prev key = true ∧ plainFrom quote gap = true ∧ plainFrom quote value = true ∧
        plainFrom skipped text = true ∧ Reads quote rest

/-- The texts of the pairs. -/
def raw : Reading → List (List Byte × List Byte)
  | .closed key _ value => [(key, value)]
  | .ended key _ value _ _ => [(key, value)]
  | .next key _ value _ _ rest => (key, value) :: raw rest
  | _ => []

/-- The strings of the pairs. -/
def pairs (r : Reading) : List (CStr × CStr) :=
  r.raw.map fun p => (CStr.ofBytes p.1, CStr.ofBytes p.2)

/-- The bytes end outside a pair. -/
def complete : Reading → Bool
  | .closed _ _ _ => true
  | .ended _ _ _ _ _ => true
  | .next _ _ _ _ _ rest => complete rest
  | _ => false

/-- The last byte closes a pair. -/
def closes : Reading → Bool
  | .closed _ _ _ => true
  | .next _ _ _ _ _ rest => closes rest
  | _ => false

theorem complete_of_closes (r : Reading) (h : r.closes = true) : r.complete = true := by
  induction r with
  | closed key gap value => rfl
  | next key gap value skipped text rest ih => exact ih h
  | _ => cases h

end Reading

/-- A text either has no quote that counts, or has a first one. -/
theorem split_quote (text : List Byte) : ∀ prev, escapedFrom prev text = true ∨
    ∃ before rest, text = before ++ quote :: rest ∧ plainFrom prev before = true := by
  induction text with
  | nil => exact fun _ => Or.inl rfl
  | cons b text ih =>
      intro prev
      by_cases hq : b = quote ∧ prev ≠ backslash
      · exact Or.inr ⟨[], text, by rw [hq.1]; rfl, by simpa [plainFrom] using hq.2⟩
      · have hstep : (decide (b ≠ quote) || decide (prev = backslash)) = true := by
          simp only [Bool.or_eq_true, decide_eq_true_eq]
          tauto
        rcases ih b with hnone | ⟨before, rest, rfl, hbefore⟩
        · exact Or.inl (by rw [escapedFrom, hstep, hnone]; rfl)
        · exact Or.inr ⟨b :: before, rest, rfl, by rw [plainFrom, hstep, hbefore]; rfl⟩

/-- Every text can be read. -/
theorem exists_reading (prev : Byte) (text : List Byte) :
    ∃ r : Reading, r.Reads prev ∧ r.bytes quote = text := by
  induction hn : text.length using Nat.strong_induction_on generalizing prev text with
  | _ n ih =>
      rcases split_quote text prev with h | ⟨key, text, rfl, hkey⟩
      · exact ⟨.inKey text, h, rfl⟩
      rcases split_quote text quote with h | ⟨gap, text, rfl, hgap⟩
      · exact ⟨.inGap key text, ⟨hkey, h⟩, rfl⟩
      rcases split_quote text quote with h | ⟨value, text, rfl, hvalue⟩
      · exact ⟨.inValue key gap text, ⟨hkey, hgap, h⟩, rfl⟩
      cases text with
      | nil => exact ⟨.closed key gap value, ⟨hkey, hgap, hvalue⟩, rfl⟩
      | cons skipped text =>
          rcases split_quote text skipped with h | ⟨before, text, rfl, hbefore⟩
          · exact ⟨.ended key gap value skipped text, ⟨hkey, hgap, hvalue, h⟩, rfl⟩
          simp only [List.length_append, List.length_cons] at hn
          obtain ⟨r, hr, rfl⟩ := ih text.length (by omega) quote text rfl
          exact ⟨.next key gap value skipped before r, ⟨hkey, hgap, hvalue, hbefore, hr⟩, rfl⟩

/-- The last byte of a text, or the one before it. -/
def lastFrom (prev : Byte) : List Byte → Byte
  | [] => prev
  | b :: rest => lastFrom b rest

theorem getLast_append {before : List Byte} {prev : Byte} (h : before.getLast? = some prev)
    (text : List Byte) : (before ++ text).getLast? = some (lastFrom prev text) := by
  induction text generalizing before prev with
  | nil => rwa [List.append_nil]
  | cons b text ih =>
      rw [List.append_cons]
      exact ih List.getLast?_concat

theorem plainFrom_iff (text : List Byte) : ∀ prev, plainFrom prev text = true ↔
    escapedFrom prev text = true ∧ lastFrom prev text ≠ backslash := by
  induction text with
  | nil => intro prev; simp [plainFrom, escapedFrom, lastFrom]
  | cons b text ih =>
      intro prev
      rw [plainFrom, escapedFrom, lastFrom, Bool.and_eq_true, Bool.and_eq_true, ih, and_assoc]

/-- Parsing a text up to its closing quote. -/
theorem scan_key {prev : Byte} {text : List Byte} (h : plainFrom prev text = true)
    (k rest : List Byte) : scanBytes (.key k) prev (text ++ quote :: rest) =
      scanBytes (.gap (k ++ text)) quote rest := by
  induction text generalizing prev k with
  | nil =>
      have hprev : prev ≠ backslash := by simpa [plainFrom] using h
      simp [scanBytes, hprev]
  | cons b text ih =>
      simp only [plainFrom, Bool.and_eq_true, Bool.or_eq_true, decide_eq_true_eq] at h
      have hskip : ¬ (b = quote ∧ prev ≠ backslash) := by tauto
      rw [List.cons_append, scanBytes, if_neg hskip, ih h.2]
      simp

theorem scan_value {prev : Byte} {text : List Byte} (h : plainFrom prev text = true)
    (k v rest : List Byte) : scanBytes (.value k v) prev (text ++ quote :: rest) =
      ((k, v ++ text) :: (scanBytes .skip quote rest).1, (scanBytes .skip quote rest).2) := by
  induction text generalizing prev v with
  | nil =>
      have hprev : prev ≠ backslash := by simpa [plainFrom] using h
      simp [scanBytes, hprev]
  | cons b text ih =>
      simp only [plainFrom, Bool.and_eq_true, Bool.or_eq_true, decide_eq_true_eq] at h
      have hskip : ¬ (b = quote ∧ prev ≠ backslash) := by tauto
      rw [List.cons_append, scanBytes, if_neg hskip, ih h.2]
      simp

theorem scan_gap {prev : Byte} {text : List Byte} (h : plainFrom prev text = true)
    (k rest : List Byte) : scanBytes (.gap k) prev (text ++ quote :: rest) =
      scanBytes (.value k []) quote rest := by
  induction text generalizing prev with
  | nil =>
      have hprev : prev ≠ backslash := by simpa [plainFrom] using h
      simp [scanBytes, hprev]
  | cons b text ih =>
      simp only [plainFrom, Bool.and_eq_true, Bool.or_eq_true, decide_eq_true_eq] at h
      have hskip : ¬ (b = quote ∧ prev ≠ backslash) := by tauto
      rw [List.cons_append, scanBytes, if_neg hskip, ih h.2]

theorem scan_outside {prev : Byte} {text : List Byte} (h : plainFrom prev text = true)
    (rest : List Byte) : scanBytes .outside prev (text ++ quote :: rest) =
      scanBytes (.key []) quote rest := by
  induction text generalizing prev with
  | nil =>
      have hprev : prev ≠ backslash := by simpa [plainFrom] using h
      simp [scanBytes, hprev]
  | cons b text ih =>
      simp only [plainFrom, Bool.and_eq_true, Bool.or_eq_true, decide_eq_true_eq] at h
      have hskip : ¬ (b = quote ∧ prev ≠ backslash) := by tauto
      rw [List.cons_append, scanBytes, if_neg hskip, ih h.2]

/-- Nothing happens in a text without a quote that counts. -/
theorem scan_escaped {text : List Byte} : ∀ {m : Mode} {prev : Byte}, m ≠ .skip →
    escapedFrom prev text = true → scanBytes m prev text = ([], (scanBytes m prev []).2) := by
  induction text with
  | nil =>
      intro m prev hm _
      cases m <;> rfl
  | cons b text ih =>
      intro m prev hm h
      simp only [escapedFrom, Bool.and_eq_true, Bool.or_eq_true, decide_eq_true_eq] at h
      have hskip : ¬ (b = quote ∧ prev ≠ backslash) := by tauto
      cases m with
      | skip => exact absurd rfl hm
      | outside =>
          conv_lhs => rw [scanBytes, if_neg hskip, ih hm h.2]
          rfl
      | key k =>
          conv_lhs => rw [scanBytes, if_neg hskip, ih (fun h => by cases h) h.2]
          rfl
      | gap k =>
          conv_lhs => rw [scanBytes, if_neg hskip, ih (fun h => by cases h) h.2]
          rfl
      | value k v =>
          conv_lhs => rw [scanBytes, if_neg hskip, ih (fun h => by cases h) h.2]
          rfl

/-- The automaton finds the pairs of a reading. -/
theorem scan_reading (r : Reading) : ∀ {prev : Byte}, r.Reads prev →
    scanBytes (.key []) prev (r.bytes quote) = (r.raw, r.complete) := by
  induction r with
  | inKey text => exact fun h => scan_escaped (fun h => by cases h) h
  | inGap key text =>
      rintro prev ⟨hkey, htext⟩
      rw [Reading.bytes, scan_key hkey, scan_escaped (fun h => by cases h) htext]
      rfl
  | inValue key gap text =>
      rintro prev ⟨hkey, hgap, htext⟩
      rw [Reading.bytes, scan_key hkey, scan_gap hgap, scan_escaped (fun h => by cases h) htext]
      rfl
  | closed key gap value =>
      rintro prev ⟨hkey, hgap, hvalue⟩
      rw [Reading.bytes, scan_key hkey, scan_gap hgap, scan_value hvalue]
      rfl
  | ended key gap value skipped text =>
      rintro prev ⟨hkey, hgap, hvalue, htext⟩
      rw [Reading.bytes, scan_key hkey, scan_gap hgap, scan_value hvalue, scanBytes,
        scan_escaped (fun h => by cases h) htext]
      rfl
  | next key gap value skipped text rest ih =>
      rintro prev ⟨hkey, hgap, hvalue, htext, hrest⟩
      rw [Reading.bytes, scan_key hkey, scan_gap hgap, scan_value hvalue, scanBytes,
        scan_outside htext, ih hrest]
      rfl

/-- A NUL written over a byte ends the string that starts `k.length` before it. -/
theorem ofBytes_cut (k rest : List Byte) :
    CStr.ofBytes (k ++ 0 :: rest) = CStr.ofBytes k := by
  refine CStr.ext ?_
  simp only [CStr.ofBytes]
  rw [List.takeWhile_append]
  split_ifs with h
  · rw [List.takeWhile_cons_of_neg (by simp), List.append_nil]
    exact (List.takeWhile_prefix _).eq_of_length h |>.symm
  · rfl

/-- The two NULs cut out the key and the value. -/
theorem cut_pair (head k g v rest : List Byte) (b b' q : Byte) :
    (((head ++ k ++ b :: g ++ b' :: v) ++ q :: rest).set (head.length + k.length) 0).set
        (head ++ k ++ b :: g ++ b' :: v).length 0 =
      (head ++ k ++ 0 :: g ++ b' :: v) ++ 0 :: rest := by
  have hset : ∀ (xs ys : List Byte) (x : Byte), (xs ++ x :: ys).set xs.length 0 = xs ++ 0 :: ys := by
    intro xs ys x
    rw [List.set_append_right _ _ (Nat.le_refl _), Nat.sub_self, List.set_cons_zero]
  have hkey := hset (head ++ k) (g ++ b' :: v ++ q :: rest) b
  have hval := hset (head ++ k ++ 0 :: g ++ b' :: v) rest q
  simp only [List.length_append, List.length_cons, List.append_assoc, List.cons_append] at *
  rw [hkey, hval]

section Loop

variable {wrap : Nat → Nat} {size : Nat}

theorem length_ne_zero {before : List Byte} {prev : Byte} (hprev : before.getLast? = some prev) :
    before.length ≠ 0 := by
  intro h0
  rw [List.length_eq_zero_iff.mp h0] at hprev
  cases hprev

/-- The byte under the cursor and the one before it. -/
theorem bytes_at {buf before rest : List Byte} {prev b : Byte} (hbuf : buf = before ++ b :: rest)
    (hprev : before.getLast? = some prev) : before.length < buf.length ∧
      buf[before.length]? = some b ∧ buf[before.length - 1]? = some prev := by
  have hne := length_ne_zero hprev
  subst hbuf
  refine ⟨by simp, by simp, ?_⟩
  rw [List.getElem?_append_left (by omega), ← List.getLast?_eq_getElem?, hprev]

/-- Some turns from one walk to another, the pairs that they hand over and their number. -/
def Passes (wrap : Nat → Nat) (size : Nat) (w : Walk) (ps : List (CStr × CStr)) (count : Nat)
    (w' : Walk) : Prop :=
  ∃ es, (turn wrap size).Turns w es w' ∧ calls es = ps ∧ es.length = count

theorem Passes.refl (w : Walk) : Passes wrap size w [] 0 w := ⟨[], .refl w, rfl, rfl⟩

theorem Passes.single {w w' : Walk} {i : Nat} {p : Option (CStr × CStr)}
    (h : turn wrap size w = some (w', i, p)) : Passes wrap size w p.toList 1 w' := by
  refine ⟨[(i, p)], .single h, ?_, rfl⟩
  cases p <;> rfl

theorem Passes.trans {w w₁ w' : Walk} {ps qs : List (CStr × CStr)} {m n : Nat}
    (h : Passes wrap size w ps m w₁) (h' : Passes wrap size w₁ qs n w') :
    Passes wrap size w (ps ++ qs) (m + n) w' := by
  obtain ⟨es, hturns, rfl, rfl⟩ := h
  obtain ⟨fs, hturns', rfl, rfl⟩ := h'
  exact ⟨es ++ fs, hturns.trans hturns', calls_append es fs, List.length_append⟩

/-- Where the loop stands when the bytes of a reading are passed. -/
structure Ends (wrap : Nat → Nat) (r : Reading) (size : Nat) (c : Cursor) : Prop where
  inside : r.complete = false → c.n = size ∧ c.startKey ≠ 0
  outside : r.complete = true → c = ⟨wrap (size + if r.closes then 1 else 0), 0, 0, 0⟩

theorem Ends.of_inside {r : Reading} {c : Cursor} (h : r.complete = false) (hn : c.n = size)
    (hkey : c.startKey ≠ 0) : Ends wrap r size c :=
  ⟨fun _ => ⟨hn, hkey⟩, fun h' => absurd (h.symm.trans h') Bool.false_ne_true⟩

theorem Ends.of_outside {r : Reading} {c : Cursor} (h : r.complete = true)
    (hc : c = ⟨wrap (size + if r.closes then 1 else 0), 0, 0, 0⟩) : Ends wrap r size c :=
  ⟨fun h' => absurd (h'.symm.trans h) Bool.false_ne_true, fun _ => hc⟩

variable (hwrap : ∀ n ≤ size, wrap n = n)
include hwrap

/-- The cursor moves over a text without a quote that counts. -/
theorem passes_text {buf : List Byte} (hlen : buf.length = size) (text : List Byte) :
    ∀ {before rest : List Byte} {prev : Byte} {n k e v : Nat},
      buf = before ++ (text ++ rest) → before.getLast? = some prev →
      escapedFrom prev text = true → n = before.length →
      Passes wrap size ⟨buf, ⟨n, k, e, v⟩⟩ [] text.length ⟨buf, ⟨n + text.length, k, e, v⟩⟩ := by
  induction text with
  | nil => exact fun _ _ _ _ => .refl _
  | cons b text ih =>
      intro before rest prev n k e v hbuf hprev htext hn
      subst hn
      obtain ⟨hlt, hb, hp⟩ := bytes_at hbuf hprev
      rw [escapedFrom, Bool.and_eq_true] at htext
      have hskip : before.length ≠ 0 ∧ (buf[before.length]? ≠ some quote ∨
          buf[before.length - 1]? = some backslash) := by
        rw [hb, hp]
        exact ⟨length_ne_zero hprev, by simpa using htext.1⟩
      have hturn : turn wrap size ⟨buf, ⟨before.length, k, e, v⟩⟩ =
          some (⟨buf, ⟨before.length + 1, k, e, v⟩⟩, before.length, none) := by
        rw [turn, if_pos (by dsimp only; omega), if_pos hskip]
        dsimp only
        rw [hwrap _ (by omega)]
      have hrest := @ih (before ++ [b]) rest b (before.length + 1) k e v (by rw [hbuf]; simp)
        List.getLast?_concat htext.2 (by simp)
      rw [show before.length + 1 + text.length = before.length + (b :: text).length by
        rw [List.length_cons]; omega] at hrest
      have hpasses := (Passes.single hturn).trans hrest
      rwa [Nat.add_comm 1] at hpasses

/-- The cursor moves to the next quote that counts. -/
theorem passes_quote {buf before text rest : List Byte} {prev : Byte} {n k e v : Nat}
    (hlen : buf.length = size) (hbuf : buf = before ++ (text ++ quote :: rest))
    (hprev : before.getLast? = some prev) (htext : plainFrom prev text = true)
    (hn : n = before.length) :
    Passes wrap size ⟨buf, ⟨n, k, e, v⟩⟩ (atQuote wrap buf ⟨n + text.length, k, e, v⟩).2.toList
      (text.length + 1) (atQuote wrap buf ⟨n + text.length, k, e, v⟩).1 := by
  obtain ⟨hescaped, hlast⟩ := (plainFrom_iff text prev).mp htext
  have hbuf' : buf = (before ++ text) ++ quote :: rest := by rw [hbuf, List.append_assoc]
  obtain ⟨hlt, hb, hp⟩ := bytes_at hbuf' (getLast_append hprev text)
  have hpos : n + text.length = (before ++ text).length := by rw [hn, List.length_append]
  have hturn : turn wrap size ⟨buf, ⟨n + text.length, k, e, v⟩⟩ =
      some ((atQuote wrap buf ⟨n + text.length, k, e, v⟩).1, n + text.length,
        (atQuote wrap buf ⟨n + text.length, k, e, v⟩).2) := by
    rw [hpos, turn, if_pos (hlen ▸ hlt), if_neg (by rw [hb, hp]; simp [hlast])]
  exact (passes_text hwrap hlen text hbuf hprev hescaped hn).trans (.single hturn)

/-- The quote that closes a key. -/
theorem passes_key {buf head key rest : List Byte} {prev : Byte} (hlen : buf.length = size)
    (hbuf : buf = head ++ (key ++ quote :: rest)) (hprev : head.getLast? = some prev)
    (hkey : plainFrom prev key = true) :
    Passes wrap size ⟨buf, ⟨head.length, head.length, 0, 0⟩⟩ [] (key.length + 1)
      ⟨buf, ⟨(head ++ key ++ [quote]).length, head.length, (head ++ key).length, 0⟩⟩ := by
  have hpasses := @passes_quote wrap size hwrap buf head key rest prev head.length head.length 0 0
    hlen hbuf hprev hkey rfl
  rw [atQuote, if_neg (length_ne_zero hprev), if_pos rfl] at hpasses
  have hin : head.length + key.length + 1 ≤ size := by
    rw [← hlen, hbuf]
    simp only [List.length_append, List.length_cons]
    omega
  rw [hwrap _ hin] at hpasses
  simpa [List.length_append, Nat.add_assoc] using hpasses

/-- The quote that opens a value. -/
theorem passes_gap {buf head key gap rest : List Byte} {prev : Byte} (hlen : buf.length = size)
    (hbuf : buf = head ++ (key ++ quote :: (gap ++ quote :: rest)))
    (hprev : head.getLast? = some prev) (hgap : plainFrom quote gap = true) :
    Passes wrap size
      ⟨buf, ⟨(head ++ key ++ [quote]).length, head.length, (head ++ key).length, 0⟩⟩ []
      (gap.length + 1) ⟨buf, ⟨(head ++ key ++ quote :: gap ++ [quote]).length, head.length,
        (head ++ key).length, (head ++ key ++ quote :: gap ++ [quote]).length⟩⟩ := by
  have hhead := length_ne_zero hprev
  have hend : (head ++ key).length ≠ 0 := by
    rw [List.length_append]
    omega
  have hpasses := @passes_quote wrap size hwrap buf (head ++ key ++ [quote]) gap rest quote
    (head ++ key ++ [quote]).length head.length (head ++ key).length 0 hlen (by rw [hbuf]; simp)
    List.getLast?_concat hgap rfl
  rw [atQuote, if_neg hhead, if_neg hend, if_pos rfl] at hpasses
  have hpos : (head ++ key ++ [quote]).length + gap.length + 1 =
      (head ++ key ++ quote :: gap ++ [quote]).length := by simp; omega
  dsimp only at hpasses
  rw [hpos, hwrap _ (by rw [← hlen, hbuf]; simp)] at hpasses
  exact hpasses

/-- A complete pair is handed over, and its closing quotes are overwritten. -/
theorem passes_pair {buf head key gap value tail : List Byte} {prev : Byte}
    (hlen : buf.length = size)
    (hbuf : buf = head ++ (key ++ quote :: (gap ++ quote :: (value ++ quote :: tail))))
    (hprev : head.getLast? = some prev) (hkey : plainFrom prev key = true)
    (hgap : plainFrom quote gap = true) (hvalue : plainFrom quote value = true) :
    Passes wrap size ⟨buf, ⟨head.length, head.length, 0, 0⟩⟩
      [(CStr.ofBytes key, CStr.ofBytes value)]
      (key.length + 1 + (gap.length + 1) + (value.length + 1))
      ⟨head ++ (key ++ 0 :: (gap ++ quote :: (value ++ 0 :: tail))),
        ⟨wrap (size + 1 - tail.length), 0, 0, 0⟩⟩ := by
  have hhead := length_ne_zero hprev
  have hendKey : (head ++ key).length ≠ 0 := by
    rw [List.length_append]
    omega
  have hpasses := @passes_quote wrap size hwrap buf (head ++ key ++ quote :: gap ++ [quote]) value
    tail quote (head ++ key ++ quote :: gap ++ [quote]).length head.length (head ++ key).length
    (head ++ key ++ quote :: gap ++ [quote]).length hlen (by rw [hbuf]; simp) List.getLast?_concat
    hvalue rfl
  have hcutBuf : buf = (head ++ key ++ quote :: gap ++ quote :: value) ++ quote :: tail := by
    rw [hbuf]; simp
  have hpos : (head ++ key ++ quote :: gap ++ [quote]).length + value.length =
      (head ++ key ++ quote :: gap ++ quote :: value).length := by simp; omega
  have hend : (head ++ key ++ quote :: gap ++ quote :: value).length + 2 = size + 1 - tail.length := by
    rw [← hlen, hcutBuf]
    simp only [List.length_append, List.length_cons]
    omega
  have hdropKey : ((head ++ key ++ 0 :: gap ++ quote :: value) ++ 0 :: tail).drop head.length =
      key ++ 0 :: (gap ++ quote :: value ++ 0 :: tail) := by
    simp [List.append_assoc]
  have hdropValue : ((head ++ key ++ 0 :: gap ++ quote :: value) ++ 0 :: tail).drop
      (head ++ key ++ quote :: gap ++ [quote]).length = value ++ 0 :: tail := by
    have hpre : (head ++ key ++ quote :: gap ++ [quote]).length =
        (head ++ key ++ 0 :: gap ++ [quote]).length := by simp
    rw [hpre, show (head ++ key ++ 0 :: gap ++ quote :: value) ++ 0 :: tail =
      (head ++ key ++ 0 :: gap ++ [quote]) ++ (value ++ 0 :: tail) by simp]
    exact List.drop_left
  have hcut := cut_pair head key gap value tail quote quote quote
  rw [← List.length_append, ← hcutBuf] at hcut
  rw [hpos, atQuote, if_neg hhead, if_neg hendKey, if_neg (by simp)] at hpasses
  dsimp only at hpasses
  rw [hend, hcut, hdropKey, hdropValue, ofBytes_cut, ofBytes_cut] at hpasses
  have hall := ((passes_key hwrap hlen hbuf hprev hkey).trans
    (passes_gap hwrap hlen hbuf hprev hgap)).trans hpasses
  simpa [List.append_assoc] using hall

/-- The index after a pair and the byte that is skipped. -/
theorem cursor_after {head key gap value tail : List Byte} {skipped : Byte}
    (hlen : (head ++ (key ++ quote :: (gap ++ quote :: (value ++ quote :: skipped :: tail)))).length =
      size) :
    wrap (size + 1 - (skipped :: tail).length) =
      (head ++ key ++ 0 :: gap ++ quote :: value ++ [0] ++ [skipped]).length := by
  have hpos : size + 1 - (skipped :: tail).length =
      (head ++ key ++ 0 :: gap ++ quote :: value ++ [0] ++ [skipped]).length := by
    rw [← hlen]
    simp only [List.length_append, List.length_cons, List.length_nil]
    omega
  rw [hpos]
  refine hwrap _ ?_
  rw [← hlen]
  simp only [List.length_append, List.length_cons, List.length_nil]
  omega

/-- The loop hands over the pairs of a reading and overwrites their closing quotes. -/
theorem passes_reading (r : Reading) : ∀ {buf head : List Byte} {prev : Byte},
    buf.length = size → buf = head ++ r.bytes quote → head.getLast? = some prev → r.Reads prev →
    ∃ count c, count ≤ (r.bytes quote).length ∧ Ends wrap r size c ∧
      Passes wrap size ⟨buf, ⟨head.length, head.length, 0, 0⟩⟩ r.pairs count
        ⟨head ++ r.bytes 0, c⟩ := by
  induction r with
  | inKey text =>
      intro buf head prev hlen hbuf hprev hreads
      have htext := @passes_text wrap size hwrap buf hlen text head [] prev head.length head.length
        0 0 (by rw [hbuf, List.append_nil]; rfl) hprev hreads rfl
      refine ⟨text.length, ⟨head.length + text.length, head.length, 0, 0⟩, Nat.le_refl _,
        .of_inside rfl ?_ (length_ne_zero hprev), hbuf ▸ htext⟩
      rw [← hlen, hbuf]
      exact List.length_append.symm
  | inGap key text =>
      intro buf head prev hlen hbuf hprev hreads
      have hbytes : buf = (head ++ key ++ [quote]) ++ (text ++ []) := by
        rw [hbuf]
        simp [Reading.bytes]
      have htext := @passes_text wrap size hwrap buf hlen text _ [] quote _ head.length
        (head ++ key).length 0 hbytes List.getLast?_concat hreads.2 rfl
      have hpasses := (passes_key hwrap hlen hbuf hprev hreads.1).trans htext
      rw [show buf = head ++ (Reading.inGap key text).bytes 0 from hbuf] at hpasses ⊢
      refine ⟨key.length + 1 + text.length, _, ?_, .of_inside rfl ?_ ?_, hpasses⟩
      · simp only [Reading.bytes, List.length_append, List.length_cons]
        omega
      · rw [← hlen, hbytes, List.append_nil]
        exact List.length_append.symm
      · exact length_ne_zero hprev
  | inValue key gap text =>
      intro buf head prev hlen hbuf hprev hreads
      have hbytes : buf = (head ++ key ++ quote :: gap ++ [quote]) ++ (text ++ []) := by
        rw [hbuf]
        simp [Reading.bytes]
      have htext := @passes_text wrap size hwrap buf hlen text _ [] quote _ head.length
        (head ++ key).length (head ++ key ++ quote :: gap ++ [quote]).length hbytes
        List.getLast?_concat hreads.2.2 rfl
      have hpasses := ((passes_key hwrap hlen hbuf hprev hreads.1).trans
        (passes_gap hwrap hlen hbuf hprev hreads.2.1)).trans htext
      rw [show buf = head ++ (Reading.inValue key gap text).bytes 0 from hbuf] at hpasses ⊢
      refine ⟨key.length + 1 + (gap.length + 1) + text.length, _, ?_, .of_inside rfl ?_ ?_, hpasses⟩
      · simp only [Reading.bytes, List.length_append, List.length_cons]
        omega
      · rw [← hlen, hbytes, List.append_nil]
        exact List.length_append.symm
      · exact length_ne_zero hprev
  | closed key gap value =>
      intro buf head prev hlen hbuf hprev hreads
      refine ⟨_, ⟨wrap (size + 1), 0, 0, 0⟩, ?_, .of_outside rfl rfl,
        passes_pair hwrap hlen hbuf hprev hreads.1 hreads.2.1 hreads.2.2⟩
      simp only [Reading.bytes, List.length_append, List.length_cons, List.length_nil]
      omega
  | ended key gap value skipped text =>
      intro buf head prev hlen hbuf hprev hreads
      have hpair := passes_pair hwrap hlen hbuf hprev hreads.1 hreads.2.1 hreads.2.2.1
      rw [cursor_after hwrap ((congrArg List.length hbuf).symm.trans hlen)] at hpair
      have hcut : head ++ (key ++ 0 :: (gap ++ quote :: (value ++ 0 :: skipped :: text))) =
          (head ++ key ++ 0 :: gap ++ quote :: value ++ [0] ++ [skipped]) ++ (text ++ []) := by simp
      have hcutLen : (head ++ (key ++ 0 :: (gap ++ quote :: (value ++ 0 :: skipped :: text)))).length =
          size := by
        rw [← hlen, hbuf]
        simp [Reading.bytes]
      have htext := @passes_text wrap size hwrap _ hcutLen text _ [] skipped _ 0 0 0 hcut
        List.getLast?_concat hreads.2.2.2 rfl
      have hend : (head ++ key ++ 0 :: gap ++ quote :: value ++ [0] ++ [skipped]).length +
          text.length = size := by
        rw [← hcutLen, hcut, List.append_nil]
        exact List.length_append.symm
      rw [hend] at htext
      refine ⟨_, ⟨size, 0, 0, 0⟩, ?_, .of_outside rfl ?_, hpair.trans htext⟩
      · simp only [Reading.bytes, List.length_append, List.length_cons]
        omega
      · rw [show Reading.closes _ = false from rfl, if_neg (by decide), Nat.add_zero,
          hwrap size (Nat.le_refl _)]
  | next key gap value skipped text rest ih =>
      intro buf head prev hlen hbuf hprev hreads
      have hpair := passes_pair hwrap hlen hbuf hprev hreads.1 hreads.2.1 hreads.2.2.1
      rw [cursor_after hwrap ((congrArg List.length hbuf).symm.trans hlen)] at hpair
      have hcut : head ++ (key ++ 0 :: (gap ++ quote :: (value ++ 0 :: skipped ::
          (text ++ quote :: rest.bytes quote)))) =
          (head ++ key ++ 0 :: gap ++ quote :: value ++ [0] ++ [skipped]) ++
            (text ++ quote :: rest.bytes quote) := by simp
      have hrest : head ++ (key ++ 0 :: (gap ++ quote :: (value ++ 0 :: skipped ::
          (text ++ quote :: rest.bytes quote)))) =
          (head ++ key ++ 0 :: gap ++ quote :: value ++ [0] ++ [skipped] ++ text ++ [quote]) ++
            rest.bytes quote := by simp
      have hcutLen : (head ++ (key ++ 0 :: (gap ++ quote :: (value ++ 0 :: skipped ::
          (text ++ quote :: rest.bytes quote))))).length = size := by
        rw [← hlen, hbuf]
        simp [Reading.bytes]
      have hopen : (head ++ key ++ 0 :: gap ++ quote :: value ++ [0] ++ [skipped]).length +
          text.length + 1 = (head ++ key ++ 0 :: gap ++ quote :: value ++ [0] ++ [skipped] ++ text ++
            [quote]).length := by
        simp only [List.length_append, List.length_singleton]
      have hquote := @passes_quote wrap size hwrap _ _ text _ skipped _ 0 0 0 hcutLen hcut
        List.getLast?_concat hreads.2.2.2.1 rfl
      rw [atQuote, if_pos rfl] at hquote
      dsimp only at hquote
      rw [hopen, hwrap _ (by rw [← hcutLen, hrest]; simp)] at hquote
      obtain ⟨count, c, hcount, hends, hpasses⟩ := ih hcutLen hrest List.getLast?_concat
        hreads.2.2.2.2
      have hall := (hpair.trans hquote).trans hpasses
      refine ⟨key.length + 1 + (gap.length + 1) + (value.length + 1) + (text.length + 1) + count, c,
        ?_, ⟨hends.inside, hends.outside⟩, ?_⟩
      · simp only [Reading.bytes, List.length_append, List.length_cons]
        omega
      · simpa [Reading.bytes, Reading.pairs, Reading.raw] using hall

omit hwrap in
/-- The strings of the pairs, handed over one after another. -/
theorem hand_to_pairs {σ : Type} (call : σ → CStr → CStr → Exec σ) (r : Reading) (st : σ) :
    handTo call r.pairs st = feed call st r.raw := by
  unfold handTo feed Reading.pairs
  rw [List.foldlM_map]

/-- The first pass over a block: its first byte opens a key, whatever it is. -/
theorem passes_block {b : Byte} {r : Reading} (hlen : (b :: r.bytes quote).length = size)
    (hreads : r.Reads b) : ∃ count c, count ≤ size ∧ Ends wrap r size c ∧
      Passes wrap size (.start (b :: r.bytes quote)) r.pairs count ⟨b :: r.bytes 0, c⟩ := by
  have hsize : 0 < size := by rw [← hlen]; simp
  have hfirst : turn wrap size (.start (b :: r.bytes quote)) =
      some (⟨b :: r.bytes quote, ⟨1, 1, 0, 0⟩⟩, 0, none) := by
    rw [turn, Walk.start, if_pos hsize, if_neg (by simp), atQuote, if_pos rfl]
    dsimp only
    rw [hwrap _ (by omega)]
  obtain ⟨count, c, hcount, hends, hpasses⟩ := passes_reading hwrap r hlen
    (show b :: r.bytes quote = [b] ++ r.bytes quote from rfl) rfl hreads
  refine ⟨1 + count, c, ?_, hends, (Passes.single hfirst).trans hpasses⟩
  rw [← hlen, List.length_cons]
  omega

omit hwrap

/-- The first pass of the 16-bit loop. -/
theorem parse_loop_pass {σ : Type} (call : σ → CStr → CStr → Exec σ) {b : Byte} {r : Reading}
    (hsize : (b :: r.bytes quote).length < 65536) (hreads : r.Reads b) {fuel : Nat}
    (hfuel : (b :: r.bytes quote).length ≤ fuel) :
    ∃ fuel' c, fuel ≤ fuel' + (b :: r.bytes quote).length ∧
      Ends wrap16 r (b :: r.bytes quote).length c ∧
      ∀ st, parseLoop call (b :: r.bytes quote).length fuel (b :: r.bytes quote) ⟨0, 0, 0, 0⟩ st =
        (feed call st r.raw).bind fun st =>
          parseLoop call (b :: r.bytes quote).length fuel' (b :: r.bytes 0) c st := by
  obtain ⟨count, c, hcount, hends, es, hturns, hcalls, rfl⟩ := passes_block
    (fun n hn => Nat.mod_eq_of_lt (show n < 65536 by omega)) rfl hreads
  obtain ⟨fuel', rfl⟩ := Nat.exists_eq_add_of_le' (Nat.le_trans hcount hfuel)
  refine ⟨fuel', c, by omega, hends, fun st => ?_⟩
  rw [← hand_to_pairs, ← hcalls]
  exact parse_loop_turns hturns fuel' st

/-- Behind the last byte the loop ends. -/
theorem parse_loop_end {σ : Type} {call : σ → CStr → CStr → Exec σ} {buf : List Byte} {c : Cursor} (h : size ≤ c.n) (fuel : Nat) (st : σ) :
    parseLoop call size (fuel + 1) buf c st = some (c, st) := by
  rw [parseLoop, if_neg (by omega)]

/-- The last byte of a block that closes a pair. -/
theorem getLast_of_closes (close : Byte) (r : Reading) (h : r.closes = true) :
    (r.bytes close).getLast? = some close := by
  induction r with
  | closed key gap value =>
      rw [Reading.bytes, show key ++ close :: (gap ++ quote :: (value ++ [close])) =
        (key ++ close :: (gap ++ quote :: value)) ++ [close] by simp]
      exact List.getLast?_concat
  | next key gap value skipped text rest ih =>
      rw [Reading.bytes, show key ++ close :: (gap ++ quote :: (value ++ close :: skipped ::
        (text ++ quote :: rest.bytes close))) = (key ++ close :: (gap ++ quote :: (value ++ close ::
          skipped :: (text ++ [quote])))) ++ rest.bytes close by simp, List.getLast?_append, ih h]
      rfl
  | _ => cases h

/-- Overwriting quotes keeps the length. -/
theorem length_bytes (close : Byte) (r : Reading) :
    (r.bytes close).length = (r.bytes quote).length := by
  induction r with
  | next key gap value skipped text rest ih =>
      simp only [Reading.bytes, List.length_append, List.length_cons, ih]
  | _ => simp only [Reading.bytes, List.length_append, List.length_cons]

end Loop

/-- What the walk from here on does: it feeds the pairs to `call` and ends outside a pair or not. -/
def LoopSpec {σ : Type} (call : σ → CStr → CStr → Exec σ) (result : Exec (Cursor × σ))
    (scanned : List (List Byte × List Byte) × Bool) (st : σ) : Prop :=
  ∃ c : Cursor, result = (feed call st scanned.1).map (fun st => (c, st)) ∧
    (c.startKey = 0 ↔ scanned.2 = true)

/-- The whole loop does what the automaton says, as long as the cursor does not wrap: the block is
shorter than 65535 bytes or does not end in a quote. -/
theorem parse_loop_scan {σ : Type} (call : σ → CStr → CStr → Exec σ) (st : σ) {block : List Byte}
    (hlen : block.length < 65536)
    (hwrap : block.length < 65535 ∨ block.getLast? ≠ some quote) :
    LoopSpec call (parseLoop call block.length (2 * (block.length + 1)) block ⟨0, 0, 0, 0⟩ st)
      (scan block) st := by
  cases block with
  | nil => exact ⟨⟨0, 0, 0, 0⟩, rfl, by simp [scan]⟩
  | cons b rest =>
      obtain ⟨r, hreads, rfl⟩ := exists_reading b rest
      obtain ⟨fuel', c, hle, hends, hrun⟩ := parse_loop_pass call hlen hreads
        (show _ ≤ 2 * ((b :: r.bytes quote).length + 1) by omega)
      have hend : (b :: r.bytes quote).length ≤ c.n := by
        cases hcomplete : r.complete with
        | false => rw [(hends.inside hcomplete).1]
        | true =>
            rw [hends.outside hcomplete]
            split_ifs with hcloses
            · -- the last byte is a quote, so the block is short
              have hquote : (b :: r.bytes quote).getLast? = some quote := by
                rw [List.getLast?_cons, getLast_of_closes quote r hcloses]
                rfl
              have hshort := hwrap.resolve_right fun h => h hquote
              rw [wrap16, Nat.mod_eq_of_lt (by omega)]
              exact Nat.le_succ _
            · rw [Nat.add_zero, wrap16, Nat.mod_eq_of_lt hlen]
      obtain ⟨fuel'', rfl⟩ := Nat.exists_eq_add_of_le' (show 1 ≤ fuel' by omega)
      refine ⟨c, ?_, ?_⟩
      · rw [hrun, scan, scan_reading r hreads]
        simp only [parse_loop_end hend]
        exact (Option.map_eq_bind ..).symm
      · rw [scan, scan_reading r hreads]
        cases hcomplete : r.complete with
        | false => simpa using (hends.inside hcomplete).2
        | true => simp [hends.outside hcomplete]

/-- Parsing sets the pairs of the block and reports whether the block ends outside a pair. -/
theorem parse_var_header_spec (frame : Frame) {block : List Byte} (hlen : block.length < 65536)
    (hwrap : block.length < 65535 ∨ block.getLast? ≠ some quote) :
    frame.parseVarHeader block = (feed setParsed frame (scan block).1).map fun frame =>
      (if (scan block).2 then .ok else .invalidVarHeaders, frame) := by
  by_cases hempty : block.length = 0
  · obtain rfl : block = [] := List.length_eq_zero_iff.mp hempty
    rfl
  obtain ⟨c, hrun, hc⟩ := parse_loop_scan setParsed frame hlen hwrap
  unfold parseVarHeader
  rw [if_neg hempty]
  change ((parseLoop setParsed _ _ _ _ frame).bind _) = _
  rw [hrun]
  cases feed setParsed frame (scan block).1 with
  | none => rfl
  | some frame' => cases hdone : (scan block).2 <;> simp [hdone, hc]

/-- The parser hands the pairs of the block on, as long as the cursor does not wrap. -/
theorem handed_eq_pairs {block : List Byte} (hlen : block.length < 65536)
    (hwrap : block.length < 65535 ∨ block.getLast? ≠ some quote) : handed block = pairs block := by
  obtain ⟨c, hrun, -⟩ := parse_loop_scan record [] hlen hwrap
  unfold handed
  rw [hrun, feed_record]
  rfl

end Bpsp.Frame
