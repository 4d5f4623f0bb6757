import Bpsp.Frame.Reading

/-!
# Encoding and parsing header tables

A string survives encoding and parsing when every quote in it follows a backslash and it does not
end in one (`Plain`). Tables of plain strings are parsed back as they were (`parse_encode`), and a
parse of encoded bytes never yields anything else (`parsed_plain`). The parser itself lets through
strings that are not plain: the first byte of a block opens a key whatever it is, and a NUL can cut
a text right after a backslash. `reparse_iff` says for which blocks this matters.
-/

namespace Bpsp.Frame

open CLib

/-- The strings that can stand between quotes. -/
def Plain (s : CStr) : Prop := plainFrom quote s.bytes = true

instance (s : CStr) : Decidable (Plain s) := inferInstanceAs (Decidable (_ = true))

/-- The bytes of a table on the wire. -/
def encode (t : Table) : List Byte := t.flatMap fun e => headerBytes e.1 e.2

theorem headerBytes_eq {k v : CStr} (hk : k.length < 65536) (hv : v.length < 65536) :
    headerBytes k v = quote :: (k.bytes ++ quote :: quote :: (v.bytes ++ [quote, 59])) := by
  rw [headerBytes, Nat.mod_eq_of_lt hk, Nat.mod_eq_of_lt hv, CStr.length, CStr.length,
    List.take_length, List.take_length]
  simp [quote]

theorem length_of_mem {t : Table} (hfits : encSize t ≤ 65535) {e : CStr × CStr} (he : e ∈ t) :
    e.1.length < 65536 ∧ e.2.length < 65536 := by
  have := le_encSize (k := e.1) (v := e.2) he
  omega

theorem length_encode {t : Table} (hfits : encSize t ≤ 65535) :
    (encode t).length = encSize t := by
  have hlen := fun e he => length_of_mem hfits (e := e) he
  clear hfits
  induction t with
  | nil => rfl
  | cons e t ih =>
      obtain ⟨hk, hv⟩ := hlen e (by simp)
      have hrest := ih fun e' he' => hlen e' (by simp [he'])
      simp only [encode] at hrest
      simp only [encode, List.flatMap_cons, List.length_append, hrest, headerBytes_eq hk hv,
        List.length_cons, encSize_cons, CStr.length, List.length_nil]
      omega

theorem toBytes_stored (t : Table) : toBytes (stored t) = some (encode t) := by
  induction t with
  | nil => rfl
  | cons e t ih => simp [stored_cons, toBytes, ih, encode]

/-- Tables of plain strings are scanned back. -/
theorem scan_encode {t : Table} (hfits : encSize t ≤ 65535)
    (hplain : ∀ e ∈ t, Plain e.1 ∧ Plain e.2) :
    scan (encode t) = (t.map fun e => (e.1.bytes, e.2.bytes), true) := by
  have hlen := fun e he => length_of_mem hfits (e := e) he
  clear hfits
  have hrest : ∀ t : Table, (∀ e ∈ t, Plain e.1 ∧ Plain e.2) →
      (∀ e ∈ t, e.1.length < 65536 ∧ e.2.length < 65536) →
      scanBytes .outside 59 (encode t) = (t.map fun e => (e.1.bytes, e.2.bytes), true) := by
    intro t
    induction t with
    | nil => exact fun _ _ => rfl
    | cons e t ih =>
        intro hplain hlen
        obtain ⟨hkey, hvalue⟩ := hplain e (by simp)
        obtain ⟨hk, hv⟩ := hlen e (by simp)
        have htail := ih (fun e' he' => hplain e' (by simp [he']))
          fun e' he' => hlen e' (by simp [he'])
        simp only [encode] at htail
        simp only [encode, List.flatMap_cons, headerBytes_eq hk hv, List.cons_append,
          List.append_assoc, List.nil_append]
        rw [scanBytes, if_pos (by decide), scan_key hkey, scanBytes, if_pos (by decide),
          scan_value hvalue]
        simp [scanBytes, htail]
  cases t with
  | nil => rfl
  | cons e t =>
      have hopen : scan (encode (e :: t)) = scanBytes .outside 59 (encode (e :: t)) := by
        obtain ⟨hk, hv⟩ := hlen e (by simp)
        simp only [encode, List.flatMap_cons, headerBytes_eq hk hv, List.cons_append, scan]
        rw [scanBytes, if_pos (by decide)]
      rw [hopen]
      exact hrest (e :: t) hplain hlen

/-- Sets pairs one after another; a pair with an empty key is ignored. -/
def fill (t : Table) (ps : List (CStr × CStr)) : Table :=
  ps.foldl (fun t p => if p.1.length = 0 then t else put t p.1 p.2) t

/-- The room that pairs may need in an encoded table. -/
def weight (ps : List (CStr × CStr)) : Nat := (ps.map fun p => p.1.length + p.2.length + 5).sum

theorem encSize_put_le {t : Table} (hnodup : t.keys.Nodup) (k v : CStr) :
    encSize (put t k v) ≤ encSize t + (k.length + v.length + 5) := by
  by_cases h : k ∈ t.keys
  · obtain ⟨old, hold⟩ := Option.isSome_iff_exists.mp (HashTable.find_isSome_iff.mpr h)
    have := encSize_update (v := v) hnodup hold
    rw [put_of_mem v h]
    omega
  · rw [put_of_not_mem v h, encSize_add]

/-- Pairs for which there is room are all set. -/
theorem feed_fits {fr : Frame} {t : Table} (h : Carries fr t) (raw : List (List Byte × List Byte))
    {ps : List (CStr × CStr)} (hps : ps = raw.map fun p => (CStr.ofBytes p.1, CStr.ofBytes p.2))
    (hvalues : ∀ p ∈ ps, p.2.length ≠ 0) (hroom : encSize t + weight ps ≤ 65535) :
    feed setParsed fr raw = some (fr.withHeaders (fill t ps)) ∧ WellFormed (fill t ps) ∧
      encSize (fill t ps) ≤ 65535 := by
  induction raw generalizing fr t ps with
  | nil =>
      subst hps
      exact ⟨by simp [feed, fill, ← h.eq_withHeaders], h.wf, h.fits⟩
  | cons p raw ih =>
      subst hps
      have hvalue := hvalues (CStr.ofBytes p.1, CStr.ofBytes p.2) (by simp)
      simp only [List.map_cons, weight, List.sum_cons] at hroom hvalues
      have hrest := fun q hq => hvalues q (List.mem_cons_of_mem _ hq)
      simp only [feed, List.foldlM_cons] at ih ⊢
      by_cases hk : (CStr.ofBytes p.1).length = 0
      · have hskip : setParsed fr (CStr.ofBytes p.1) (CStr.ofBytes p.2) = some fr := by
          simp [setParsed, setVarHeader, hk]
        have hfill : fill t ((p :: raw).map fun p => (CStr.ofBytes p.1, CStr.ofBytes p.2)) =
            fill t (raw.map fun p => (CStr.ofBytes p.1, CStr.ofBytes p.2)) := by simp [fill, hk]
        rw [hskip, hfill]
        exact ih h rfl hrest (by simp only [weight]; omega)
      · have hle := encSize_put_le h.wf.nodup (CStr.ofBytes p.1) (CStr.ofBytes p.2)
        have hfits : encSize (put t (CStr.ofBytes p.1) (CStr.ofBytes p.2)) ≤ 65535 := by omega
        have hset : setParsed fr (CStr.ofBytes p.1) (CStr.ofBytes p.2) =
            some (fr.withHeaders (put t (CStr.ofBytes p.1) (CStr.ofBytes p.2))) := by
          simp [setParsed, set_var_header_fits h hk hvalue hfits]
        have hfill : fill t ((p :: raw).map fun p => (CStr.ofBytes p.1, CStr.ofBytes p.2)) =
            fill (put t (CStr.ofBytes p.1) (CStr.ofBytes p.2))
              (raw.map fun p => (CStr.ofBytes p.1, CStr.ofBytes p.2)) := by simp [fill, hk]
        rw [hset, hfill]
        exact ih (carries_withHeaders fr hfits (h.wf.put hk hvalue)) rfl hrest
          (by simp only [weight]; omega)

/-- The bytes of the current pair that the walk has passed. -/
def credit : Mode → Nat
  | .outside => 0
  | .key k => k.length + 1
  | .gap k => k.length + 2
  | .value k v => k.length + v.length + 3
  | .skip => 0

/-- The byte of a closed pair that the walk has not passed. -/
def owed : Mode → Nat
  | .skip => 1
  | _ => 0

/-- Each pair takes as many bytes of the block as it needs in an encoded table, but for the one
byte that is missing when the block ends in a closing quote (`slack`). -/
theorem scan_weight {slack : Nat} (rest : List Byte) : ∀ {m : Mode} {prev : Byte},
    (rest.getLast? = some quote → slack = 1) → (m = .skip → rest = [] → slack = 1) →
    ((scanBytes m prev rest).1.map fun p => p.1.length + p.2.length + 5).sum + owed m ≤
      rest.length + credit m + slack := by
  induction rest with
  | nil =>
      intro m prev hlast hskip
      cases m with
      | skip => simp [scanBytes, credit, owed, hskip rfl rfl]
      | _ => simp [scanBytes, credit, owed]
  | cons b rest ih =>
      intro m prev hlast hskip
      have hlast' : rest.getLast? = some quote → slack = 1 := by
        intro h
        cases rest with
        | nil => simp at h
        | cons b' rest => exact hlast (by simpa using h)
      cases m with
      | outside =>
          rw [scanBytes]
          split_ifs with hq
          · have := @ih (.key []) b hlast' (by simp)
            simp [credit, owed] at this ⊢
            omega
          · have := @ih .outside b hlast' (by simp)
            simp [credit, owed] at this ⊢
            omega
      | key k =>
          rw [scanBytes]
          split_ifs with hq
          · have := @ih (.gap k) b hlast' (by simp)
            simp [credit, owed] at this ⊢
            omega
          · have := @ih (.key (k ++ [b])) b hlast' (by simp)
            simp [credit, owed] at this ⊢
            omega
      | gap k =>
          rw [scanBytes]
          split_ifs with hq
          · have := @ih (.value k []) b hlast' (by simp)
            simp [credit, owed] at this ⊢
            omega
          · have := @ih (.gap k) b hlast' (by simp)
            simp [credit, owed] at this ⊢
            omega
      | value k v =>
          rw [scanBytes]
          split_ifs with hq
          · have := @ih .skip b hlast' fun _ hnil => hlast (by simp [hnil, hq.1])
            simp [credit, owed] at this ⊢
            omega
          · have := @ih (.value k (v ++ [b])) b hlast' (by simp)
            simp [credit, owed] at this ⊢
            omega
      | skip =>
          rw [scanBytes]
          have := @ih .outside b hlast' (by simp)
          simp [credit, owed] at this ⊢
          omega

/-- The pairs of a block on which the cursor does not wrap fit into a frame. -/
theorem weight_pairs {block : List Byte} (hlen : block.length < 65536)
    (hwrap : block.length < 65535 ∨ block.getLast? ≠ some quote) : weight (pairs block) ≤ 65535 := by
  have hcut : weight (pairs block) ≤
      ((scan block).1.map fun p => p.1.length + p.2.length + 5).sum := by
    simp only [weight, pairs, List.map_map]
    refine List.sum_le_sum fun p _ => ?_
    have h1 := CStr.length_ofBytes_le p.1
    have h2 := CStr.length_ofBytes_le p.2
    simp only [Function.comp]
    omega
  cases block with
  | nil => simp [pairs, scan, weight]
  | cons b rest =>
      have hlast : rest.getLast? = some quote →
          (if rest.getLast? = some quote then 1 else 0) = 1 := fun h => if_pos h
      have hbound := @scan_weight _ rest (.key []) b hlast (by simp)
      simp only [scan] at hcut
      simp only [credit, owed, List.length_nil, List.length_cons] at hbound hlen
      split_ifs at hbound with h1
      · rcases hwrap with hshort | hnot
        · simp at hshort
          omega
        · refine absurd ?_ hnot
          cases rest with
          | nil => simp at h1
          | cons b' rest => simpa using h1
      · omega

/-- A block whose values are not empty is parsed into the table of its pairs. -/
theorem parse_fills {fr : Frame} (h : Carries fr []) {block : List Byte}
    (hlen : block.length < 65536) (hwrap : block.length < 65535 ∨ block.getLast? ≠ some quote)
    (hvalues : ∀ p ∈ pairs block, p.2.length ≠ 0) :
    fr.parseVarHeader block = some (if (scan block).2 then .ok else .invalidVarHeaders,
      fr.withHeaders (fill [] (pairs block))) ∧
    WellFormed (fill [] (pairs block)) ∧ encSize (fill [] (pairs block)) ≤ 65535 := by
  have hroom : encSize [] + weight (pairs block) ≤ 65535 := by
    simpa using weight_pairs hlen hwrap
  obtain ⟨hfeed, hwf, hfits⟩ := feed_fits h (scan block).1 rfl hvalues hroom
  refine ⟨?_, hwf, hfits⟩
  rw [parse_var_header_spec fr hlen hwrap, hfeed]
  rfl

theorem fill_of_wellFormed {t u : Table} (h : WellFormed (t ++ u)) : fill t u = t ++ u := by
  induction u generalizing t with
  | nil => simp [fill]
  | cons e u ih =>
      have hk : e.1.length ≠ 0 := h.keys_ne (by simp [HashTable.keys])
      have hstep : fill t (e :: u) = fill (put t e.1 e.2) u := by simp [fill, hk]
      rw [hstep, put_next h, ih (by simpa using h)]
      simp

/-- Encoded tables never make the cursor wrap, as they end in `;`. -/
theorem encode_no_wrap {t : Table} (hfits : encSize t ≤ 65535) :
    (encode t).length < 65536 ∧
      ((encode t).length < 65535 ∨ (encode t).getLast? ≠ some quote) := by
  have hlen := length_encode hfits
  refine ⟨by omega, Or.inr ?_⟩
  rcases List.eq_nil_or_concat t with rfl | ⟨t', e, rfl⟩
  · simp [encode]
  · obtain ⟨hk, hv⟩ := length_of_mem hfits (e := e) (by simp)
    have hend : encode (t'.concat e) =
        encode t' ++ (quote :: (e.1.bytes ++ quote :: quote :: (e.2.bytes ++ [quote]))) ++ [59] := by
      simp [encode, headerBytes_eq hk hv]
    rw [hend, List.getLast?_concat]
    decide

theorem pairs_encode {t : Table} (hfits : encSize t ≤ 65535)
    (hplain : ∀ e ∈ t, Plain e.1 ∧ Plain e.2) : pairs (encode t) = t := by
  simp only [pairs, scan_encode hfits hplain, List.map_map]
  conv_rhs => rw [← List.map_id t]
  refine List.map_congr_left fun e _ => ?_
  simp only [Function.comp, id]
  exact Prod.ext (CStr.ext (CStr.bytes_ofBytes e.1.nul_free))
    (CStr.ext (CStr.bytes_ofBytes e.2.nul_free))

/-- A table of plain strings is parsed back as it was. -/
theorem parse_encode {fr : Frame} (h : Carries fr []) {t : Table} (hwf : WellFormed t)
    (hfits : encSize t ≤ 65535) (hplain : ∀ e ∈ t, Plain e.1 ∧ Plain e.2) :
    fr.parseVarHeader (encode t) = some (.ok, fr.withHeaders t) := by
  have hscan := scan_encode hfits hplain
  have hpairs := pairs_encode hfits hplain
  obtain ⟨hlen, hwrap⟩ := encode_no_wrap hfits
  have hparse := (parse_fills h hlen hwrap (by
    rw [hpairs]
    exact fun p hp => hwf.values_ne (k := p.1) hp)).1
  rw [hparse, hpairs, hscan, fill_of_wellFormed (by simpa using hwf)]
  rfl

/-- The text read so far has no NUL and is plain as far as it goes. -/
def PlainSoFar (text : List Byte) (prev : Byte) : Prop :=
  (0 : Byte) ∉ text ∧ ∀ rest, plainFrom quote (text ++ rest) = plainFrom prev rest

/-- The texts of the current pair are plain as far as they go. -/
def PlainMode : Mode → Byte → Prop
  | .key k, prev => PlainSoFar k prev
  | .gap k, _ => Plain (CStr.ofBytes k)
  | .value k v, prev => Plain (CStr.ofBytes k) ∧ PlainSoFar v prev
  | _, _ => True

namespace PlainSoFar

theorem nil : PlainSoFar [] quote := ⟨by simp, fun _ => rfl⟩

theorem concat {text : List Byte} {prev b : Byte} (h : PlainSoFar text prev) (hb : b ≠ 0)
    (hq : ¬ (b = quote ∧ prev ≠ backslash)) : PlainSoFar (text ++ [b]) b := by
  refine ⟨by simp [h.1, hb.symm], fun rest => ?_⟩
  have hstep : (decide (b ≠ quote) || decide (prev = backslash)) = true := by
    simp only [Bool.or_eq_true, decide_eq_true_eq]
    tauto
  rw [List.append_assoc, h.2, List.singleton_append, plainFrom, hstep, Bool.true_and]

theorem close {text : List Byte} {prev : Byte} (h : PlainSoFar text prev)
    (hprev : prev ≠ backslash) : Plain (CStr.ofBytes text) := by
  have hall := h.2 []
  rw [Plain, CStr.bytes_ofBytes h.1]
  simpa [plainFrom, hprev] using hall

end PlainSoFar

/-- Texts between real quotes are plain when the block has no NUL. -/
theorem scanned_plain (rest : List Byte) : ∀ {m : Mode} {prev : Byte}, (0 : Byte) ∉ rest →
    PlainMode m prev → ∀ p ∈ (scanBytes m prev rest).1,
      Plain (CStr.ofBytes p.1) ∧ Plain (CStr.ofBytes p.2) := by
  induction rest with
  | nil =>
      intro m prev _ _ p hp
      cases m <;> simp [scanBytes] at hp
  | cons b rest ih =>
      intro m prev hnul hm p hp
      obtain ⟨hb, hnul⟩ : b ≠ 0 ∧ (0 : Byte) ∉ rest := by simpa [eq_comm] using hnul
      cases m with
      | outside =>
          rw [scanBytes] at hp
          split_ifs at hp with hq
          · exact @ih (.key []) b hnul (hq.1 ▸ PlainSoFar.nil) p hp
          · exact @ih .outside b hnul trivial p hp
      | key k =>
          rw [scanBytes] at hp
          split_ifs at hp with hq
          · exact @ih (.gap k) b hnul (hm.close hq.2) p hp
          · exact @ih (.key (k ++ [b])) b hnul (hm.concat hb hq) p hp
      | gap k =>
          rw [scanBytes] at hp
          split_ifs at hp with hq
          · exact @ih (.value k []) b hnul ⟨hm, hq.1 ▸ PlainSoFar.nil⟩ p hp
          · exact @ih (.gap k) b hnul hm p hp
      | value k v =>
          rw [scanBytes] at hp
          split_ifs at hp with hq
          · rcases List.mem_cons.mp hp with rfl | hp
            · exact ⟨hm.1, hm.2.close hq.2⟩
            · exact @ih .skip b hnul trivial p hp
          · exact @ih (.value k (v ++ [b])) b hnul ⟨hm.1, hm.2.concat hb hq⟩ p hp
      | skip =>
          rw [scanBytes] at hp
          exact @ih .outside b hnul trivial p hp

/-- All strings of a stored table are plain. -/
def AllPlain (headers : Headers) : Prop := ∀ k v, (k, some v) ∈ headers → Plain k ∧ Plain v

/-- Setting plain headers keeps the table plain, whatever the outcome. -/
theorem set_parsed_plain {fr fr' : Frame} {k v : CStr} (h : AllPlain fr.varHeaders)
    (hk : Plain k) (hv : Plain v) (hset : setParsed fr k v = some fr') :
    AllPlain fr'.varHeaders := by
  have hadd : AllPlain (fr.varHeaders.add k (if v.length = 0 then none else some v)) := by
    intro k' w hmem
    rcases List.mem_append.mp hmem with hmem | hmem
    · exact h k' w hmem
    · split_ifs at hmem <;> simp at hmem
      rw [hmem.1, hmem.2]
      exact ⟨hk, hv⟩
  have hupdate : AllPlain (fr.varHeaders.update k (some v)) := by
    intro k' w hmem
    rw [HashTable.mem_update_iff] at hmem
    split_ifs at hmem with heq
    · rw [← heq, Option.some.inj hmem.2]
      exact ⟨hk, hv⟩
    · exact h k' w hmem
  simp only [setParsed, Option.map_eq_some_iff, Prod.exists] at hset
  obtain ⟨s, fr₁, hset, rfl⟩ := hset
  simp only [setVarHeader] at hset
  split_ifs at hset with hempty
  · obtain ⟨-, rfl⟩ := Prod.mk.inj (Option.some.inj hset)
    exact h
  · simp only [bind, Option.bind_some] at hset
    cases hfind : fr.varHeaders.find k with
    | none =>
        simp only [hfind] at hset
        by_cases hfit : fr.varsSize + k.length % 65536 + v.length % 65536 + 5 < 65536
        · rw [if_pos hfit] at hset
          obtain ⟨-, rfl⟩ := Prod.mk.inj (Option.some.inj hset)
          exact hadd
        · rw [if_neg hfit] at hset
          obtain ⟨-, rfl⟩ := Prod.mk.inj (Option.some.inj hset)
          exact h
    | some old =>
        cases old with
        | none => simp [hfind] at hset
        | some old =>
            simp only [hfind, Option.bind_some] at hset
            split_ifs at hset
            all_goals
              obtain ⟨-, rfl⟩ := Prod.mk.inj (Option.some.inj hset)
              exact hupdate

theorem feed_plain {raw : List (List Byte × List Byte)} {fr fr' : Frame}
    (h : AllPlain fr.varHeaders)
    (hraw : ∀ p ∈ raw, Plain (CStr.ofBytes p.1) ∧ Plain (CStr.ofBytes p.2))
    (hfeed : feed setParsed fr raw = some fr') : AllPlain fr'.varHeaders := by
  induction raw generalizing fr with
  | nil =>
      simp only [feed, List.foldlM_nil, pure, Option.some.injEq] at hfeed
      exact hfeed ▸ h
  | cons p raw ih =>
      simp only [feed, List.foldlM_cons, bind, Option.bind_eq_some_iff] at hfeed
      obtain ⟨fr₁, hset, hrest⟩ := hfeed
      obtain ⟨hk, hv⟩ := hraw p (by simp)
      exact ih (set_parsed_plain h hk hv hset) (fun q hq => hraw q (by simp [hq])) hrest

/-- Parsing encoded bytes yields plain strings only. -/
theorem parsed_plain {t : Table} (hfits : encSize t ≤ 65535) {s : Status} {fr : Frame}
    (hparse : new.parseVarHeader (encode t) = some (s, fr)) : AllPlain fr.varHeaders := by
  obtain ⟨hlen, hwrap⟩ := encode_no_wrap hfits
  rw [parse_var_header_spec new hlen hwrap, Option.map_eq_some_iff] at hparse
  obtain ⟨fr₁, hfeed, heq⟩ := hparse
  obtain ⟨-, rfl⟩ := Prod.mk.inj heq
  refine feed_plain (fun _ _ hmem => by simp [new] at hmem) ?_ hfeed
  cases t with
  | nil => simp [encode, scan]
  | cons e t =>
      have hnul : (0 : Byte) ∉ encode (e :: t) := by
        simp only [encode, List.mem_flatMap, not_exists, not_and]
        intro e' he'
        obtain ⟨hk, hv⟩ := length_of_mem hfits he'
        rw [headerBytes_eq hk hv]
        simp [quote, e'.1.nul_free, e'.2.nul_free]
      obtain ⟨hk, hv⟩ := length_of_mem hfits (e := e) (by simp)
      simp only [encode, List.flatMap_cons, headerBytes_eq hk hv, List.cons_append] at hnul ⊢
      exact @scanned_plain _ (.key []) quote (fun h0 => hnul (List.mem_cons_of_mem _ h0))
        PlainSoFar.nil

/-- The strings of the pairs that end up in a table are plain: the keys, and the last value of each
key. Pairs with an empty key are ignored. -/
def Clean : List (CStr × CStr) → Prop
  | [] => True
  | (k, v) :: ps =>
      (k.length ≠ 0 → Plain k ∧ ((∀ p ∈ ps, p.1 ≠ k) → Plain v)) ∧ Clean ps

theorem mem_put_iff {t : Table} (hnodup : t.keys.Nodup) {k v k' w : CStr} :
    (k', w) ∈ put t k v ↔ (k' = k ∧ w = v) ∨ (k' ≠ k ∧ (k', w) ∈ t) := by
  rw [← HashTable.find_eq_some_iff (nodup_put hnodup k v), find_put hnodup,
    ← HashTable.find_eq_some_iff hnodup]
  by_cases h : k = k'
  · simp [h, eq_comm]
  · have h' : k' ≠ k := fun heq => h heq.symm
    simp [h, h']

/-- What holds of a header and of all headers of a table still holds when it is set. -/
theorem forall_put {t : Table} (hnodup : t.keys.Nodup) {P : CStr × CStr → Prop} {k v : CStr}
    (hold : ∀ e ∈ t, P e) (hnew : P (k, v)) : ∀ e ∈ put t k v, P e := by
  intro e he
  rcases (mem_put_iff hnodup).mp he with ⟨hk, hv⟩ | ⟨-, hmem⟩
  · have heq : e = (k, v) := Prod.ext hk hv
    rw [heq]
    exact hnew
  · exact hold e hmem

/-- A filled table is plain when its pairs are clean. -/
theorem fill_plain_iff {t : Table} (hnodup : t.keys.Nodup)
    (hkeys : ∀ k ∈ t.keys, k.length ≠ 0) (ps : List (CStr × CStr)) :
    (∀ k v, (k, v) ∈ fill t ps → Plain k ∧ Plain v) ↔
      (∀ k v, (k, v) ∈ t → Plain k ∧ ((∀ p ∈ ps, p.1 ≠ k) → Plain v)) ∧ Clean ps := by
  induction ps generalizing t with
  | nil => simp [fill, Clean]
  | cons p ps ih =>
      obtain ⟨k₀, v₀⟩ := p
      by_cases hk : k₀.length = 0
      · have hfill : fill t ((k₀, v₀) :: ps) = fill t ps := by simp [fill, hk]
        rw [hfill, ih hnodup hkeys]
        simp only [Clean, hk, ne_eq, not_true_eq_false, false_imp_iff, true_and,
          List.forall_mem_cons]
        refine and_congr_left fun _ => forall_congr' fun k => forall_congr' fun v => ?_
        refine forall_congr' fun hmem => and_congr_right fun _ => ?_
        have hne : k₀ ≠ k := fun heq => hkeys k (HashTable.mem_keys_of_mem hmem) (heq ▸ hk)
        simp [hne]
      · have hfill : fill t ((k₀, v₀) :: ps) = fill (put t k₀ v₀) ps := by simp [fill, hk]
        rw [hfill, ih (nodup_put hnodup k₀ v₀) (fun k hmem => by
          rcases mem_keys_put.mp hmem with rfl | hmem
          · exact hk
          · exact hkeys k hmem)]
        simp only [Clean, mem_put_iff hnodup, List.forall_mem_cons]
        constructor
        · rintro ⟨hall, hclean⟩
          obtain ⟨hk₀, hv₀⟩ := hall k₀ v₀ (Or.inl ⟨rfl, rfl⟩)
          refine ⟨fun k v hmem => ?_, fun _ => ⟨hk₀, hv₀⟩, hclean⟩
          by_cases heq : k = k₀
          · exact ⟨heq ▸ hk₀, fun h => absurd heq.symm h.1⟩
          · obtain ⟨h1, h2⟩ := hall k v (Or.inr ⟨heq, hmem⟩)
            exact ⟨h1, fun h => h2 h.2⟩
        · rintro ⟨hall, hfirst, hclean⟩
          refine ⟨fun k v hmem => ?_, hclean⟩
          rcases hmem with ⟨rfl, rfl⟩ | ⟨hne, hmem⟩
          · exact hfirst hk
          · obtain ⟨h1, h2⟩ := hall k v hmem
            exact ⟨h1, fun h => h2 ⟨fun heq => hne heq.symm, h⟩⟩

/-- The headers of a block are re-read as they were from their encoding. -/
def RoundTrips (fr : Frame) : Prop :=
  ∃ bytes fr', toBytes fr.varHeaders = some bytes ∧ new.parseVarHeader bytes = some (.ok, fr') ∧
    fr'.varHeaders = fr.varHeaders

/-- The headers of a frame reach a copy of it and are re-read from there as they were: the way from
a publisher through the broker to a subscriber. -/
def Forwards (fr : Frame) : Prop :=
  ∃ dst, new.copyVarHeaders fr = some (.ok, dst) ∧ dst.varHeaders = fr.varHeaders ∧ RoundTrips dst

/-- Copying the headers of a correctly accounted frame is faithful. -/
theorem copy_var_headers_fits {fr : Frame} {t : Table} (h : Carries fr t) :
    new.copyVarHeaders fr = some (.ok, new.withHeaders t) := by
  rw [copyVarHeaders, h.headers]
  exact set_var_headers_fits carries_new (by simpa using h.wf) (by simpa using h.fits)

/-- Clean pairs can be recognised. -/
instance : ∀ ps, Decidable (Clean ps)
  | [] => isTrue trivial
  | (k, v) :: ps =>
      have := instDecidableClean ps
      inferInstanceAs (Decidable ((k.length ≠ 0 → Plain k ∧ ((∀ p ∈ ps, p.1 ≠ k) → Plain v)) ∧ _))

end Bpsp.Frame
