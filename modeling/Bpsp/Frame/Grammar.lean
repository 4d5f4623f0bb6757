import Bpsp.Frame.RoundTrip

/-!
# Blocks in the documented grammar

A block is a list of pairs `"key""value";`. Its keys may be repeated and its values may be empty.
The parser keeps the last value of each key, but a key that comes with an empty value first gets a
header without a value, and stays without one (`set_pairs_empty`). So the headers are those of the
list exactly when the first value of every key is not empty (`parses_block_iff`).
-/

namespace Bpsp.Frame

open CLib

/-- The pairs in the documented grammar. -/
def block (ps : List (CStr × CStr)) : List Byte :=
  ps.flatMap fun p => quote :: (p.1.bytes ++ quote :: quote :: (p.2.bytes ++ [quote, 59]))

/-- The block is accepted, each key has the last value listed for it, and the size is that of the
table of last values. -/
def ParsesBlock (fr : Frame) (ps : List (CStr × CStr)) : Prop :=
  ∃ fr', fr.parseVarHeader (block ps) = some (.ok, fr') ∧
    (∀ k, fr'.getVarHeader k = (HashTable.find ps k).map some) ∧
    fr'.varsSize = encSize (putAll [] ps)

theorem length_block (ps : List (CStr × CStr)) : (block ps).length = encSize ps := by
  induction ps with
  | nil => rfl
  | cons p ps ih =>
      have hcons : block (p :: ps) =
          quote :: (p.1.bytes ++ quote :: quote :: (p.2.bytes ++ [quote, 59])) ++ block ps := rfl
      rw [hcons, encSize_cons, List.length_append, ih]
      simp [CStr.length]
      omega

theorem block_eq_encode {ps : List (CStr × CStr)} (hlen : (block ps).length ≤ 65535) :
    block ps = encode ps := by
  rw [length_block] at hlen
  unfold block encode
  refine List.flatMap_congr fun p hp => ?_
  obtain ⟨hk, hv⟩ := length_of_mem hlen hp
  rw [headerBytes_eq hk hv]

/-- A block of plain strings is parsed by setting its pairs. -/
theorem parse_block {ps : List (CStr × CStr)} (hlen : (block ps).length ≤ 65535)
    (hplain : ∀ p ∈ ps, Plain p.1 ∧ Plain p.2) (fr : Frame) :
    fr.parseVarHeader (block ps) = (setPairs fr ps).map fun fr => (.ok, fr) := by
  have hfits : encSize ps ≤ 65535 := by rwa [← length_block]
  obtain ⟨hshort, hwrap⟩ := encode_no_wrap hfits
  have hfeed : feed setParsed fr (ps.map fun p => (p.1.bytes, p.2.bytes)) = setPairs fr ps := by
    unfold feed setPairs
    rw [List.foldlM_map]
    congr 1
    funext fr p
    rw [CStr.ext (CStr.bytes_ofBytes p.1.nul_free), CStr.ext (CStr.bytes_ofBytes p.2.nul_free)]
  rw [block_eq_encode hlen, parse_var_header_spec fr hshort hwrap, scan_encode hfits hplain, hfeed]
  rfl

section Pairs

variable {fr : Frame} {t : Table} {ps : List (CStr × CStr)}

theorem Accounts.put (h : Accounts fr t) {k v : CStr} (hfits : encSize (put t k v) ≤ 65535) :
    Accounts (fr.withHeaders (put t k v)) (put t k v) := ⟨rfl, rfl, hfits, nodup_put h.nodup k v⟩

/-- A pair for which there is room is set when its value is not empty or its key is there. -/
theorem set_parsed_fits (h : Accounts fr t) {k v : CStr} (hk : k.length ≠ 0)
    (hv : v.length ≠ 0 ∨ k ∈ t.keys) (hroom : encSize t + (k.length + v.length + 5) ≤ 65535) :
    setParsed fr k v = some (fr.withHeaders (put t k v)) ∧
      Accounts (fr.withHeaders (put t k v)) (put t k v) := by
  have hle := encSize_put_le h.nodup k v
  have hfits : encSize (Frame.put t k v) ≤ 65535 := by omega
  refine ⟨?_, h.put hfits⟩
  unfold setParsed
  rw [set_var_header_accounts h hk hv hfits]
  rfl

/-- A new key with an empty value gets a header without a value. -/
theorem set_parsed_empty (h : Accounts fr t) {k v : CStr} (hk : k.length ≠ 0)
    (hv : v.length = 0) (hnew : k ∉ t.keys)
    (hroom : encSize t + (k.length + v.length + 5) ≤ 65535) :
    ∃ fr', setParsed fr k v = some fr' ∧ Unset fr'.varHeaders := by
  have hnone : fr.varHeaders.find k = none := by
    rw [h.headers, find_stored, HashTable.find_eq_none_iff.mpr hnew]
    rfl
  have hsize : fr.varsSize + k.length % 65536 + 0 % 65536 + 5 < 65536 := by
    rw [h.size]
    omega
  have hnodup : fr.varHeaders.keys.Nodup := by
    rw [h.headers, keys_stored]
    exact h.nodup
  refine ⟨{ fr with
    varsSize := fr.varsSize + k.length % 65536 + 0 % 65536 + 5
    varHeaders := fr.varHeaders.add k none }, ?_, ?_⟩
  · unfold setParsed setVarHeader
    simp only [hk, if_false, bind, Option.bind_some, hnone, hv, if_true, hsize, Option.map_some]
  · exact ⟨HashTable.nodup_add hnodup hnone, k, List.mem_append_right _ (by simp)⟩

/-- A header without a value is still there when other pairs have been set. -/
theorem set_pairs_unset (ps : List (CStr × CStr)) : ∀ {fr fr' : Frame}, Unset fr.varHeaders →
    setPairs fr ps = some fr' → Unset fr'.varHeaders := by
  induction ps with
  | nil =>
      intro fr fr' h hrun
      rw [← Option.some.inj hrun]
      exact h
  | cons p ps ih =>
      intro fr fr' h hrun
      rw [setPairs_cons, Option.bind_eq_some_iff] at hrun
      obtain ⟨fr₁, hset, hrest⟩ := hrun
      obtain ⟨r, hr, rfl⟩ := Option.map_eq_some_iff.mp hset
      exact ih (h.set hr) hrest

/-- Pairs for which there is room are all set when no new key comes with an empty value. -/
theorem set_pairs_fits (h : Accounts fr t) (hkeys : ∀ p ∈ ps, p.1.length ≠ 0)
    (hroom : encSize t + encSize ps ≤ 65535)
    (hfirst : ∀ k v, k ∉ t.keys → ps.lookup k = some v → v.length ≠ 0) :
    setPairs fr ps = some (fr.withHeaders (putAll t ps)) := by
  induction ps generalizing fr t with
  | nil =>
      have heq : fr = fr.withHeaders t := by
        cases fr
        simp only [withHeaders]
        rw [← h.headers, ← h.size]
      rw [putAll_nil, ← heq]
      rfl
  | cons p ps ih =>
      obtain ⟨k₁, v₁⟩ := p
      rw [encSize_cons] at hroom
      dsimp only at hroom
      have hk : k₁.length ≠ 0 := hkeys (k₁, v₁) List.mem_cons_self
      have hv : v₁.length ≠ 0 ∨ k₁ ∈ t.keys := by
        by_cases hmem : k₁ ∈ t.keys
        · exact Or.inr hmem
        · exact Or.inl (hfirst k₁ v₁ hmem (by simp))
      obtain ⟨hset, hnext⟩ := set_parsed_fits h hk hv (by omega)
      have hle := encSize_put_le h.nodup k₁ v₁
      rw [setPairs_cons, hset, Option.bind_some, ih hnext
        (fun q hq => hkeys q (List.mem_cons_of_mem _ hq)) (by omega) fun k v hnew hlookup => ?_]
      · rfl
      · rw [mem_keys_put, not_or] at hnew
        refine hfirst k v hnew.2 ?_
        rw [List.lookup_cons, beq_false_of_ne hnew.1]
        exact hlookup

/-- A new key that comes with an empty value first ends up without a value. -/
theorem set_pairs_empty (h : Accounts fr t) (hkeys : ∀ p ∈ ps, p.1.length ≠ 0)
    (hroom : encSize t + encSize ps ≤ 65535) {k v : CStr} (hnew : k ∉ t.keys)
    (hlookup : ps.lookup k = some v) (hv : v.length = 0) {fr' : Frame}
    (hrun : setPairs fr ps = some fr') : Unset fr'.varHeaders := by
  induction ps generalizing fr t with
  | nil => simp at hlookup
  | cons p ps ih =>
      obtain ⟨k₁, v₁⟩ := p
      rw [encSize_cons] at hroom
      dsimp only at hroom
      have hk : k₁.length ≠ 0 := hkeys (k₁, v₁) List.mem_cons_self
      rw [setPairs_cons, Option.bind_eq_some_iff] at hrun
      obtain ⟨fr₁, hset, hrest⟩ := hrun
      by_cases hgood : v₁.length ≠ 0 ∨ k₁ ∈ t.keys
      · -- the pair is set, so it is not the one in question
        obtain ⟨hset', hnext⟩ := set_parsed_fits h hk hgood (by omega)
        obtain rfl := Option.some.inj (hset'.symm.trans hset)
        have hne : k ≠ k₁ := by
          rintro rfl
          simp only [List.lookup_cons, beq_self_eq_true, Option.some.injEq] at hlookup
          rw [hlookup] at hgood
          exact hgood.elim (fun h0 => h0 hv) hnew
        have hle := encSize_put_le h.nodup k₁ v₁
        refine ih hnext (fun q hq => hkeys q (List.mem_cons_of_mem _ hq)) (by omega) ?_ ?_ hrest
        · rw [mem_keys_put, not_or]
          exact ⟨hne, hnew⟩
        · rw [List.lookup_cons, beq_false_of_ne hne] at hlookup
          exact hlookup
      · rw [not_or, not_not] at hgood
        obtain ⟨fr₂, hset', hunset⟩ := set_parsed_empty h hk hgood.1 hgood.2 (by omega)
        obtain rfl := Option.some.inj (hset'.symm.trans hset)
        exact set_pairs_unset ps hunset hrest

end Pairs

/-- A block in the documented grammar is parsed as it is meant exactly when the first value listed
for each key is not empty. -/
theorem parses_block_iff {fr : Frame} (hfr : Accounts fr []) {ps : List (CStr × CStr)}
    (hkeys : ∀ p ∈ ps, p.1.length ≠ 0) (hplain : ∀ p ∈ ps, Plain p.1 ∧ Plain p.2)
    (hlen : (block ps).length ≤ 65535) :
    ParsesBlock fr ps ↔ ∀ k v, ps.lookup k = some v → v.length ≠ 0 := by
  have hroom : encSize [] + encSize ps ≤ 65535 := by
    rw [encSize_nil, Nat.zero_add, ← length_block]
    exact hlen
  unfold ParsesBlock
  rw [parse_block hlen hplain]
  constructor
  · rintro ⟨fr', hrun, hget, -⟩ k v hlookup hv
    obtain ⟨fr₁, hset, heq⟩ := Option.map_eq_some_iff.mp hrun
    obtain ⟨-, rfl⟩ := Prod.mk.inj heq
    have hunset := set_pairs_empty hfr hkeys hroom (by simp) hlookup hv hset
    obtain ⟨k₀, hmem⟩ := hunset.missing
    have hfind := hget k₀
    unfold getVarHeader at hfind
    rw [(HashTable.find_eq_some_iff hunset.nodup).mpr hmem] at hfind
    cases hps : HashTable.find ps k₀ with
    | none => simp [hps] at hfind
    | some w => simp [hps] at hfind
  · intro hfirst
    refine ⟨fr.withHeaders (putAll [] ps), ?_, fun k => ?_, rfl⟩
    · rw [set_pairs_fits hfr hkeys hroom fun k v _ => hfirst k v]
      rfl
    · unfold getVarHeader
      rw [withHeaders_varHeaders, find_stored, find_putAll (by simp)]
      simp

/-- The block `"k""v";"k""";` leaves the empty value. -/
theorem parses_emptied : ParsesBlock new
    [(.ofString "k", .ofString "v"), (.ofString "k", default)] := by
  refine (parses_block_iff ⟨rfl, rfl, by decide, by simp⟩ (by decide) (by decide)
    (by decide)).mpr fun k v hlookup => ?_
  rw [List.lookup_cons] at hlookup
  cases hk : k == CStr.ofString "k" with
  | true =>
      rw [hk] at hlookup
      rw [← Option.some.inj hlookup]
      decide
  | false =>
      rw [hk, List.lookup_cons, hk] at hlookup
      cases hlookup

/-- The block `"k""";` leaves a header without a value. -/
theorem parses_empty_fails : (block [(.ofString "k", default)]).length ≤ 65535 ∧
    Plain (.ofString "k") ∧ Plain default ∧ ¬ ParsesBlock new [(.ofString "k", default)] := by
  refine ⟨by decide, by decide, by decide, ?_⟩
  rintro ⟨fr, hparse, hget, -⟩
  have hheaders : (new.parseVarHeader (block [(.ofString "k", default)])).map
      (fun r => r.2.getVarHeader (.ofString "k")) = some (some none) := by decide
  rw [hparse, Option.map_some, hget] at hheaders
  exact absurd hheaders (by decide)

end Bpsp.Frame
