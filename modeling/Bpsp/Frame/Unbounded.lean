import Bpsp.Frame.Malformed

/-!
# The parser's index

`frame__parse_var_header` with its 16-bit index against the same scan with a natural number
(`turn id`). The two go in step until the index has to hold 65536, which it does behind a pair that
is closed by the last byte of a block of 65535 bytes. Then the 16-bit scan starts again at 0, looks at
every byte a second time, and either reads further pairs or reports an error (`same_scan_iff`).
-/

namespace Bpsp.Frame

open CLib

/-- The scan ends with the status and the calls of the unbounded scan, and looks at no position
twice. -/
def SameScan (block : List Byte) : Prop :=
  ∃ es t es' t', (turn wrap16 block.length).Exits (.start block) es t ∧
    (turn id block.length).Exits (.start block) es' t' ∧ t.c.status = t'.c.status ∧
    calls es = calls es' ∧ (es.map Prod.fst).Nodup

/-- The block has 65535 bytes, and the last of them closes a pair. -/
def ClosesAtTop (block : List Byte) : Prop :=
  block.length = 65535 ∧ ∃ (b : Byte) (r : Reading), block = b :: r.bytes quote ∧ r.Reads b ∧
    r.closes = true

/-- The turns of the 16-bit loop are those of the parser. -/
theorem parse_var_header_exits (fr : Frame) {block : List Byte} (hlen : block.length < 65536)
    {es : List (Nat × Option (CStr × CStr))} {t : Walk}
    (h : (turn wrap16 block.length).Exits (.start block) es t) :
    fr.parseVarHeader block = (setPairs fr (calls es)).map fun fr => (t.c.status, fr) := by
  obtain ⟨c, hrec, hparse⟩ := parse_hands fr hlen
  obtain ⟨es', t', hexits, hturns⟩ := turn_exits hlen (.start block)
  obtain ⟨rfl, rfl⟩ := h.unique hexits
  have hrun := @parse_loop_exits _ record _ _ _ _ h _
    (Nat.lt_of_le_of_lt hturns (turns_left_start block.length block)) []
  rw [hand_to_record, List.nil_append] at hrun
  obtain ⟨rfl, hcalls⟩ := Prod.mk.inj (Option.some.inj (hrec.symm.trans hrun))
  rw [hparse, hcalls]
  rfl

section Lockstep

variable {size : Nat} {w w' : Walk} {e : Nat × Option (CStr × CStr)}
  {es : List (Nat × Option (CStr × CStr))}

/-- A turn is the same where the variables hold the numbers of both. -/
theorem turn_wrap (wrap : Nat → Nat) (h : turn id size w = some (w', e))
    (hnext : wrap (w.c.n + 1) = w.c.n + 1) (hn : wrap w'.c.n = w'.c.n) :
    turn wrap size w = some (w', e) := by
  unfold turn atQuote at h ⊢
  split_ifs at h ⊢
  all_goals
    obtain ⟨rfl, rfl⟩ := Prod.mk.inj (Option.some.inj h)
    simp only [id_eq] at hn ⊢
  · rw [hnext]
  · rw [hnext]
  · rw [hnext]
  · rw [hnext]
  · rw [hn]

/-- The unbounded index only goes up. -/
theorem indices_increase (h : (turn id size).Turns w es w') :
    (es.map Prod.fst).Pairwise (· < ·) ∧ ∀ i ∈ es.map Prod.fst, w.c.n ≤ i := by
  induction h with
  | refl w => exact ⟨.nil, fun i h => by cases h⟩
  | @cons w w₁ w' e es hturn hrest ih =>
      obtain ⟨-, hfst, hmove⟩ := turn_cases hturn
      have hlt : w.c.n < w₁.c.n := by
        rcases hmove with ⟨-, hn⟩ | ⟨-, rfl⟩
        · rw [hn]
          exact Nat.lt_succ_self _
        · exact Nat.lt_add_of_pos_right (by decide)
      rw [List.map_cons, hfst]
      refine ⟨List.pairwise_cons.mpr ⟨fun i hi => ?_, ih.1⟩, fun i hi => ?_⟩
      · exact Nat.lt_of_lt_of_le hlt (ih.2 i hi)
      · rcases List.mem_cons.mp hi with rfl | hi
        · exact Nat.le_refl _
        · exact Nat.le_of_lt (Nat.lt_of_lt_of_le hlt (ih.2 i hi))

/-- As long as the unbounded index does not come to 65536, the 16-bit loop goes the same way. -/
theorem exits_wrap16 (hsize : size ≤ 65535) (h : (turn id size).Exits w es w')
    (htop : w'.c.n ≠ 65536) : (turn wrap16 size).Exits w es w' := by
  refine h.lockstep (fun w => w.c.n = 65536) (fun w hw => ?_) (fun w w' e hturn hw' => ?_)
    (fun w hw => ?_) htop
  · exact turn_none_iff.mpr (by omega)
  · obtain ⟨hmore, -, hmove⟩ := turn_cases hturn
    have hle : w'.c.n ≤ w.c.n + 2 := by
      rcases hmove with ⟨-, hn⟩ | ⟨-, rfl⟩
      · rw [hn]
        exact Nat.le_succ _
      · exact Nat.le_refl _
    exact turn_wrap wrap16 hturn (Nat.mod_eq_of_lt (by omega)) (Nat.mod_eq_of_lt (by omega))
  · exact turn_none_iff.mpr (turn_none_iff.mp hw)

end Lockstep

section Block

variable {wrap : Nat → Nat} {b : Byte} {r : Reading} {size : Nat}

/-- A loop that is left behind the last byte has read the block once. -/
theorem exits_block (hwrap : ∀ n ≤ size, wrap n = n) (hlen : (b :: r.bytes quote).length = size)
    (hreads : r.Reads b) (hout : r.closes = true → wrap (size + 1) = size + 1) :
    ∃ es t, (turn wrap size).Exits (.start (b :: r.bytes quote)) es t ∧ calls es = r.pairs ∧
      t.c.status = (if r.complete then .ok else .invalidVarHeaders) ∧
      t.c.n = size + if r.closes then 1 else 0 := by
  obtain ⟨count, c, -, hends, es, hturns, hcalls, -⟩ := passes_block hwrap hlen hreads
  cases hcomplete : r.complete with
  | false =>
      obtain ⟨hn, hkey⟩ := hends.inside hcomplete
      have hcloses : r.closes = false := by
        by_contra h
        rw [r.complete_of_closes (Bool.eq_true_of_not_eq_false h)] at hcomplete
        cases hcomplete
      refine ⟨es, _, ⟨hturns, turn_none_iff.mpr (Nat.le_of_eq hn.symm)⟩, hcalls, ?_, ?_⟩
      · simp [Cursor.status, hkey]
      · simp [hn, hcloses]
  | true =>
      have hn : c = ⟨size + if r.closes then 1 else 0, 0, 0, 0⟩ := by
        rw [hends.outside hcomplete]
        cases hcloses : r.closes with
        | true => simp [hout hcloses]
        | false => simp [hwrap size (Nat.le_refl _)]
      refine ⟨es, _, ⟨hturns, turn_none_iff.mpr ?_⟩, hcalls, ?_, ?_⟩
      · rw [hn]
        exact Nat.le_add_right _ _
      · simp [Cursor.status, hn]
      · rw [hn]

/-- Where the last byte does not close a pair or there is room for the index behind it, the two scans
are the same. -/
theorem same_scan_of_room {block : List Byte} (hlen : block.length ≤ 65535)
    (hroom : ¬ ClosesAtTop block) : SameScan block := by
  suffices h : ∃ es t, (turn id block.length).Exits (.start block) es t ∧ t.c.n ≠ 65536 by
    obtain ⟨es, t, hexits, htop⟩ := h
    exact ⟨es, t, es, t, exits_wrap16 hlen hexits htop, hexits, rfl, rfl,
      (indices_increase hexits.1).1.imp Nat.ne_of_lt⟩
  cases block with
  | nil => exact ⟨[], _, ⟨.refl _, rfl⟩, by decide⟩
  | cons b rest =>
      obtain ⟨r, hreads, rfl⟩ := exists_reading b rest
      have hid : ∀ n ≤ (b :: r.bytes quote).length, id n = n := fun _ _ => rfl
      obtain ⟨es, t, hexits, -, -, hn⟩ := exits_block hid rfl hreads
        (fun _ => rfl)
      refine ⟨es, t, hexits, ?_⟩
      rw [hn]
      split_ifs with hcloses
      · intro htop
        exact hroom ⟨by omega, b, r, rfl, hreads, hcloses⟩
      · omega

/-- A block that is read to the end of a pair has a pair. -/
theorem pairs_ne_nil (h : r.complete = true) : r.pairs ≠ [] := by
  cases r with
  | inKey text => cases h
  | inGap key text => cases h
  | inValue key gap text => cases h
  | closed key gap value => exact List.cons_ne_nil _ _
  | ended key gap value skipped text => exact List.cons_ne_nil _ _
  | next key gap value skipped text rest => exact List.cons_ne_nil _ _

/-- Otherwise the 16-bit scan reads the block again, with the closing quotes overwritten, and does not
end as the unbounded one does. -/
theorem not_same_scan (hlen : (b :: r.bytes quote).length = 65535) (hreads : r.Reads b)
    (hcloses : r.closes = true) : ¬ SameScan (b :: r.bytes quote) := by
  rintro ⟨es, t, es', t', hexits, hexits', hstatus, hcalls, -⟩
  rw [hlen] at hexits hexits'
  have hid : ∀ n ≤ 65535, id n = n := fun _ _ => rfl
  obtain ⟨fs', u', hunbounded, hpairs', hok, -⟩ := exits_block hid hlen hreads (fun _ => rfl)
  obtain ⟨rfl, rfl⟩ := hexits'.unique hunbounded
  rw [r.complete_of_closes hcloses, if_pos rfl] at hok
  have hwrap : ∀ n ≤ 65535, wrap16 n = n := fun n hn => Nat.mod_eq_of_lt (by omega)
  obtain ⟨count, c, -, hends, first, hturns, hpairs, -⟩ := passes_block hwrap hlen hreads
  obtain rfl : c = ⟨0, 0, 0, 0⟩ := by
    rw [hends.outside (r.complete_of_closes hcloses), if_pos hcloses]
    rfl
  -- the second pass does not wrap, as the last byte is a NUL now
  obtain ⟨r', hreads', hbytes⟩ := exists_reading b (r.bytes 0)
  have hlen' : (b :: r'.bytes quote).length = 65535 := by
    rw [hbytes, List.length_cons, length_bytes, ← List.length_cons, hlen]
  have hnot := closes_overwritten hcloses hbytes.symm
  obtain ⟨second, u, hagain, hpairs₂, hstatus₂, -⟩ := exits_block hwrap hlen' hreads'
    (fun h => absurd (hnot.symm.trans h) Bool.false_ne_true)
  rw [hbytes] at hagain
  obtain ⟨rfl, rfl⟩ := hexits.unique (hturns.exits hagain)
  rw [calls_append, hpairs, hpairs₂, hpairs'] at hcalls
  rw [hstatus₂, hok] at hstatus
  cases hcomplete : r'.complete with
  | false =>
      rw [hcomplete] at hstatus
      cases hstatus
  | true => exact pairs_ne_nil hcomplete (List.append_right_eq_self.mp hcalls)

end Block

/-- Every block of up to 65535 bytes: the 16-bit scan is the unbounded one unless the last of 65535
bytes closes a pair. -/
theorem same_scan_iff {block : List Byte} (hlen : block.length ≤ 65535) :
    SameScan block ↔ ¬ ClosesAtTop block := by
  refine ⟨fun h hclose => ?_, same_scan_of_room hlen⟩
  obtain ⟨htop, b, r, rfl, hreads, hcloses⟩ := hclose
  exact not_same_scan htop hreads hcloses h

/-- A short block that ends with a closing quote. -/
theorem same_scan_short : SameScan [34, 107, 34, 34, 118, 34] :=
  (same_scan_iff (by decide)).mpr fun h => absurd h.1 (by decide)

theorem plainFrom_replicate {prev : Byte} (hprev : prev ≠ backslash) (n : Nat) :
    plainFrom prev (List.replicate n 118) = true := by
  induction n generalizing prev with
  | zero => simpa [plainFrom] using hprev
  | succ n ih =>
      rw [List.replicate_succ, plainFrom, ih (by decide)]
      rfl

/-- The pair of the key `k` and a value of 65530 letters `v`, with nothing behind its last quote. -/
theorem same_scan_fails : ¬ SameScan ([34, 107, 34, 34] ++ (List.replicate 65530 118 ++ [34])) := by
  refine not_same_scan (b := 34) (r := .closed [107] [] (List.replicate 65530 118)) ?_ ?_ rfl
  · show (List.replicate 65530 118 ++ [quote]).length + 4 = 65535
    rw [List.length_append, List.length_replicate]
    rfl
  · exact ⟨by decide, by decide, plainFrom_replicate (by decide) _⟩

end Bpsp.Frame
