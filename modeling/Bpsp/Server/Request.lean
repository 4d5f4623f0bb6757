import Bpsp.Frame.Wire
import Bpsp.Server.Objects

/-!
# Requests and replies

`Received` is what holds of every frame that `frame__recv` delivers (`recv_received`). A header that
came with an empty value has no value (`none`) or an empty one; `Filled` says that there is none of
those. A reply copies all headers of its request, so it exists for filled requests only, and only
when the copy and the status header fit (`reply_sent`, `reply_full`, `reply_unfilled`).
-/

namespace Bpsp.Frame

open CLib Net Datatype

/-- Distinct non-empty keys, and strings whose lengths have 16 bits. -/
structure Keyed (h : Headers) : Prop where
  nodup : h.keys.Nodup
  keys_ne : ∀ {k}, k ∈ h.keys → k.length ≠ 0
  keys_short : ∀ {k}, k ∈ h.keys → k.length < 65536
  values_short : ∀ {k v}, (k, some v) ∈ h → v.length < 65536

/-- What `frame__recv` delivers. -/
structure Received (fr : Frame) : Prop where
  done : fr.isCompleted = true
  opcode_ne : fr.opcode ≠ 0
  keyed : Keyed fr.varHeaders
  time : ∃ now : Timestamp, fr.varHeaders.find xTime = some (some now.text)

/-- A complete frame with these headers and no payload. -/
def request (opcode flag : Byte) (t : Table) : Frame :=
  ⟨encSize t, opcode, flag, 0, stored t, [], 0, 0, true⟩

/-- Every header has a value that is not empty. -/
def Filled (h : Headers) : Prop := ∀ e ∈ h, ∃ v, e.2 = some v ∧ v.length ≠ 0

/-- Setting a short header keeps the headers keyed. -/
theorem Keyed.set {fr : Frame} (h : Keyed fr.varHeaders) {k v : CStr} (hk : k.length < 65536)
    (hv : v.length < 65536) {r : Status × Frame} (hrun : fr.setVarHeader k (some v) = some r) :
    Keyed r.2.varHeaders := by
  rcases set_var_header_cases hrun with ⟨-, hr⟩ | ⟨hne, hfind, hr⟩ | ⟨old, size, hne, hfind, -, hr⟩
  · rw [hr]
    exact h
  · rw [hr]
    refine ⟨HashTable.nodup_add h.nodup hfind, fun {k'} hk' => ?_, fun {k'} hk' => ?_,
      fun {k' v'} hmem => ?_⟩
    · rw [HashTable.keys_add, List.mem_append, List.mem_singleton] at hk'
      rcases hk' with hk' | rfl
      · exact h.keys_ne hk'
      · exact hne
    · rw [HashTable.keys_add, List.mem_append, List.mem_singleton] at hk'
      rcases hk' with hk' | rfl
      · exact h.keys_short hk'
      · exact hk
    · rcases List.mem_append.mp hmem with hmem | hmem
      · exact h.values_short hmem
      · have hval := (Prod.mk.inj (List.mem_singleton.mp hmem)).2
        split_ifs at hval
        rw [Option.some.inj hval]
        exact hv
  · rw [hr]
    refine ⟨by simpa using h.nodup, fun {k'} hk' => h.keys_ne (by simpa using hk'),
      fun {k'} hk' => h.keys_short (by simpa using hk'), fun {k' v'} hmem => ?_⟩
    rw [HashTable.mem_update_iff] at hmem
    split_ifs at hmem
    · rw [Option.some.inj hmem.2]
      exact hv
    · exact h.values_short hmem

/-- Parsing any block leaves keyed headers. -/
theorem parse_keyed {fr : Frame} (h : Keyed fr.varHeaders) {block : List Byte}
    (hlen : block.length < 65536) {r : Status × Frame}
    (hrun : fr.parseVarHeader block = some r) :
    Keyed r.2.varHeaders ∧ r.2.opcode = fr.opcode := by
  unfold parseVarHeader at hrun
  split_ifs at hrun
  · rw [← Option.some.inj hrun]
    exact ⟨h, rfl⟩
  · simp only [bind, Option.bind_eq_some_iff] at hrun
    obtain ⟨⟨c, fr'⟩, hloop, hrun⟩ := hrun
    have hcall : ∀ {st st' : Frame} {k v : CStr},
        Keyed st.varHeaders ∧ st.opcode = fr.opcode → k.length ≤ block.length →
        v.length ≤ block.length → (st.setVarHeader k (some v)).map Prod.snd = some st' →
        Keyed st'.varHeaders ∧ st'.opcode = fr.opcode := by
      intro st st' k v hst hk hv hset
      obtain ⟨r', hr', rfl⟩ := Option.map_eq_some_iff.mp hset
      refine ⟨hst.1.set (by omega) (by omega) hr', ?_⟩
      rw [set_var_header_frame hr']
      exact hst.2
    have hkeep := parse_loop_keeps hcall _ rfl ⟨h, rfl⟩ hloop
    split_ifs at hrun <;> rw [← Option.some.inj hrun] <;> exact hkeep

/-- A frame that was built has its time and an opcode. -/
theorem build_received {fr fr' : Frame} (h : Keyed fr.varHeaders) {now : Timestamp}
    (hrun : fr.build now = some (.ok, fr')) : Received fr' := by
  unfold build assertOk at hrun
  simp only [bind, Option.bind_eq_some_iff] at hrun
  obtain ⟨⟨s, fr₁⟩, hset, hrun⟩ := hrun
  have hshort : now.text.length < 65536 := by
    rw [now.length_eq]
    decide
  have hkeyed : Keyed fr₁.varHeaders := h.set (by decide) hshort hset
  split_ifs at hrun with hs
  · have hop : fr₁.opcode ≠ 0 := by
      intro h0
      simp [validateOpcode, h0] at hrun
    simp only [validateOpcode, hop, if_false] at hrun
    obtain rfl := (Prod.mk.inj (Option.some.inj hrun)).2
    refine ⟨rfl, hop, hkeyed, now, ?_⟩
    rcases set_var_header_cases hset with ⟨hne, -⟩ | ⟨-, -, hr⟩ | ⟨old, size, -, hfind, -, hr⟩
    · exact absurd hs hne
    · obtain rfl := (Prod.mk.inj hr).2
      show (fr.varHeaders.add xTime _).find xTime = _
      rw [HashTable.find_add_self, if_neg (Timestamp.length_ne now)]
    · obtain rfl : fr₁ = _ := hr
      show (fr.varHeaders.update xTime (some now.text)).find xTime = _
      rw [HashTable.find_update h.nodup (HashTable.find_isSome_iff.mp (by rw [hfind]; rfl)),
        if_pos rfl]
  · exact absurd (Prod.mk.inj (Option.some.inj hrun)).1 hs

theorem set_frame_control_headers {fr : Frame} {opcode flag : Byte} {r : Status × Frame}
    (hrun : fr.setFrameControl opcode flag = some r) : r.2.varHeaders = fr.varHeaders := by
  by_cases hop : opcode = 0
  · have hfail : fr.setFrameControl opcode flag = some (.invalidOpcode, fr) := by
      rw [hop]
      rfl
    rw [← Option.some.inj (hfail.symm.trans hrun)]
  · rw [set_frame_control_eq _ _ hop] at hrun
    rw [← Option.some.inj hrun]

theorem malloc_payload_headers (fr : Frame) (dataSize : Nat) :
    (fr.mallocPayload dataSize).2.varHeaders = fr.varHeaders := by
  unfold mallocPayload
  split_ifs <;> rfl

/-- Everything that `frame__recv` delivers is `Received`. -/
theorem recv_received {kernel : Kernel} {big : Bool} {now : Timestamp} {conn conn' : Conn}
    {fr : Frame} (hrun : recv big kernel now conn = some (.ok, fr, conn')) : Received fr := by
  unfold recv at hrun
  generalize read kernel conn 8 true = r₁ at hrun
  obtain ⟨s₁, header, conn₁⟩ := r₁
  have hrun₁ := ok_of_guard hrun
  simp only [bind, Option.bind_eq_some_iff] at hrun₁
  obtain ⟨⟨s₂, fr₂⟩, hcontrol, hrun₂⟩ := hrun₁
  have hkeyed₂ : Keyed fr₂.varHeaders := by
    rw [show fr₂.varHeaders = new.varHeaders from set_frame_control_headers hcontrol]
    exact ⟨by simp [new], by simp [new], by simp [new], by simp [new]⟩
  have hrun₃ := ok_of_guard hrun₂
  have hlen := read_length kernel conn₁ (d16 big header).toNat true
  generalize read kernel conn₁ (d16 big header).toNat true = r₃ at hrun₃ hlen
  obtain ⟨s₃, block, conn₃⟩ := r₃
  have hrun₄ := ok_of_guard hrun₃
  simp only [Option.bind_eq_some_iff] at hrun₄
  obtain ⟨⟨s₄, fr₄⟩, hparse, hrun₅⟩ := hrun₄
  have hkeyed₄ : Keyed fr₄.varHeaders := by
    refine (parse_keyed hkeyed₂ ?_ hparse).1
    have := (d16 big header).isLt
    dsimp only at hlen
    omega
  have hrun₆ := ok_of_guard hrun₅
  rw [← malloc_payload_headers fr₄ (d32 big (header.drop 4)).toNat] at hkeyed₄
  generalize fr₄.mallocPayload (d32 big (header.drop 4)).toNat = r₅ at hrun₆ hkeyed₄
  obtain ⟨s₅, fr₅⟩ := r₅
  have hrun₇ := ok_of_guard hrun₆
  generalize (if 0 < (d32 big (header.drop 4)).toNat then
    read kernel conn₃ (d32 big (header.drop 4)).toNat true else (.ok, [], conn₃)) = r₆ at hrun₇
  obtain ⟨s₆, data, conn₆⟩ := r₆
  have hrun₈ := ok_of_guard hrun₇
  simp only [Option.bind_eq_some_iff] at hrun₈
  obtain ⟨⟨s, fr'⟩, hbuild, heq⟩ := hrun₈
  obtain ⟨rfl, hrest⟩ := Prod.mk.inj (Option.some.inj heq)
  obtain ⟨rfl, -⟩ := Prod.mk.inj hrest
  refine build_received ?_ hbuild
  split_ifs <;> exact hkeyed₄

section Reply

/-- Filled headers are a well-formed table. -/
theorem filled_table {h : Headers} (hk : Keyed h) (hf : Filled h) :
    ∃ t, h = stored t ∧ WellFormed t ∧ ∀ e ∈ t, e.1.length < 65536 ∧ e.2.length < 65536 := by
  have hstored : h = stored (h.map fun e => (e.1, e.2.getD default)) := by
    refine eq_stored fun e he => ?_
    obtain ⟨v, hv, -⟩ := hf e he
    rw [hv]
    rfl
  have hmem : ∀ {k v}, (k, v) ∈ (h.map fun e => (e.1, e.2.getD default)) → (k, some v) ∈ h := by
    intro k v hkv
    rw [hstored]
    exact List.mem_map_of_mem hkv
  refine ⟨_, hstored, ⟨?_, fun {k} hkey => ?_, fun {k v} hkv => ?_⟩, fun e he => ?_⟩
  · rw [← keys_stored, ← hstored]
    exact hk.nodup
  · rw [← keys_stored, ← hstored] at hkey
    exact hk.keys_ne hkey
  · obtain ⟨v', hv', hne⟩ := hf _ (hmem hkv)
    rw [Option.some.inj hv']
    exact hne
  · exact ⟨hk.keys_short (HashTable.mem_keys_of_mem (hmem he)), hk.values_short (hmem he)⟩

theorem Filled.stored {t : Table} (h : WellFormed t) : Filled (stored t) := by
  intro e he
  obtain ⟨e', he', rfl⟩ := List.mem_map.mp he
  exact ⟨e'.2, rfl, h.values_ne (k := e'.1) he'⟩

/-- A request whose headers fit can be received. -/
theorem received_request {opcode flag : Byte} {t : Table} {now : Timestamp} (hop : opcode ≠ 0)
    (hwf : WellFormed t) (hfits : encSize t ≤ 65535) (htime : t.find xTime = some now.text) :
    Received (request opcode flag t) := by
  have hmem : ∀ {k}, k ∈ (stored t).keys → ∃ v, (k, v) ∈ t := by
    intro k hk
    rw [keys_stored] at hk
    obtain ⟨v, hv⟩ := Option.isSome_iff_exists.mp (HashTable.find_isSome_iff.mpr hk)
    exact ⟨v, HashTable.mem_of_find hv⟩
  refine ⟨rfl, hop, ⟨?_, fun {k} hk => ?_, fun {k} hk => ?_, fun {k v} hkv => ?_⟩, now, ?_⟩
  · show (stored t).keys.Nodup
    rw [keys_stored]
    exact hwf.nodup
  · obtain ⟨v, hv⟩ := hmem hk
    exact hwf.keys_ne (HashTable.mem_keys_of_mem hv)
  · obtain ⟨v, hv⟩ := hmem hk
    have := le_encSize hv
    omega
  · obtain ⟨e, he, heq⟩ := List.mem_map.mp hkv
    obtain ⟨rfl, hval⟩ := Prod.mk.inj heq
    obtain rfl := Option.some.inj hval
    have := le_encSize (k := e.1) he
    omega
  · show (stored t).find xTime = _
    rw [find_stored, htime]
    rfl

/-- A header that is replaced by one of the same length leaves the size as it is. -/
theorem encSize_put_same {t : Table} (hnodup : t.keys.Nodup) {k v old : CStr}
    (hold : t.find k = some old) (hlen : v.length = old.length) :
    encSize (put t k v) = encSize t := by
  have hmem := HashTable.mem_keys_of_mem (HashTable.mem_of_find hold)
  have := encSize_update (v := v) hnodup hold
  rw [put_of_mem v hmem]
  omega

/-- Copying the header part of a request that fits. -/
theorem copy_header_fits {src : Frame} {t : Table} (hop : src.opcode ≠ 0)
    (hheaders : src.varHeaders = stored t) (hwf : WellFormed t) (hfits : encSize t ≤ 65535) :
    new.copyHeader src =
      some (.ok, ({ new with opcode := src.opcode, flag := src.flag } : Frame).withHeaders t) := by
  have hnew : Carries { new with opcode := src.opcode, flag := src.flag } [] :=
    ⟨rfl, rfl, by simp, WellFormed.nil⟩
  rw [copyHeader, set_frame_control_eq new src.flag hop, assert_ok, copyVarHeaders, hheaders]
  exact set_var_headers_fits hnew (by simpa using hwf) (by simpa using hfits)

/-- Setting a status code and the time, as the last steps of a reply. -/
theorem status_fits {fr : Frame} {t : Table} (h : Carries fr t) (hop : fr.opcode ≠ 0)
    {code old : CStr} (hcode : code.length ≠ 0) (hold : t.find xTime = some old)
    (hlen : old.length = 27) (hroom : encSize (put t xStatusCode code) ≤ 65535) (now : Timestamp) :
    (assertOk (fr.setVarHeader xStatusCode (some code)) fun frame => frame.build now) =
      some (.ok, { fr.withHeaders (put (put t xStatusCode code) xTime now.text) with
        isCompleted := true }) := by
  have hwf : WellFormed (put t xStatusCode code) := h.wf.put (by decide) hcode
  have hold' : (put t xStatusCode code).find xTime = some old := by
    rw [find_put h.wf.nodup, if_neg (by decide), hold]
  rw [set_var_header_fits h (by decide) hcode hroom, assert_ok]
  refine build_fits (carries_withHeaders fr hroom hwf) now hop ?_
  rw [encSize_put_same hwf.nodup hold' (now.length_eq.trans hlen.symm)]
  exact hroom

/-- A status code that does not fit. -/
theorem status_full {fr : Frame} {t : Table} (h : Carries fr t) {code : CStr}
    (hcode : code.length < 65536) (hfull : 65535 < encSize (put t xStatusCode code))
    (next : Frame → Exec (Status × Frame)) :
    ∃ fr', assertOk (fr.setVarHeader xStatusCode (some code)) next =
      some (.maxVarHeaders, fr') := by
  cases hfind : t.find xStatusCode with
  | none =>
      rw [set_var_header_full_new h.accounts (by decide) (by decide) hcode
        (HashTable.find_eq_none_iff.mp hfind) hfull]
      exact ⟨fr, assert_fail _ _ (by decide)⟩
  | some old =>
      rw [set_var_header_full_update h.accounts (by decide) hcode hfind hfull]
      exact ⟨_, assert_fail _ _ (by decide)⟩

variable {src : Frame} {t : Table} (now : Timestamp)

/-- The calls that `frame__OK` and `frame__ERR` have in common. -/
def replyCalls (src : Frame) (opcode : Byte) (setPayload : Frame → Status × Frame) (code : CStr) :
    Exec (Status × Frame) :=
  assertOk (new.copyHeader src) fun frame =>
    assertOk (some (frame.setOpcode opcode)) fun frame =>
      assertOk (some (setPayload frame)) fun frame =>
        assertOk (frame.setVarHeader xStatusCode (some code)) fun frame => frame.build now

/-- A call that sets the payload of a frame and leaves its headers and its opcode alone. -/
structure SetsPayload (setPayload : Frame → Status × Frame) : Prop where
  status : ∀ fr, (setPayload fr).1 = .ok
  headers : ∀ fr, (setPayload fr).2.varHeaders = fr.varHeaders
  size : ∀ fr, (setPayload fr).2.varsSize = fr.varsSize
  opcode : ∀ fr, (setPayload fr).2.opcode = fr.opcode

theorem ok_eq_calls (src : Frame) (msg : CStr) : Frame.ok now src msg =
    replyCalls now src opOk (fun fr => fr.putPayload (replyText msg).bytes) (.ofString "200") := rfl

theorem err_eq_calls (src : Frame) (s : Status) (msg : CStr) : Frame.err now src s msg =
    replyCalls now src opErr (fun fr => fr.replacePayload
      (CStr.ofString "(" ++ s.getText ++ .ofString ") " ++ replyText msg).bytes)
      (.ofString "500") := rfl

/-- The headers leave room for a reply: they have values, and both their copy and the status code
fit. -/
def ReplyRoom (h : Headers) : Prop :=
  ∃ t, h = Frame.stored t ∧ WellFormed t ∧ encSize t ≤ 65535 ∧
    encSize (put t xStatusCode (.ofString "200")) ≤ 65535

/-- The OK reply to a request with plain headers that leave room for it. -/
theorem ok_completed (hreq : Received src) (hheaders : src.varHeaders = Frame.stored t)
    (hwf : WellFormed t) (hplain : ∀ e ∈ t, Plain e.1 ∧ Plain e.2) (hfits : encSize t ≤ 65535)
    (hroom : encSize (put t xStatusCode (.ofString "200")) ≤ 65535) {msg : CStr}
    (hmsg : (replyText msg).length < 2 ^ 32) :
    ∃ m : Message, Frame.ok now src msg = some (.ok, completed now m) ∧ m.opcode = opOk ∧
      m.payload = (replyText msg).bytes ∧ m.headers = put t xStatusCode (.ofString "200") := by
  obtain ⟨old, hold⟩ := hreq.time
  have hfind : t.find xTime = some old.text := by
    rw [hheaders, find_stored] at hold
    simpa using hold
  have hplain' : ∀ e ∈ put t xStatusCode (.ofString "200"), Plain e.1 ∧ Plain e.2 :=
    forall_put hwf.nodup hplain ⟨by decide, by decide⟩
  refine ⟨⟨opOk, src.flag, (replyText msg).bytes, put t xStatusCode (.ofString "200"), by decide, hmsg,
    hwf.put (by decide) (by decide), hplain', hroom⟩, ?_, rfl, rfl, rfl⟩
  have hset : ∀ fr : Frame, fr.setOpcode opOk = (.ok, { fr with opcode := opOk }) := by
    intro fr
    simp [setOpcode, validateOpcode, show opOk ≠ 0 by decide]
  rw [ok_eq_calls, replyCalls, copy_header_fits hreq.opcode_ne hheaders hwf hfits, assert_ok, hset,
    assert_ok, put_payload_eq, assert_ok]
  exact status_fits ⟨rfl, rfl, hfits, hwf⟩ (show opOk ≠ 0 by decide) (by decide) hfind old.length_eq
    hroom now

theorem set_var_header_none {fr : Frame} {k : CStr} {r : Status × Frame}
    (hrun : fr.setVarHeader k none = some r) : r.1 ≠ .ok := by
  unfold setVarHeader at hrun
  split_ifs at hrun
  · rw [← Option.some.inj hrun]
    simp
  · cases hrun

theorem Unset.set_all {h : Headers} : ∀ {fr : Frame}, Unset fr.varHeaders → ∀ {fr'},
    fr.setVarHeaders h = some (.ok, fr') → Unset fr'.varHeaders := by
  induction h with
  | nil =>
      intro fr hu fr' hrun
      rw [← (Prod.mk.inj (Option.some.inj hrun)).2]
      exact hu
  | cons e h ih =>
      intro fr hu fr' hrun
      obtain ⟨fr₁, hset, hrest⟩ := assert_ok_some hrun
      cases hv : e.2 with
      | none => exact absurd rfl (set_var_header_none (hv ▸ hset))
      | some v => exact ih (Unset.set hu (hv ▸ hset)) hrest

/-- Copying headers of which one is empty leaves one without a value. -/
theorem set_var_headers_unfilled {h : Headers} : ∀ {fr : Frame},
    (fr.varHeaders.keys ++ h.keys).Nodup → ¬ Filled h → ∀ {fr'},
    fr.setVarHeaders h = some (.ok, fr') → Unset fr'.varHeaders := by
  induction h with
  | nil => exact fun _ hnot => absurd (fun e he => absurd he List.not_mem_nil) hnot
  | cons e h ih =>
      intro fr hnodup hnot fr' hrun
      obtain ⟨fr₁, hset, hrest⟩ := assert_ok_some hrun
      cases hv : e.2 with
      | none => exact absurd rfl (set_var_header_none (hv ▸ hset))
      | some v =>
          have hnew : e.1 ∉ fr.varHeaders.keys := fun hmem =>
            (List.nodup_append.mp hnodup).2.2 e.1 hmem e.1 (by simp [HashTable.keys]) rfl
          have hadd : fr₁.varHeaders =
              fr.varHeaders.add e.1 (if v.length = 0 then none else some v) := by
            rcases set_var_header_cases (hv ▸ hset) with ⟨hne, -⟩ | ⟨-, -, hr⟩ |
              ⟨old, size, -, hfind, -, -⟩
            · exact absurd rfl hne
            · rw [(Prod.mk.inj hr).2]
            · exact absurd (HashTable.mem_keys_of_mem (HashTable.mem_of_find hfind)) hnew
          have hnodup' : (fr₁.varHeaders.keys ++ HashTable.keys h).Nodup := by
            rw [hadd, HashTable.keys_add, List.append_assoc]
            exact hnodup
          by_cases hlen : v.length = 0
          · refine Unset.set_all ⟨(List.nodup_append.mp hnodup').1, e.1, ?_⟩ hrest
            rw [hadd, if_pos hlen]
            exact List.mem_append_right _ (List.mem_singleton.mpr rfl)
          · refine ih hnodup' (fun hf => hnot fun e' he' => ?_) hrest
            rcases List.mem_cons.mp he' with rfl | he'
            · exact ⟨v, hv, hlen⟩
            · exact hf e' he'

theorem Unset.build {fr fr' : Frame} (h : Unset fr.varHeaders)
    (hrun : fr.build now = some (.ok, fr')) :
    Unset fr'.varHeaders ∧ 0 < fr'.varsSize ∧ fr'.isCompleted = true := by
  obtain ⟨fr₁, hset, hrest⟩ := assert_ok_some hrun
  have hpos : 0 < fr₁.varsSize := by
    rcases set_var_header_cases hset with ⟨hne, -⟩ | ⟨-, -, hr⟩ | ⟨old, size, -, -, hsize, hr⟩
    · exact absurd rfl hne
    · rw [(Prod.mk.inj hr).2]
      exact Nat.succ_pos _
    · have := hsize rfl
      rw [now.length_eq] at this
      rw [show fr₁ = _ from hr]
      show 0 < size
      omega
  have hop : validateOpcode fr₁.opcode = .ok := by
    unfold validateOpcode at hrest ⊢
    split_ifs at hrest ⊢ with h0
    · cases hrest
    · rfl
  rw [hop] at hrest
  rw [← (Prod.mk.inj (Option.some.inj hrest)).2]
  exact ⟨h.set hset, hpos, rfl⟩

/-- The copy of the header part of a request with an empty header. -/
theorem copy_header_unfilled {fr : Frame} (hk : Keyed src.varHeaders)
    (hnot : ¬ Filled src.varHeaders) (hrun : new.copyHeader src = some (.ok, fr)) :
    Unset fr.varHeaders := by
  obtain ⟨fr₁, hcontrol, hcopy⟩ := assert_ok_some hrun
  refine set_var_headers_unfilled ?_ hnot hcopy
  rw [show fr₁.varHeaders = new.varHeaders from set_frame_control_headers hcontrol]
  simpa [new] using hk.nodup

theorem toBytes_unset {h : Headers} (hu : ∃ k, (k, none) ∈ h) : toBytes h = none := by
  obtain ⟨k, hk⟩ := hu
  induction h with
  | nil => simp at hk
  | cons e h ih =>
      rcases List.mem_cons.mp hk with rfl | hk
      · rfl
      · simp [toBytes, ih hk]

/-- A request whose headers do not fit into a reply. -/
theorem copy_header_full {fr : Frame} (hop : src.opcode ≠ 0)
    (hheaders : src.varHeaders = Frame.stored t) (hwf : WellFormed t)
    (hshort : ∀ e ∈ t, e.1.length < 65536 ∧ e.2.length < 65536) (hfull : 65535 < encSize t)
    (hrun : new.copyHeader src = some (.ok, fr)) : False := by
  have hnew : Carries { new with opcode := src.opcode, flag := src.flag } [] :=
    ⟨rfl, rfl, by simp, WellFormed.nil⟩
  rw [copyHeader, set_frame_control_eq new src.flag hop, assert_ok, copyVarHeaders, hheaders] at hrun
  obtain ⟨fr', hfull'⟩ := set_var_headers_full hnew (by simpa using hwf) hshort (by simpa using hfull)
  rw [hfull'] at hrun
  cases hrun

variable {opcode : Byte} {setPayload : Frame → Status × Frame} {code : CStr}

/-- With room for it, the reply is built. -/
theorem reply_calls_room (hreq : Received src) (hroom : ReplyRoom src.varHeaders)
    (hop : opcode ≠ 0) (hpayload : SetsPayload setPayload) (hcode : code.length = 3) :
    ∃ fr t, replyCalls now src opcode setPayload code = some (.ok, fr) ∧ fr.opcode = opcode ∧
      fr.isCompleted = true ∧ fr.varHeaders = Frame.stored t := by
  obtain ⟨t, hheaders, hwf, hfits, hstatus⟩ := hroom
  obtain ⟨old, hold⟩ := hreq.time
  have hfind : t.find xTime = some old.text := by
    rw [hheaders, find_stored] at hold
    simpa using hold
  have hstatus' : encSize (put t xStatusCode code) ≤ 65535 := by
    rw [encSize_put_congr hwf.nodup xStatusCode
      (hcode.trans (show (3 : Nat) = (CStr.ofString "200").length by decide))]
    exact hstatus
  have hset : ∀ fr : Frame, fr.setOpcode opcode = (.ok, { fr with opcode := opcode }) := by
    intro fr
    simp [setOpcode, validateOpcode, hop]
  obtain ⟨fr, hfr⟩ : ∃ fr, fr = (setPayload { ({ new with
    opcode := src.opcode, flag := src.flag } : Frame).withHeaders t with opcode := opcode }).2 :=
    ⟨_, rfl⟩
  have hs := hpayload.status { ({ new with
    opcode := src.opcode, flag := src.flag } : Frame).withHeaders t with opcode := opcode }
  have hh : fr.varHeaders = Frame.stored t := by rw [hfr, hpayload.headers]; rfl
  have hv : fr.varsSize = encSize t := by rw [hfr, hpayload.size]; rfl
  have ho : fr.opcode = opcode := by rw [hfr, hpayload.opcode]
  have hpair : setPayload { ({ new with opcode := src.opcode, flag := src.flag } : Frame).withHeaders
      t with opcode := opcode } = (.ok, fr) := by
    rw [hfr, ← hs]
  refine ⟨{ fr.withHeaders (put (put t xStatusCode code) xTime now.text) with isCompleted := true },
    put (put t xStatusCode code) xTime now.text, ?_, ho, rfl, rfl⟩
  rw [replyCalls, copy_header_fits hreq.opcode_ne hheaders hwf hfits, assert_ok, hset, assert_ok,
    hpair, assert_ok]
  exact status_fits ⟨hh, hv, hfits, hwf⟩ (by rw [ho]; exact hop) (by omega) hfind old.length_eq
    hstatus' now

/-- The reply to a filled request is built, or fails with a status. -/
theorem reply_calls_filled (hreq : Received src) (hfilled : Filled src.varHeaders)
    (hop : opcode ≠ 0) (hpayload : SetsPayload setPayload) (hcode : code.length = 3) :
    ∃ s fr, replyCalls now src opcode setPayload code = some (s, fr) ∧
      (s = .ok → fr.isCompleted = true ∧ ∃ t, fr.varHeaders = Frame.stored t) := by
  by_cases hroom : ReplyRoom src.varHeaders
  · obtain ⟨fr, t, hrun, -, hdone, hheaders⟩ :=
      reply_calls_room now hreq hroom hop hpayload hcode
    exact ⟨.ok, fr, hrun, fun _ => ⟨hdone, t, hheaders⟩⟩
  · obtain ⟨t, hheaders, hwf, hshort⟩ := filled_table hreq.keyed hfilled
    by_cases hfits : encSize t ≤ 65535
    · have hset : ∀ fr : Frame, fr.setOpcode opcode = (.ok, { fr with opcode := opcode }) := by
        intro fr
        simp [setOpcode, validateOpcode, hop]
      obtain ⟨fr, hfr⟩ : ∃ fr, fr = (setPayload { ({ new with
        opcode := src.opcode, flag := src.flag } : Frame).withHeaders t with opcode := opcode }).2 :=
        ⟨_, rfl⟩
      have hh : fr.varHeaders = Frame.stored t := by rw [hfr, hpayload.headers]; rfl
      have hv : fr.varsSize = encSize t := by rw [hfr, hpayload.size]; rfl
      have hstatus : 65535 < encSize (put t xStatusCode code) := by
        rw [encSize_put_congr hwf.nodup xStatusCode
          (hcode.trans (show (3 : Nat) = (CStr.ofString "200").length by decide))]
        exact Nat.lt_of_not_le fun hle => hroom ⟨t, hheaders, hwf, hfits, hle⟩
      obtain ⟨fr', hfull⟩ := @status_full fr t ⟨hh, hv, hfits, hwf⟩ code (by omega) hstatus
        fun frame => frame.build now
      refine ⟨.maxVarHeaders, fr', ?_, fun h => by cases h⟩
      rw [replyCalls, copy_header_fits hreq.opcode_ne hheaders hwf hfits, assert_ok, hset,
        assert_ok, assertOk]
      simp only [bind, Option.bind_some, hpayload.status, if_true]
      rw [← hfr]
      exact hfull
    · have hnew : Carries { new with opcode := src.opcode, flag := src.flag } [] :=
        ⟨rfl, rfl, by simp, WellFormed.nil⟩
      obtain ⟨fr', hfull⟩ := set_var_headers_full hnew (by simpa using hwf) hshort
        (by simpa using Nat.lt_of_not_le hfits)
      refine ⟨.maxVarHeaders, fr', ?_, fun h => by cases h⟩
      rw [replyCalls, copyHeader, set_frame_control_eq new src.flag hreq.opcode_ne, assert_ok,
        copyVarHeaders, hheaders, hfull]
      rfl

/-- Without room for it, what is built cannot be encoded. -/
theorem reply_calls_no_room {fr : Frame} (hreq : Received src) (hno : ¬ ReplyRoom src.varHeaders)
    (hop : opcode ≠ 0) (hpayload : SetsPayload setPayload) (hcode : code.length = 3) (hrun : replyCalls now src opcode setPayload code = some (.ok, fr)) :
    Unset fr.varHeaders ∧ 0 < fr.varsSize ∧ fr.isCompleted = true := by
  obtain ⟨fr₁, hcopy, hrun₁⟩ := assert_ok_some hrun
  obtain ⟨fr₂, hset, hrun₂⟩ := assert_ok_some hrun₁
  obtain ⟨fr₃, hput, hrun₃⟩ := assert_ok_some hrun₂
  have h₂ : fr₂ = { fr₁ with opcode := opcode } := by
    rw [Option.some.injEq, setOpcode, validateOpcode, if_neg hop] at hset
    exact (Prod.mk.inj hset).2.symm
  have hh := hpayload.headers fr₂
  have hv := hpayload.size fr₂
  rw [Option.some.inj hput, h₂] at hh hv
  by_cases hfilled : Filled src.varHeaders
  · obtain ⟨t, hheaders, hwf, hshort⟩ := filled_table hreq.keyed hfilled
    by_cases hfits : encSize t ≤ 65535
    · have hstatus : 65535 < encSize (put t xStatusCode code) := by
        rw [encSize_put_congr hwf.nodup xStatusCode
          (hcode.trans (show (3 : Nat) = (CStr.ofString "200").length by decide))]
        exact Nat.lt_of_not_le fun hle => hno ⟨t, hheaders, hwf, hfits, hle⟩
      rw [copy_header_fits hreq.opcode_ne hheaders hwf hfits] at hcopy
      obtain rfl := (Prod.mk.inj (Option.some.inj hcopy)).2
      obtain ⟨fr', hfull⟩ := @status_full fr₃ t ⟨hh, hv, hfits, hwf⟩ code (by omega) hstatus
        fun frame => frame.build now
      rw [hfull] at hrun₃
      cases hrun₃
    · exact (copy_header_full hreq.opcode_ne hheaders hwf hshort (Nat.lt_of_not_le hfits)
        hcopy).elim
  · have hu : Unset fr₃.varHeaders := by
      rw [hh]
      exact (copy_header_unfilled hreq.keyed hfilled hcopy : Unset fr₁.varHeaders)
    obtain ⟨fr₄, hset, hbuild⟩ := assert_ok_some hrun₃
    exact (hu.set hset).build now hbuild

end Reply

end Bpsp.Frame

namespace Bpsp

open CLib Bpsp.Frame

section HandleReply

variable {env : Env} {a : Addr} {req : Frame} {sent : Sent}

/-- A reply is an OK or an ERR frame, by the status that it reports. -/
theorem reply_calls (env : Env) (req : Frame) (s : Status) (msg : CStr) :
    ∃ opcode setPayload code, replyFrame env.replyTime req s msg =
        replyCalls env.replyTime req opcode setPayload code ∧
      opcode = (if s = .ok then opOk else opErr) ∧ opcode ≠ 0 ∧ code.length = 3 ∧
      SetsPayload setPayload := by
  unfold replyFrame
  by_cases hs : s = .ok
  · rw [if_neg (not_not.mpr hs), if_pos hs, ok_eq_calls]
    refine ⟨_, _, _, rfl, rfl, by decide, by decide, ⟨?_, ?_, ?_, ?_⟩⟩ <;> intro fr <;>
      rw [put_payload_eq]
  · rw [if_pos hs, if_neg hs, err_eq_calls]
    exact ⟨_, _, _, rfl, rfl, by decide, by decide,
      ⟨fun _ => rfl, fun _ => rfl, fun _ => rfl, fun _ => rfl⟩⟩

/-- Sending a complete frame whose headers all have a value. -/
theorem client_send_stored {fr : Frame} {t : Table} (hdone : fr.isCompleted = true)
    (hheaders : fr.varHeaders = stored t) :
    clientSend env a fr sent = some (env.io sent.length, sent ++ [(a, fr)]) := by
  unfold clientSend
  rw [if_pos hdone, hheaders, toBytes_stored]
  split_ifs <;> rfl

/-- Without the ACK flag nothing is sent. -/
theorem reply_no_ack (hack : flagIsSet req.flag flAck = false) (s : Status) (msg : CStr) :
    handleReply env a req s msg sent = some (.ok, sent) := by
  unfold handleReply
  rw [if_neg (by simp [hack])]

/-- With the ACK flag and room for the reply, one frame is sent to the client, whose opcode tells
the status. -/
theorem reply_sent (hreq : Received req) (hack : flagIsSet req.flag flAck = true)
    (hroom : ReplyRoom req.varHeaders) (s : Status) (msg : CStr) :
    ∃ fr, handleReply env a req s msg sent = some (env.io sent.length, sent ++ [(a, fr)]) ∧
      fr.opcode = if s = .ok then opOk else opErr := by
  obtain ⟨opcode, setPayload, code, hcalls, hopcode, hop, hcode, hpayload⟩ :=
    reply_calls env req s msg
  obtain ⟨fr, t, hrun, hfr, hdone, hheaders⟩ :=
    reply_calls_room env.replyTime hreq hroom hop hpayload hcode
  refine ⟨fr, ?_, hfr.trans hopcode⟩
  unfold handleReply
  rw [if_pos hack, hcalls, hrun, Option.bind_eq_bind, Option.bind_some]
  exact client_send_stored hdone hheaders

/-- Replying to a filled request is defined. -/
theorem reply_defined (hreq : Received req) (hfilled : Filled req.varHeaders) (s : Status)
    (msg : CStr) : ∃ r, handleReply env a req s msg sent = some r := by
  by_cases hack : flagIsSet req.flag flAck = true
  · obtain ⟨opcode, setPayload, code, hcalls, -, hop, hcode, hpayload⟩ := reply_calls env req s msg
    obtain ⟨s', fr, hrun, hok⟩ :=
      reply_calls_filled env.replyTime hreq hfilled hop hpayload hcode
    unfold handleReply
    rw [if_pos hack, hcalls, hrun, Option.bind_eq_bind, Option.bind_some]
    by_cases hs : s' = .ok
    · obtain ⟨hdone, t, hheaders⟩ := hok hs
      refine ⟨(env.io sent.length, sent ++ [(a, fr)]), ?_⟩
      show (if s' ≠ .ok then some (s', sent) else clientSend env a fr sent) = _
      rw [if_neg (not_not.mpr hs)]
      exact client_send_stored hdone hheaders
    · exact ⟨(s', sent), if_pos hs⟩
  · exact ⟨_, reply_no_ack (by simpa using hack) s msg⟩

/-- With the ACK flag and no room for the reply, no frame is sent. -/
theorem reply_no_room (hreq : Received req) (hack : flagIsSet req.flag flAck = true)
    (hno : ¬ ReplyRoom req.varHeaders) {s : Status} {msg : CStr} {r : Status × Sent}
    (hrun : handleReply env a req s msg sent = some r) : r.2 = sent := by
  obtain ⟨opcode, setPayload, code, hcalls, -, hop, hcode, hpayload⟩ := reply_calls env req s msg
  unfold handleReply at hrun
  rw [if_pos hack, hcalls, Option.bind_eq_bind, Option.bind_eq_some_iff] at hrun
  obtain ⟨⟨s', fr⟩, hbuilt, hrun⟩ := hrun
  by_cases hs : s' = .ok
  · subst hs
    obtain ⟨hu, hpos, hdone⟩ :=
      reply_calls_no_room env.replyTime hreq hno hop hpayload hcode hbuilt
    simp [clientSend, hdone, hpos, toBytes_unset hu.missing] at hrun
  · simp only [ne_eq, hs, not_false_eq_true, if_true] at hrun
    rw [← Option.some.inj hrun]

/-- The reply to a filled request, if any is sent, is the last frame. -/
theorem reply_cases (hreq : Received req) (hfilled : Filled req.varHeaders) (s : Status)
    (msg : CStr) : ∃ s' sent', handleReply env a req s msg sent = some (s', sent') ∧
      (sent' = sent ∨ ∃ fr, sent' = sent ++ [(a, fr)] ∧
        fr.opcode = if s = .ok then opOk else opErr) := by
  by_cases hack : flagIsSet req.flag flAck = true
  · by_cases hroom : ReplyRoom req.varHeaders
    · obtain ⟨fr, hrun, hop⟩ := reply_sent hreq hack hroom s msg
      exact ⟨_, _, hrun, Or.inr ⟨fr, rfl, hop⟩⟩
    · obtain ⟨r, hrun⟩ := reply_defined hreq hfilled s msg
      exact ⟨_, _, hrun, Or.inl (reply_no_room hreq hack hroom hrun)⟩
  · exact ⟨_, _, reply_no_ack (by simpa using hack) s msg, Or.inl rfl⟩

end HandleReply

end Bpsp
