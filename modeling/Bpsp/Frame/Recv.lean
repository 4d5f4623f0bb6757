import Bpsp.Frame.Wire

/-!
# Receiving from an arbitrary stream

`decode` is `frame__recv` as a function of the bytes of the stream: the pieces in which the kernel
hands them over make no difference (`recv_eq`). A frame that is accepted takes the bytes that its
size fields announce, whatever is in its header block (`decode_framed`), and a stream that ends
before is refused (`decode_short`).
-/

namespace Bpsp.Frame

open CLib Net Datatype

/-- The last part of `frame__recv`: the payload and the time. -/
def decodePayload (now : Timestamp) (frame : Frame) (dataSize : Nat) (bytes : List Byte) :
    Exec (Status × Frame × List Byte) :=
  let data := bytes.take dataSize
  let frame := if 0 < dataSize then
      { frame with payload := data ++ frame.payload.drop data.length, pos := data.length }
    else frame
  if bytes.length < dataSize then some (.connectionClosed, frame, [])
  else (frame.build now).map fun r => (r.1, r.2, bytes.drop dataSize)

/-- The middle part of `frame__recv`: the header block. -/
def decodeHeaders (now : Timestamp) (frame : Frame) (varsSize dataSize : Nat) (bytes : List Byte) :
    Exec (Status × Frame × List Byte) :=
  if bytes.length < varsSize then some (.connectionClosed, frame, [])
  else do
    let (s, frame) ← frame.parseVarHeader (bytes.take varsSize)
    if s ≠ .ok then some (s, frame, bytes.drop varsSize)
    else decodePayload now (frame.mallocPayload dataSize).2 dataSize (bytes.drop varsSize)

/-- `frame__recv` on the bytes of a stream: the status, the frame and the bytes that are left. -/
def decode (now : Timestamp) (bytes : List Byte) : Exec (Status × Frame × List Byte) :=
  if bytes.length < 8 then some (.connectionClosed, new, [])
  else do
    let (s, frame) ← new.setFrameControl ((bytes.drop 2).headD 0) ((bytes.drop 3).headD 0)
    if s ≠ .ok then some (s, frame, bytes.drop 8)
    else decodeHeaders now frame (be16 bytes) (be32 (bytes.drop 4)) (bytes.drop 8)

theorem eight_bytes {bytes : List Byte} (h : 8 ≤ bytes.length) :
    ∃ b₀ b₁ b₂ b₃ b₄ b₅ b₆ b₇ rest,
      bytes = b₀ :: b₁ :: b₂ :: b₃ :: b₄ :: b₅ :: b₆ :: b₇ :: rest := by
  match bytes, h with
  | b₀ :: b₁ :: b₂ :: b₃ :: b₄ :: b₅ :: b₆ :: b₇ :: rest, _ => exact ⟨_, _, _, _, _, _, _, _, _, rfl⟩

/-- The fields of a fixed header do not depend on the byte order of the host. -/
theorem header_fields (big : Bool) {bytes : List Byte} (h : 8 ≤ bytes.length) :
    (d16 big (bytes.take 8)).toNat = be16 bytes ∧
      (d32 big ((bytes.take 8).drop 4)).toNat = be32 (bytes.drop 4) ∧
      ((bytes.take 8).drop 2).headD 0 = (bytes.drop 2).headD 0 ∧
      ((bytes.take 8).drop 3).headD 0 = (bytes.drop 3).headD 0 := by
  obtain ⟨b₀, b₁, b₂, b₃, b₄, b₅, b₆, b₇, rest, rfl⟩ := eight_bytes h
  exact ⟨d16_eq big b₀ b₁ _, d32_eq big b₄ b₅ b₆ b₇ [], rfl, rfl⟩

/-- Receiving depends on the bytes of the stream only. -/
theorem recv_eq {kernel : Kernel} (h : kernel.Receives) (big : Bool) (now : Timestamp)
    (conn : Conn) : ∃ n, recv big kernel now conn = (decode now conn.inbox).map fun r =>
      (r.1, r.2.1, { conn with inbox := r.2.2, recvs := n }) := by
  obtain ⟨n₁, h₁⟩ := read_eq h conn 8
  unfold recv decode
  rw [h₁]
  by_cases hfixed : conn.inbox.length < 8
  · have hnil : conn.inbox.drop 8 = [] := List.drop_eq_nil_of_le (by omega)
    refine ⟨n₁, ?_⟩
    rw [if_pos hfixed, if_neg (by omega), hnil]
    rfl
  obtain ⟨hvars, hdata, hop, hflag⟩ := header_fields big (Nat.le_of_not_lt hfixed)
  rw [if_neg hfixed, if_pos (by omega)]
  simp only [hvars, hdata, hop, hflag, ne_eq, not_true_eq_false, if_false]
  cases hcontrol : new.setFrameControl ((conn.inbox.drop 2).headD 0)
      ((conn.inbox.drop 3).headD 0) with
  | none => exact ⟨n₁, rfl⟩
  | some r =>
  obtain ⟨s, frame⟩ := r
  simp only [bind, Option.bind_some]
  by_cases hs : s = .ok
  swap
  · exact ⟨n₁, by simp [hs]⟩
  obtain ⟨n₂, h₂⟩ := read_eq h { conn with inbox := conn.inbox.drop 8, recvs := n₁ }
    (be16 conn.inbox)
  dsimp only at h₂
  unfold decodeHeaders
  rw [h₂]
  simp only [hs, not_true_eq_false, if_false]
  by_cases hblock : (conn.inbox.drop 8).length < be16 conn.inbox
  · have hnil : (conn.inbox.drop 8).drop (be16 conn.inbox) = [] :=
      List.drop_eq_nil_of_le (by omega)
    refine ⟨n₂, ?_⟩
    rw [if_neg (Nat.not_le.mpr hblock), if_pos hblock, hnil]
    rfl
  rw [if_pos (Nat.le_of_not_lt hblock), if_neg hblock]
  cases hparse : frame.parseVarHeader ((conn.inbox.drop 8).take (be16 conn.inbox)) with
  | none => exact ⟨n₂, rfl⟩
  | some r =>
  obtain ⟨s', frame'⟩ := r
  simp only [bind, Option.bind_some, not_true_eq_false, if_false]
  by_cases hs' : s' = .ok
  swap
  · exact ⟨n₂, by simp [hs']⟩
  have hmalloc : (frame'.mallocPayload (be32 (conn.inbox.drop 4))).1 = .ok := by
    unfold mallocPayload
    split_ifs <;> rfl
  simp only [hs', hmalloc, not_true_eq_false, if_false]
  unfold decodePayload
  by_cases hempty : 0 < be32 (conn.inbox.drop 4)
  · obtain ⟨n₃, h₃⟩ := read_eq h { conn with
      inbox := (conn.inbox.drop 8).drop (be16 conn.inbox), recvs := n₂ } (be32 (conn.inbox.drop 4))
    dsimp only at h₃
    refine ⟨n₃, ?_⟩
    simp only [hempty, if_true]
    rw [h₃]
    by_cases hpayload : ((conn.inbox.drop 8).drop (be16 conn.inbox)).length < be32 (conn.inbox.drop 4)
    · have hnil : ((conn.inbox.drop 8).drop (be16 conn.inbox)).drop (be32 (conn.inbox.drop 4)) = [] :=
        List.drop_eq_nil_of_le (by omega)
      simp only [Nat.not_le.mpr hpayload, hpayload, if_false, if_true, hnil]
      rfl
    · simp only [Nat.le_of_not_lt hpayload, hpayload, if_false, if_true, not_true_eq_false]
      cases build now _ <;> rfl
  · refine ⟨n₂, ?_⟩
    have hzero : be32 (conn.inbox.drop 4) = 0 := by omega
    simp only [hzero, Nat.lt_irrefl, if_false, not_true_eq_false, Nat.not_lt_zero, List.drop_zero]
    cases build now _ <;> rfl

/-- Parsing changes the headers and their size only. -/
theorem parse_frame {fr : Frame} {block : List Byte} {r : Status × Frame}
    (hrun : fr.parseVarHeader block = some r) :
    r.2 = { fr with varsSize := r.2.varsSize, varHeaders := r.2.varHeaders } := by
  unfold parseVarHeader at hrun
  split_ifs at hrun
  · rw [← Option.some.inj hrun]
  · simp only [bind, Option.bind_eq_some_iff] at hrun
    obtain ⟨⟨c, fr'⟩, hloop, hrun⟩ := hrun
    have hcall : ∀ {st st' : Frame} {k v : CStr},
        st = { fr with varsSize := st.varsSize, varHeaders := st.varHeaders } →
        k.length ≤ block.length → v.length ≤ block.length →
        (st.setVarHeader k (some v)).map Prod.snd = some st' →
        st' = { fr with varsSize := st'.varsSize, varHeaders := st'.varHeaders } := by
      intro st st' k v hst _ _ hset
      obtain ⟨r', hr', rfl⟩ := Option.map_eq_some_iff.mp hset
      rw [set_var_header_frame hr', hst]
    have hkeep := parse_loop_keeps hcall _ rfl rfl hloop
    split_ifs at hrun <;> rw [← Option.some.inj hrun] <;> exact hkeep

/-- Building a frame changes its headers and marks it as complete; the opcode is not zero. -/
theorem build_frame {fr fr' : Frame} {now : Timestamp} (hrun : fr.build now = some (.ok, fr')) :
    fr.opcode ≠ 0 ∧ fr' = { fr with
      varsSize := fr'.varsSize, varHeaders := fr'.varHeaders, isCompleted := true } := by
  obtain ⟨fr₁, hset, hrest⟩ := assert_ok_some hrun
  have hframe := set_var_header_frame hset
  dsimp only at hframe
  unfold validateOpcode at hrest
  split_ifs at hrest with hop
  · cases hrest
  · obtain rfl := (Prod.mk.inj (Option.some.inj hrest)).2
    rw [hframe] at hop ⊢
    exact ⟨hop, rfl⟩

/-- The frame is what the bytes say: its fields stand at their places, and all of it is there. -/
structure Framed (bytes : List Byte) (fr : Frame) : Prop where
  enough : 8 + be16 bytes + be32 (bytes.drop 4) ≤ bytes.length
  opcode : bytes[2]? = some fr.opcode
  opcode_ne : fr.opcode ≠ 0
  flag : bytes[3]? = some fr.flag
  dataSize : fr.dataSize = be32 (bytes.drop 4)
  payload : fr.payload = (bytes.drop (8 + be16 bytes)).take (be32 (bytes.drop 4))
  done : fr.isCompleted = true

/-- The frame after the payload was read. -/
theorem malloc_fill {fr : Frame} {dataSize : Nat} {bytes : List Byte}
    (henough : dataSize ≤ bytes.length) (hnone : fr.payload = []) :
    (if 0 < dataSize then
        { (fr.mallocPayload dataSize).2 with
          payload := bytes.take dataSize ++
            (fr.mallocPayload dataSize).2.payload.drop (bytes.take dataSize).length
          pos := (bytes.take dataSize).length }
      else (fr.mallocPayload dataSize).2 : Frame) =
      { fr with
        payload := bytes.take dataSize, pos := dataSize, payloadSize := dataSize
        dataSize := dataSize } := by
  have hlen : (bytes.take dataSize).length = dataSize := by
    rw [List.length_take]
    omega
  by_cases hpos : 0 < dataSize
  · have hne : dataSize ≠ 0 := by omega
    rw [if_pos hpos]
    simp [mallocPayload, hne, hlen, hnone]
  · have hzero : dataSize = 0 := by omega
    rw [if_neg hpos]
    simp [mallocPayload, freePayload, hzero]

theorem decode_payload_ok {now : Timestamp} {fr fr' : Frame} {dataSize : Nat}
    {bytes rest : List Byte} (hnone : fr.payload = [])
    (hrun : decodePayload now (fr.mallocPayload dataSize).2 dataSize bytes =
      some (.ok, fr', rest)) :
    dataSize ≤ bytes.length ∧ rest = bytes.drop dataSize ∧ fr.opcode ≠ 0 ∧ fr' = { fr with
      varsSize := fr'.varsSize, varHeaders := fr'.varHeaders, payload := bytes.take dataSize
      pos := dataSize, payloadSize := dataSize, dataSize := dataSize, isCompleted := true } := by
  unfold decodePayload at hrun
  by_cases hshort : bytes.length < dataSize
  · rw [if_pos hshort] at hrun
    cases hrun
  · have henough := Nat.le_of_not_lt hshort
    rw [if_neg hshort, malloc_fill henough hnone] at hrun
    obtain ⟨⟨s, fr₁⟩, hbuild, heq⟩ := Option.map_eq_some_iff.mp hrun
    obtain ⟨rfl, heq⟩ := Prod.mk.inj heq
    obtain ⟨rfl, rfl⟩ := Prod.mk.inj heq
    obtain ⟨hop, hframe⟩ := build_frame hbuild
    exact ⟨henough, rfl, hop, hframe⟩

/-- The frame that the header block is parsed into. -/
def controlled (bytes : List Byte) : Frame :=
  { new with opcode := (bytes.drop 2).headD 0, flag := (bytes.drop 3).headD 0 }

/-- The first part of `frame__recv`: a stream that is too short or has no opcode is refused. -/
theorem decode_eq (now : Timestamp) (bytes : List Byte) :
    decode now bytes = if bytes.length < 8 then some (.connectionClosed, new, [])
      else if (bytes.drop 2).headD 0 = 0 then some (.invalidOpcode, new, bytes.drop 8)
      else decodeHeaders now (controlled bytes) (be16 bytes) (be32 (bytes.drop 4))
        (bytes.drop 8) := by
  unfold decode
  by_cases hop : (bytes.drop 2).headD 0 = 0
  · have hfail : new.setFrameControl ((bytes.drop 2).headD 0) ((bytes.drop 3).headD 0) =
        some (.invalidOpcode, new) := by
      rw [hop]
      rfl
    rw [if_pos hop, hfail]
    rfl
  · rw [if_neg hop, set_frame_control_eq new _ hop]
    rfl

/-- An accepted frame is what the bytes say, and exactly its bytes are taken from the stream. -/
theorem decode_framed {now : Timestamp} {bytes rest : List Byte} {fr : Frame}
    (hrun : decode now bytes = some (.ok, fr, rest)) :
    Framed bytes fr ∧ rest = bytes.drop (8 + be16 bytes + be32 (bytes.drop 4)) := by
  rw [decode_eq] at hrun
  by_cases hfixed : bytes.length < 8
  · rw [if_pos hfixed] at hrun
    cases hrun
  rw [if_neg hfixed] at hrun
  by_cases hop : (bytes.drop 2).headD 0 = 0
  · rw [if_pos hop] at hrun
    cases hrun
  rw [if_neg hop] at hrun
  unfold decodeHeaders at hrun
  by_cases hblock : (bytes.drop 8).length < be16 bytes
  · rw [if_pos hblock] at hrun
    cases hrun
  rw [if_neg hblock, Option.bind_eq_bind, Option.bind_eq_some_iff] at hrun
  obtain ⟨⟨s, fr₁⟩, hparse, hrun⟩ := hrun
  have hframe : fr₁ = _ := parse_frame hparse
  have hnone : fr₁.payload = [] := by
    rw [hframe]
    rfl
  obtain ⟨henough, hrest, -, hfr⟩ := decode_payload_ok hnone (ok_of_guard hrun)
  obtain ⟨b₀, b₁, b₂, b₃, b₄, b₅, b₆, b₇, body, hbytes⟩ := eight_bytes (Nat.le_of_not_lt hfixed)
  have hopcode : fr.opcode = (bytes.drop 2).headD 0 := by
    rw [hfr, hframe]
    rfl
  have hflag : fr.flag = (bytes.drop 3).headD 0 := by
    rw [hfr, hframe]
    rfl
  rw [List.drop_drop, List.length_drop] at henough
  rw [List.length_drop] at hblock
  refine ⟨⟨by omega, ?_, ?_, ?_, ?_, ?_, ?_⟩, ?_⟩
  · rw [hopcode, hbytes]
    rfl
  · rw [hopcode]
    exact hop
  · rw [hflag, hbytes]
    rfl
  · rw [hfr]
  · rw [hfr, List.drop_drop]
  · rw [hfr]
  · rw [hrest, List.drop_drop, List.drop_drop, Nat.add_assoc]

/-- A stream that ends before its frame does is refused, and the frame is not complete. -/
theorem decode_short (now : Timestamp) {bytes : List Byte}
    (hshort : bytes.length < 8 + be16 bytes + be32 (bytes.drop 4))
    (hvalues : ∀ p ∈ handed ((bytes.drop 8).take (be16 bytes)), p.2.length ≠ 0) :
    ∃ s fr rest, decode now bytes = some (s, fr, rest) ∧ s ≠ .ok ∧ fr.isCompleted = false := by
  rw [decode_eq]
  by_cases hfixed : bytes.length < 8
  · exact ⟨.connectionClosed, new, [], if_pos hfixed, by decide, rfl⟩
  rw [if_neg hfixed]
  by_cases hop : (bytes.drop 2).headD 0 = 0
  · exact ⟨.invalidOpcode, new, bytes.drop 8, if_pos hop, by decide, rfl⟩
  rw [if_neg hop]
  unfold decodeHeaders
  by_cases hblock : (bytes.drop 8).length < be16 bytes
  · exact ⟨.connectionClosed, controlled bytes, [], if_pos hblock, by decide, rfl⟩
  rw [if_neg hblock]
  have hshort : ((bytes.drop 8).take (be16 bytes)).length < 65536 := by
    have := be16_lt bytes
    rw [List.length_take]
    omega
  obtain ⟨c, -, hparse⟩ := parse_hands (controlled bytes) hshort
  generalize (if c.startKey ≠ 0 then Status.invalidVarHeaders else .ok) = s at hparse
  have hempty : Valued (controlled bytes).varHeaders := fun e he => by cases he
  obtain ⟨fr, hset, -⟩ := hempty.set_pairs hvalues
  rw [hset, Option.map_some] at hparse
  have hframe : fr = _ := parse_frame hparse
  have hopen : fr.isCompleted = false := by
    rw [hframe]
    rfl
  rw [hparse, Option.bind_eq_bind, Option.bind_some]
  by_cases hs : s = .ok
  · -- the header block is there, so the payload is not
    have hpayload : ((bytes.drop 8).drop (be16 bytes)).length < be32 (bytes.drop 4) := by
      rw [List.length_drop] at hblock
      rw [List.length_drop, List.length_drop]
      omega
    have hmalloc : (fr.mallocPayload (be32 (bytes.drop 4))).2.isCompleted = false := by
      unfold mallocPayload
      split_ifs <;> exact hopen
    simp only [hs, ne_eq, not_true_eq_false, if_false]
    unfold decodePayload
    refine ⟨.connectionClosed, _, [], if_pos hpayload, by decide, ?_⟩
    split_ifs <;> exact hmalloc
  · simp only [hs, ne_eq, not_false_eq_true, if_true]
    exact ⟨s, fr, _, rfl, hs, hopen⟩

/-- The frame that was read before its time is set. -/
def unbuilt (opcode flag : Byte) (t : Table) (payload : List Byte) : Frame :=
  ⟨encSize t, opcode, flag, payload.length, stored t, payload, payload.length, payload.length, false⟩

/-- A time that does not fit in the place of the old one is not set. -/
theorem build_full {fr : Frame} {t : Table} (h : Accounts fr t) {old : CStr}
    (hold : t.find xTime = some old) {now : Timestamp}
    (hfull : 65535 < encSize (put t xTime now.text)) :
    ∃ fr', fr.build now = some (.maxVarHeaders, fr') := by
  have hlen : now.text.length < 65536 := by
    rw [now.length_eq]
    decide
  have hset := set_var_header_full_update h (show xTime.length ≠ 0 by decide) hlen hold hfull
  unfold build
  rw [hset, assert_fail _ _ (by decide)]
  exact ⟨_, rfl⟩

/-- The bytes of a plain table and a payload, after a fixed header that announces them, are read
back; what remains is to set the time. -/
theorem decode_encoded (now : Timestamp) {bytes fixed payload rest : List Byte} {t : Table}
    (hbytes : bytes = fixed ++ (encode t ++ (payload ++ rest))) (hlen : fixed.length = 8)
    (hvars : be16 bytes = encSize t) (hdata : be32 (bytes.drop 4) = payload.length)
    (hop : (bytes.drop 2).headD 0 ≠ 0) (hwf : WellFormed t) (hfits : encSize t ≤ 65535)
    (hplain : ∀ e ∈ t, Plain e.1 ∧ Plain e.2) :
    decode now bytes = ((unbuilt ((bytes.drop 2).headD 0) ((bytes.drop 3).headD 0) t
      payload).build now).map fun r => (r.1, r.2, rest) := by
  have hbody : bytes.drop 8 = encode t ++ (payload ++ rest) := by
    rw [hbytes, ← hlen, List.drop_left]
  have htake : (bytes.drop 8).take (encSize t) = encode t := by
    rw [hbody, ← length_encode hfits, List.take_left]
  have hdrop : (bytes.drop 8).drop (encSize t) = payload ++ rest := by
    rw [hbody, ← length_encode hfits, List.drop_left]
  have hcarries : Carries (controlled bytes) [] := ⟨rfl, rfl, by simp, WellFormed.nil⟩
  have hlong : ¬ bytes.length < 8 := by
    rw [hbytes, List.length_append]
    omega
  have hblock : ¬ (bytes.drop 8).length < encSize t := by
    rw [hbody, List.length_append, length_encode hfits]
    omega
  rw [decode_eq, if_neg hlong, if_neg hop, hvars, hdata]
  unfold decodeHeaders
  rw [if_neg hblock, htake, parse_encode hcarries hwf hfits hplain, hdrop]
  simp only [bind, Option.bind_some, ne_eq, not_true_eq_false, if_false]
  unfold decodePayload
  have henough : payload.length ≤ (payload ++ rest).length := by
    rw [List.length_append]
    omega
  have hfill := @malloc_fill ((controlled bytes).withHeaders t) _ _ henough rfl
  rw [List.take_left] at hfill
  rw [if_neg (Nat.not_lt.mpr henough), List.take_left, List.drop_left, hfill]
  rfl

/-- The status, the frame and the rest of the stream after `frame__recv`. -/
def outcome (result : Exec (Status × Frame × Conn)) : Exec (Status × Frame × List Byte) :=
  result.map fun r => (r.1, r.2.1, r.2.2.inbox)

theorem outcome_eq {kernel : Kernel} (h : kernel.Receives) (big : Bool) (now : Timestamp)
    (conn : Conn) : outcome (recv big kernel now conn) = decode now conn.inbox := by
  obtain ⟨n, hrun⟩ := recv_eq h big now conn
  unfold outcome
  rw [hrun, Option.map_map]
  exact Option.map_id'

/-- A connection with a frame without headers and with a payload of two bytes, and one more byte. -/
def greeting : Conn := ⟨[0, 0, 3, 0, 0, 0, 0, 2, 104, 105, 7], [], 0, 0⟩

end Bpsp.Frame
