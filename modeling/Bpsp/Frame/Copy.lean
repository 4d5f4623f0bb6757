import Bpsp.Frame.Payload
import Bpsp.Frame.Recv

/-!
# Copies of frames

`frame__copy` and `frame__MSG` on frames that lie in memory. A frame that the functions of
`lib/frame.c` have made and completed can always be copied (`copy_at_fits`): its headers are inserted
one by one and no intermediate size is larger than the last. The message of such a frame has another
time header, for which there may be no room if the header was changed after `frame__build`
(`msg_at_fits`, `msg_at_full`).
-/

namespace Bpsp.Frame

open CLib

/-- The frames in memory, by address. -/
abbrev Frames (ι : Type) := ι → Frame

section Store

variable {ι : Type} [DecidableEq ι]

/-- A call that changes one frame. -/
def on (frames : Frames ι) (p : ι) (call : Frame → Exec (Status × Frame)) :
    Exec (Status × Frames ι) :=
  (call (frames p)).map fun r => (r.1, Function.update frames p r.2)

/-- `frame__empty`. -/
def emptyAt (frames : Frames ι) (frame : ι) : Exec (Status × Frames ι) :=
  on frames frame fun _ => some (.ok, new)

/-- The loop of `frame__copy_var_headers`. -/
def copyLoop (dst : ι) : Headers → Frames ι → Exec (Status × Frames ι)
  | [], frames => some (.ok, frames)
  | (key, value) :: headers, frames =>
      assertOk (on frames dst fun fr => fr.setVarHeader key value) fun frames =>
        copyLoop dst headers frames

/-- `frame__copy_header`, with `frame__copy_var_headers`. -/
def copyHeaderAt (frames : Frames ι) (dst src : ι) : Exec (Status × Frames ι) :=
  assertOk (on frames dst fun fr => fr.setFrameControl (frames src).opcode (frames src).flag)
    fun frames => copyLoop dst (frames src).varHeaders frames

/-- `frame__copy`. -/
def copyAt (now : Timestamp) (frames : Frames ι) (dst src : ι) (build : Bool) :
    Exec (Status × Frames ι) :=
  if (frames src).isCompleted then
    assertOk (emptyAt frames dst) fun frames =>
      assertOk (copyHeaderAt frames dst src) fun frames =>
        let payload := (frames src).payload.take (frames src).payloadSize
        assertOk (on frames dst fun fr => some (fr.putPayload payload)) fun frames =>
          if build then on frames dst fun fr => fr.build now else some (.ok, frames)
  else some (.invalidArg, frames)

/-- `frame__MSG`. -/
def msgAt (now : Timestamp) (frames : Frames ι) (frame src : ι) : Exec (Status × Frames ι) :=
  assertOk (copyAt now frames frame src false) fun frames =>
    assertOk (on frames frame fun fr => some (fr.setOpcode opMsg)) fun frames =>
      on frames frame fun fr => fr.build now

end Store

/-- The frames that the functions of `lib/frame.c` can make, with calls that succeed or not. -/
inductive Made : Frame → Prop
  | new : Made new
  | setVarHeader {fr fr' : Frame} {k v : CStr} {s : Status} : Made fr →
      fr.setVarHeader k (some v) = some (s, fr') → Made fr'
  | parseVarHeader {fr fr' : Frame} {block : List Byte} {s : Status} : Made fr →
      fr.parseVarHeader block = some (s, fr') → Made fr'
  | setOpcode {fr : Frame} (opcode : Byte) : Made fr → Made (fr.setOpcode opcode).2
  | setFlag {fr : Frame} (flag : Byte) : Made fr → Made (fr.setFlag flag).2
  | payload {fr fr' : Frame} {mem : Memory Byte} {call : PayloadCall} {s : Status} : Made fr →
      call.run mem fr = some (s, fr') → Made fr'
  | mallocPayload {fr : Frame} (mem : Memory Byte) (dataSize : Nat) : Made fr →
      Made (fr.mallocPayloadIn mem dataSize).2
  /-- `net__read` into the payload, and the position that it or `net__write` leaves. -/
  | readPayload {fr : Frame} {bytes : List Byte} (pos : Nat) : Made fr →
      bytes.length = fr.payloadSize → Made { fr with payload := bytes, pos := pos }
  | build {fr fr' : Frame} {now : Timestamp} {s : Status} : Made fr →
      fr.build now = some (s, fr') → Made fr'

/-- What holds of all frames that are made by the functions of `lib/frame.c`. -/
structure Sound (fr : Frame) : Prop where
  size : fr.varsSize < 65536
  nodup : fr.varHeaders.keys.Nodup
  keys_ne : ∀ k ∈ fr.varHeaders.keys, k.length ≠ 0
  buffer : fr.payload.length = fr.payloadSize
  opcode : fr.isCompleted = true → fr.opcode ≠ 0

namespace Sound

theorem new : Sound new :=
  ⟨by decide, by simp [Frame.new], by simp [Frame.new], rfl, by simp [Frame.new]⟩

/-- The size of the headers stays a number of 16 bits. -/
theorem set_var_header_size {fr : Frame} (h : fr.varsSize < 65536) {k v : CStr}
    {r : Status × Frame} (hrun : fr.setVarHeader k (some v) = some r) : r.2.varsSize < 65536 := by
  unfold setVarHeader at hrun
  split_ifs at hrun
  · rw [← Option.some.inj hrun]
    exact h
  · simp only [bind, Option.bind_some] at hrun
    cases hfind : fr.varHeaders.find k with
    | none =>
        simp only [hfind] at hrun
        split_ifs at hrun <;> rw [← Option.some.inj hrun] <;> assumption
    | some old =>
        simp only [hfind, Option.bind_eq_some_iff] at hrun
        obtain ⟨old, -, hrun⟩ := hrun
        split_ifs at hrun with hroom <;> rw [← Option.some.inj hrun]
        · exact hroom
        · exact Nat.mod_lt _ (by decide)

/-- Setting headers keeps everything else. -/
theorem set_var_header {fr : Frame} (h : Sound fr) {k v : CStr} {r : Status × Frame}
    (hrun : fr.setVarHeader k (some v) = some r) : Sound r.2 := by
  have hsize := set_var_header_size h.size hrun
  rcases set_var_header_cases hrun with ⟨-, hr⟩ | ⟨hk, hfind, hr⟩ | ⟨_, _, hk, -, -, hr⟩
  · rw [hr]
    exact h
  · rw [hr] at hsize ⊢
    refine ⟨hsize, HashTable.nodup_add h.nodup hfind, fun k' hk' => ?_, h.buffer, h.opcode⟩
    rw [HashTable.keys_add, List.mem_append, List.mem_singleton] at hk'
    rcases hk' with hk' | rfl
    · exact h.keys_ne k' hk'
    · exact hk
  · rw [hr] at hsize ⊢
    exact ⟨hsize, by simpa using h.nodup, by simpa using h.keys_ne, h.buffer, h.opcode⟩

theorem parse_var_header {fr : Frame} (h : Sound fr) {block : List Byte} {r : Status × Frame}
    (hrun : fr.parseVarHeader block = some r) : Sound r.2 := by
  unfold parseVarHeader at hrun
  split_ifs at hrun
  · rw [← Option.some.inj hrun]
    exact h
  · simp only [bind, Option.bind_eq_some_iff] at hrun
    obtain ⟨⟨c, fr'⟩, hloop, hrun⟩ := hrun
    have hcall : ∀ {st st' : Frame} {k v : CStr}, Sound st → k.length ≤ block.length →
        v.length ≤ block.length → st.setParsed k v = some st' → Sound st' := by
      intro st st' k v hst _ _ hset
      obtain ⟨r', hr', rfl⟩ := Option.map_eq_some_iff.mp hset
      exact hst.set_var_header hr'
    have hkeep := parse_loop_keeps hcall _ rfl h hloop
    split_ifs at hrun <;> rw [← Option.some.inj hrun] <;> exact hkeep

theorem set_opcode {fr : Frame} (h : Sound fr) (opcode : Byte) :
    Sound (fr.setOpcode opcode).2 := by
  unfold setOpcode validateOpcode
  split_ifs with hop
  · exact h
  · exact ⟨h.size, h.nodup, h.keys_ne, h.buffer, fun _ => hop⟩

theorem malloc_payload {fr : Frame} (h : Sound fr) (mem : Memory Byte) (dataSize : Nat) :
    Sound (fr.mallocPayloadIn mem dataSize).2 := by
  have hrealloc : ∀ {old buffer : List Byte}, mem.realloc old dataSize = some buffer →
      buffer.length = dataSize := Memory.length_realloc
  unfold mallocPayloadIn
  split_ifs with hzero hsize hsame
  · exact ⟨h.size, h.nodup, h.keys_ne, rfl, h.opcode⟩
  · cases hbuffer : mem.realloc fr.payload dataSize with
    | none => exact ⟨h.size, h.nodup, h.keys_ne, rfl, h.opcode⟩
    | some buffer => exact ⟨h.size, h.nodup, h.keys_ne, hrealloc hbuffer, h.opcode⟩
  · exact ⟨h.size, h.nodup, h.keys_ne, h.buffer.trans (not_not.mp hsame), h.opcode⟩
  · cases hbuffer : mem.realloc [] dataSize with
    | none => exact ⟨h.size, h.nodup, h.keys_ne, rfl, h.opcode⟩
    | some buffer => exact ⟨h.size, h.nodup, h.keys_ne, hrealloc hbuffer, h.opcode⟩

theorem put_payload {fr : Frame} (h : Sound fr) {mem : Memory Byte} {data : List Byte}
    {append : Bool} {r : Status × Frame} (hrun : fr.putPayloadIn mem data append = some r) :
    Sound r.2 := by
  simp only [putPayloadIn] at hrun
  rcases assert_cases hrun with ⟨fr₁, hmalloc, hcopy⟩ | ⟨-, hmalloc⟩
  · have h₁ : Sound fr₁ := by
      have := h.malloc_payload mem
        (if append then (fr.payloadSize + data.length) % 2 ^ 32 else data.length)
      rwa [Option.some.inj hmalloc] at this
    rw [Option.bind_eq_bind, Option.bind_eq_some_iff] at hcopy
    obtain ⟨buffer, hbuffer, hcopy⟩ := hcopy
    rw [← Option.some.inj hcopy]
    exact ⟨h₁.size, h₁.nodup, h₁.keys_ne, (Memory.length_copy hbuffer).trans h₁.buffer, h₁.opcode⟩
  · rw [← Option.some.inj hmalloc]
    exact h.malloc_payload mem _

theorem payload {fr : Frame} (h : Sound fr) {mem : Memory Byte} {call : PayloadCall}
    {r : Status × Frame} (hrun : call.run mem fr = some r) : Sound r.2 := by
  cases call with
  | putPayload data append => exact h.put_payload hrun
  | replacePayload data =>
      rw [← Option.some.inj hrun]
      exact ⟨h.size, h.nodup, h.keys_ne, rfl, h.opcode⟩
  | empty =>
      rw [← Option.some.inj hrun]
      exact Sound.new

theorem build {fr : Frame} (h : Sound fr) {now : Timestamp} {r : Status × Frame}
    (hrun : fr.build now = some r) : Sound r.2 := by
  rcases assert_cases hrun with ⟨fr₁, hset, hbuild⟩ | ⟨-, hset⟩
  · have h₁ : Sound fr₁ := h.set_var_header hset
    unfold validateOpcode at hbuild
    split_ifs at hbuild with hop <;> rw [← Option.some.inj hbuild]
    · exact h₁
    · exact ⟨h₁.size, h₁.nodup, h₁.keys_ne, h₁.buffer, fun _ => hop⟩
  · exact h.set_var_header hset

end Sound

theorem Made.sound {fr : Frame} (h : Made fr) : Sound fr := by
  induction h with
  | new => exact Sound.new
  | setVarHeader _ hrun ih => exact ih.set_var_header hrun
  | parseVarHeader _ hrun ih => exact ih.parse_var_header hrun
  | setOpcode opcode _ ih => exact ih.set_opcode opcode
  | setFlag flag _ ih => exact ⟨ih.size, ih.nodup, ih.keys_ne, ih.buffer, ih.opcode⟩
  | payload _ hrun ih => exact ih.payload hrun
  | mallocPayload mem dataSize _ ih => exact ih.malloc_payload mem dataSize
  | readPayload pos _ hlen ih => exact ⟨ih.size, ih.nodup, ih.keys_ne, hlen, ih.opcode⟩
  | build _ hrun ih => exact ih.build hrun

/-- Reserving and reading a payload. -/
theorem Made.fill {fr : Frame} (h : Made fr) (hsized : Sized fr) {bytes : List Byte} {n : Nat}
    (hn : n ≤ bytes.length) : Made { fr with
      payload := bytes.take n, pos := n, payloadSize := n, dataSize := n } := by
  have hmade := h.mallocPayload ⟨true, fun _ => 0⟩ n
  rcases @malloc_payload_in_cases ⟨true, fun _ => 0⟩ _ hsized n with ⟨new, hrun, -, -⟩ |
    ⟨hrefused, -, -⟩
  · rw [hrun] at hmade
    exact hmade.readPayload n (by rw [List.length_take]; exact Nat.min_eq_left hn)
  · cases hrefused

theorem made_controlled {bytes : List Byte} (hop : (bytes.drop 2).headD 0 ≠ 0) :
    Made (controlled bytes) := by
  have hset : new.setOpcode ((bytes.drop 2).headD 0) =
      (.ok, { new with opcode := (bytes.drop 2).headD 0 }) := by
    rw [setOpcode, validateOpcode, if_neg hop]
  have hmade := (Made.new.setOpcode ((bytes.drop 2).headD 0)).setFlag ((bytes.drop 3).headD 0)
  rw [hset] at hmade
  exact hmade

/-- The frames that `frame__recv` accepts are made by these functions. -/
theorem decode_made {now : Timestamp} {bytes rest : List Byte} {fr : Frame}
    (hrun : decode now bytes = some (.ok, fr, rest)) : Made fr := by
  rw [decode_eq] at hrun
  by_cases hfixed : bytes.length < 8
  · rw [if_pos hfixed] at hrun
    cases hrun
  rw [if_neg hfixed] at hrun
  by_cases hop : (bytes.drop 2).headD 0 = 0
  · rw [if_pos hop] at hrun
    cases hrun
  rw [if_neg hop] at hrun
  unfold decodeHeaders at hrun
  by_cases hblock : (bytes.drop 8).length < Datatype.be16 bytes
  · rw [if_pos hblock] at hrun
    cases hrun
  rw [if_neg hblock, Option.bind_eq_bind, Option.bind_eq_some_iff] at hrun
  obtain ⟨⟨s, fr₁⟩, hparse, hrun⟩ := hrun
  replace hrun := ok_of_guard hrun
  have hframe : fr₁ = _ := parse_frame hparse
  have hsized : Sized fr₁ := by
    rw [hframe]
    exact ⟨rfl, rfl, rfl, Nat.two_pow_pos 32⟩
  have hnone : fr₁.payload = [] := by
    rw [hframe]
    rfl
  unfold decodePayload at hrun
  by_cases hshort : ((bytes.drop 8).drop (Datatype.be16 bytes)).length <
      Datatype.be32 (bytes.drop 4)
  · rw [if_pos hshort] at hrun
    cases hrun
  · have henough := Nat.le_of_not_lt hshort
    rw [if_neg hshort, malloc_fill henough hnone] at hrun
    obtain ⟨⟨s', fr'⟩, hbuild, heq⟩ := Option.map_eq_some_iff.mp hrun
    obtain ⟨-, heq⟩ := Prod.mk.inj heq
    obtain ⟨rfl, -⟩ := Prod.mk.inj heq
    exact ((made_controlled hop).parseVarHeader hparse).fill hsized henough |>.build hbuild

/-- The frame that `frame__copy` makes of another one. -/
def copied (src : Frame) : Frame :=
  { new with
    opcode := src.opcode
    flag := src.flag
    varsSize := src.varsSize
    varHeaders := src.varHeaders
    payload := src.payload
    payloadSize := src.payloadSize
    dataSize := src.payloadSize
    pos := src.payloadSize }

/-- The size of the headers of a frame once its time is set. -/
def timedSize (src : Frame) : Nat :=
  match src.getVarHeader xTime with
  | some (some old) => src.varsSize - old.length % 65536 + 27
  | _ => src.varsSize + 6 + 27 + 5

theorem timedSize_update {src : Frame} {old : CStr} {size n : Nat}
    (hget : src.getVarHeader xTime = some (some old)) (hsize : src.varsSize = size)
    (hlen : old.length % 65536 = n) : timedSize src = size - n + 27 := by
  rw [timedSize, hget]
  dsimp only
  rw [hsize, hlen]

/-- The headers of a frame once its time is set. -/
def timedHeaders (now : Timestamp) (src : Frame) : Headers :=
  match src.getVarHeader xTime with
  | some _ => src.varHeaders.update xTime (some now.text)
  | none => src.varHeaders.add xTime (some now.text)

/-- The frame that `frame__MSG` makes of another one. -/
def messaged (now : Timestamp) (src : Frame) : Frame :=
  { copied src with
    opcode := opMsg
    varsSize := timedSize src
    varHeaders := timedHeaders now src
    isCompleted := true }

/-- A completed frame with values that are not empty, whose `vars_size` is the number of bytes that
`var_header__to_bytes` writes. -/
structure Copyable (src : Frame) : Prop where
  made : Made src
  done : src.isCompleted = true
  values : ∀ e ∈ src.varHeaders, ∃ v, e.2 = some v ∧ v.length ≠ 0
  size : ∃ bytes, toBytes src.varHeaders = some bytes ∧ src.varsSize = bytes.length

/-- The headers of such a frame are a counted table. -/
theorem Copyable.table {src : Frame} (h : Copyable src) :
    ∃ t, Counts src t ∧ WellFormed t := by
  have hsound := h.made.sound
  have hsize := hsound.size
  have hstored := eq_stored (h := src.varHeaders) fun e he => by
    obtain ⟨v, hv, -⟩ := h.values e he
    rw [hv]
    rfl
  generalize (src.varHeaders.map fun e => (e.1, e.2.getD default)) = t at hstored
  have hkeys : HashTable.keys t = src.varHeaders.keys := by rw [hstored, keys_stored]
  obtain ⟨bytes, hbytes, hlen⟩ := h.size
  obtain ⟨bytes', hbytes', hlen'⟩ := to_bytes_length t
  rw [hstored, hbytes'] at hbytes
  obtain rfl := Option.some.inj hbytes
  refine ⟨t, ⟨hstored, hlen.trans hlen', by omega, hkeys ▸ hsound.nodup⟩, hkeys ▸ hsound.nodup,
    fun hk => hsound.keys_ne _ (hkeys ▸ hk), fun {k v} hmem => ?_⟩
  obtain ⟨v', hv', hne⟩ := h.values (k, some v) (by
    rw [hstored]
    exact List.mem_map_of_mem (f := fun e : CStr × CStr => (e.1, some e.2)) hmem)
  rwa [← Option.some.inj hv'] at hne

/-- Setting the time makes the headers these, of this size. -/
theorem timed_put (now : Timestamp) {src : Frame} {t : Table} (h : Counts src t) :
    stored (put t xTime now.text) = timedHeaders now src ∧
      writtenSize (put t xTime now.text) = timedSize src := by
  have hget : src.getVarHeader xTime = (t.find xTime).map some := by
    rw [getVarHeader, h.headers, find_stored]
  unfold timedHeaders timedSize
  rw [hget]
  cases hfind : t.find xTime with
  | none =>
      have hnew : xTime ∉ t.keys := HashTable.find_eq_none_iff.mp hfind
      refine ⟨?_, ?_⟩
      · rw [put_of_not_mem _ hnew, ← stored_add, ← h.headers]
        rfl
      · rw [writtenSize_put_new hnew, xTime_length, now.length_eq, h.size]
        rfl
  | some old =>
      have hmem := HashTable.mem_keys_of_mem (HashTable.mem_of_find hfind)
      refine ⟨?_, ?_⟩
      · rw [put_of_mem _ hmem, ← stored_update, ← h.headers]
        rfl
      · rw [(writtenSize_put_old h.nodup hfind _).2, now.length_eq, h.size]
        rfl

/-- Copying headers appends them as long as the result fits. -/
theorem set_var_headers_counts {u : Table} : ∀ {fr : Frame} {t : Table}, Counts fr t →
    WellFormed (t ++ u) → writtenSize (t ++ u) ≤ 65535 →
    fr.setVarHeaders (stored u) = some (.ok, { fr with
      varsSize := writtenSize (t ++ u), varHeaders := stored (t ++ u) }) := by
  induction u with
  | nil =>
      intro fr t h _ _
      rw [List.append_nil, ← h.headers, ← h.size]
      rfl
  | cons e u ih =>
      intro fr t h hwf hfits
      have hput := put_next hwf
      rw [List.append_cons] at hwf hfits ⊢
      have hk : e.1.length ≠ 0 := hwf.keys_ne (by simp [HashTable.keys])
      have hv : e.2.length ≠ 0 := hwf.values_ne (k := e.1) (by simp)
      -- the headers up to this one are not larger than all of them
      have hfitsE : writtenSize (put t e.1 e.2) ≤ 65535 := by
        rw [hput]
        refine Nat.le_trans ?_ hfits
        unfold writtenSize
        simp only [List.map_append, List.sum_append]
        exact Nat.le_add_right _ _
      obtain ⟨fr₁, hset, hfr₁⟩ := set_var_header_counts h hk hv
      rw [if_pos hfitsE] at hset
      have hcounts := h.set hv hset
      rw [stored_cons, setVarHeaders, hset, assert_ok]
      rw [hput] at hcounts
      rw [ih hcounts hwf hfits, hfr₁ hfitsE]

theorem copy_fits {src : Frame} (h : Copyable src) : copy src = some (.ok, copied src) := by
  obtain ⟨t, hcounts, hwf⟩ := h.table
  have hsound := h.made.sound
  have hnew : Counts { new with opcode := src.opcode, flag := src.flag } [] :=
    ⟨rfl, rfl, by decide, by simp⟩
  have hset := set_var_headers_counts hnew hwf hcounts.fits
  rw [List.nil_append] at hset
  rw [copy, if_pos h.done, copyHeader,
    set_frame_control_eq new src.flag (hsound.opcode h.done), assert_ok, copyVarHeaders,
    hcounts.headers, hset, assert_ok, put_payload_eq]
  simp only [copied, new, hsound.buffer, ← hcounts.headers, ← hcounts.size]

/-- The time is set in a copy exactly when there is room for it. -/
theorem msg_counts {src : Frame} (h : Copyable src) (now : Timestamp) :
    ∃ fr, msg now src = some (if timedSize src ≤ 65535 then .ok else .maxVarHeaders, fr) ∧
      (timedSize src ≤ 65535 → fr = messaged now src) := by
  obtain ⟨t, hcounts, -⟩ := h.table
  obtain ⟨hheaders, hsize⟩ := timed_put now hcounts
  have hcopied : Counts { copied src with opcode := opMsg } t :=
    ⟨hcounts.headers, hcounts.size, hcounts.fits, hcounts.nodup⟩
  obtain ⟨fr, hset, hfr⟩ := set_var_header_counts hcopied (k := xTime) (v := now.text)
    (by rw [xTime_length]; decide) (Timestamp.length_ne now)
  have hopcode : (copied src).setOpcode opMsg = (.ok, { copied src with opcode := opMsg }) := rfl
  rw [hsize] at hset hfr
  rw [msg, copy_fits h, assert_ok, hopcode, assert_ok, build, hset]
  by_cases hroom : timedSize src ≤ 65535
  · refine ⟨messaged now src, ?_, fun _ => rfl⟩
    rw [if_pos hroom, assert_ok, hfr hroom, hheaders]
    rfl
  · refine ⟨fr, ?_, fun hle => absurd hle hroom⟩
    rw [if_neg hroom, assert_fail _ _ (by decide)]

/-- There is room for the time where `frame__build` has put one. -/
theorem timed_size_built {src : Frame} (h : Copyable src) {old : Timestamp}
    (htime : src.getVarHeader xTime = some (some old.text)) : timedSize src ≤ 65535 := by
  obtain ⟨t, hcounts, -⟩ := h.table
  have hsize := hcounts.size
  have hfits := hcounts.fits
  rw [getVarHeader, hcounts.headers, find_stored] at htime
  obtain ⟨w, hfind, hw⟩ := Option.map_eq_some_iff.mp htime
  obtain rfl := Option.some.inj hw
  obtain ⟨hle, hput⟩ := writtenSize_put_old hcounts.nodup hfind old.text
  rw [← (timed_put old hcounts).2, hput]
  omega

section Store

variable {ι : Type} [DecidableEq ι] {frames : Frames ι} {dst src : ι}

theorem assert_return {α : Type} (x : Exec (Status × α)) :
    assertOk x (fun a => some (.ok, a)) = x := by
  cases x with
  | none => rfl
  | some r =>
      obtain ⟨s, a⟩ := r
      by_cases hs : s = .ok
      · rw [hs, assert_ok]
      · rw [assert_fail _ _ hs]

/-- Calls that change one frame are one call. -/
theorem assert_on {call next : Frame → Exec (Status × Frame)}
    {rest : Frames ι → Exec (Status × Frames ι)}
    (hrest : ∀ fr, rest (Function.update frames dst fr) =
      on (Function.update frames dst fr) dst next) :
    assertOk (on frames dst call) rest = on frames dst fun fr => assertOk (call fr) next := by
  unfold on
  dsimp only
  cases hcall : call (frames dst) with
  | none => rfl
  | some r =>
      obtain ⟨s, fr⟩ := r
      by_cases hs : s = .ok
      · subst hs
        show rest (Function.update frames dst fr) = (next fr).map _
        rw [hrest, on, Function.update_self]
        simp only [Function.update_idem]
      · rw [Option.map_some, assert_fail _ _ hs, assert_fail _ _ hs]
        rfl

theorem copy_loop_eq (headers : Headers) : ∀ frames : Frames ι,
    copyLoop dst headers frames = on frames dst fun fr => fr.setVarHeaders headers := by
  induction headers with
  | nil =>
      intro frames
      show some (Status.ok, frames) = some (Status.ok, Function.update frames dst (frames dst))
      rw [Function.update_eq_self]
  | cons e headers ih => exact fun frames => assert_on fun fr => ih _

/-- The copy of another frame is the frame that `copy` computes, whatever stood in its place. -/
theorem copy_at_eq (hne : dst ≠ src) (hdone : (frames src).isCompleted = true)
    (hbuffer : (frames src).payload.length = (frames src).payloadSize) (now : Timestamp) :
    copyAt now frames dst src false = on frames dst fun _ => copy (frames src) := by
  have hsrc : ∀ fr, Function.update frames dst fr src = frames src := fun fr =>
    Function.update_of_ne hne.symm fr frames
  have hpayload : (frames src).payload.take (frames src).payloadSize = (frames src).payload :=
    List.take_of_length_le hbuffer.le
  have hheader : ∀ fr, copyHeaderAt (Function.update frames dst fr) dst src =
      on (Function.update frames dst fr) dst fun fr => fr.copyHeader (frames src) := by
    intro fr
    unfold copyHeaderAt copyHeader copyVarHeaders
    rw [hsrc]
    refine assert_on fun fr' => ?_
    rw [Function.update_idem, hsrc, copy_loop_eq]
  unfold copyAt copy
  rw [if_pos hdone, if_pos hdone]
  refine @assert_on _ _ _ _ (fun _ => some (.ok, new)) (fun fr =>
    assertOk (fr.copyHeader (frames src)) fun fr => some (fr.putPayload (frames src).payload))
    _ fun fr => ?_
  rw [hheader]
  refine assert_on fun fr' => ?_
  rw [Function.update_idem, hsrc, hpayload]
  have hstay : ∀ fr, (some (Status.ok, Function.update frames dst fr) : Exec _) =
      on (Function.update frames dst fr) dst fun fr => some (.ok, fr) := by
    intro fr
    rw [on, Function.update_self, Option.map_some, Function.update_idem]
  refine (@assert_on _ _ _ _ _ (fun fr => some (.ok, fr)) _ fun fr'' => ?_).trans ?_
  · rw [Function.update_idem]
    exact hstay fr''
  · exact congrArg (on _ dst) (funext fun fr => assert_return _)

/-- The message of another frame is the frame that `msg` computes, whatever stood in its place. -/
theorem msg_at_eq (hne : dst ≠ src) (hdone : (frames src).isCompleted = true)
    (hbuffer : (frames src).payload.length = (frames src).payloadSize) (now : Timestamp) :
    msgAt now frames dst src = on frames dst fun _ => msg now (frames src) := by
  unfold msgAt msg
  rw [copy_at_eq hne hdone hbuffer]
  exact assert_on fun fr => assert_on fun fr' => rfl

end Store

/-- A frame that was built and nothing else. -/
def built : Frame :=
  { new.withHeaders [(xTime, newYear.text)] with opcode := opPub, isCompleted := true }

theorem made_built : Made built := by
  have hcarries : Carries { new with opcode := opPub } [] := ⟨rfl, rfl, by decide, WellFormed.nil⟩
  exact @Made.build _ _ newYear _ (.setOpcode opPub .new)
    (build_fits hcarries newYear (show opPub ≠ 0 by decide) (by decide))

theorem copyable_built : Copyable built where
  made := made_built
  done := rfl
  values e he := by
    obtain rfl := List.mem_singleton.mp he
    exact ⟨newYear.text, rfl, by decide⟩
  size := ⟨_, rfl, by decide⟩

/-- Two frames in memory: the second is this one and the first is unused. -/
def beside (src : Frame) : Frames Bool := fun p => if p then src else new

/-- The headers of a frame without room, whose time was made shorter before. -/
def fullTable : Table := [(xTime, .ofString "0"), (.ofString "k", letters 65517)]

/-- A completed frame whose headers have 65535 bytes. -/
def full : Frame := { new.withHeaders fullTable with opcode := opPub, isCompleted := true }

theorem encSize_letters (k v k' : CStr) (n : Nat) :
    encSize [(k, v), (k', letters n)] = k.length + v.length + 5 + (k'.length + n + 5) := by
  rw [encSize_cons, encSize_cons, encSize_nil, length_letters]

theorem encSize_fullTable : encSize fullTable = 65535 :=
  (encSize_letters _ _ _ _).trans (by decide)

theorem wellFormed_fullTable : WellFormed fullTable where
  nodup := by decide
  keys_ne {k} hk := by
    simp only [fullTable, HashTable.keys, List.map_cons, List.map_nil, List.mem_cons,
      List.not_mem_nil, or_false] at hk
    rcases hk with rfl | rfl <;> decide
  values_ne {k v} hmem := by
    simp only [fullTable, List.mem_cons, Prod.mk.injEq, List.not_mem_nil, or_false] at hmem
    rcases hmem with ⟨-, rfl⟩ | ⟨-, rfl⟩
    · decide
    · rw [length_letters]
      decide

theorem wellFormed_single {k v : CStr} (hk : k.length ≠ 0) (hv : v.length ≠ 0) :
    WellFormed [(k, v)] := by
  have h := WellFormed.nil.put hk hv
  rwa [put_of_not_mem v (by simp)] at h

/-- The frame was built, its time was cut and a header was set. -/
theorem made_full : Made full := by
  have hbuilt : Carries built [(xTime, newYear.text)] :=
    ⟨rfl, rfl, by decide, wellFormed_single (by decide) (by decide)⟩
  have hcut := set_var_header_fits hbuilt (k := xTime) (v := .ofString "0") (by decide) (by decide)
    (by decide)
  rw [show put [(xTime, newYear.text)] xTime (.ofString "0") = [(xTime, .ofString "0")] by decide]
    at hcut
  have hshort : Carries (built.withHeaders [(xTime, .ofString "0")]) [(xTime, .ofString "0")] :=
    ⟨rfl, rfl, by decide, wellFormed_single (by decide) (by decide)⟩
  have hput : put [(xTime, .ofString "0")] (.ofString "k") (letters 65517) = fullTable :=
    put_of_not_mem _ (by decide)
  have hset := set_var_header_fits hshort (k := .ofString "k") (v := letters 65517) (by decide)
    (by rw [length_letters]; decide) (by rw [hput, encSize_fullTable])
  rw [hput] at hset
  exact .setVarHeader (.setVarHeader made_built hcut) hset

theorem counts_full : Counts full fullTable := by
  have hwritten : writtenSize fullTable = encSize fullTable := by
    rw [writtenSize_eq_iff]
    intro e he
    rcases List.mem_cons.mp he with rfl | he
    · decide
    · obtain rfl := List.mem_singleton.mp he
      exact ⟨by decide, by rw [length_letters]; decide⟩
  exact ⟨rfl, hwritten.symm, by rw [hwritten, encSize_fullTable], wellFormed_fullTable.nodup⟩

theorem copyable_full : Copyable full where
  made := made_full
  done := rfl
  values e he := by
    obtain ⟨e', he', rfl⟩ := List.mem_map.mp he
    exact ⟨e'.2, rfl, wellFormed_fullTable.values_ne (k := e'.1) he'⟩
  size := by
    obtain ⟨bytes, hbytes, hlen⟩ := to_bytes_length fullTable
    exact ⟨bytes, hbytes, by rw [counts_full.size, hlen]⟩

end Bpsp.Frame
