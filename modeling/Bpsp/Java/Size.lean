import Bpsp.Java.Frame

/-!
# The size of the headers of a Java frame

`setVarHeader` counts characters, and counts a header even when `putIfAbsent` leaves the map as it
is, while `toBytes` compares the count with the number of bytes of the text. So the count is right
after every call exactly when every call sets a new key and all texts are of characters that take one
byte (`header_sizes_iff`). A frame of the broker has its time already, and `build` counts it a second
time (`read_from_broker`).
-/

namespace Bpsp.Java

open CLib JLib Bpsp.Frame

/-- The number of bytes of one header. -/
def VarHeader.textSize (h : VarHeader) : Nat := (utf8 h.key).length + (utf8 h.value).length + 5

/-- The number of bytes of the headers. -/
def textSize (m : VarHeaders) : Nat := (m.map fun e => e.2.textSize).sum

section Text

/-- The quotes of a header keep its parts apart. -/
theorem length_utf8_toStr (h : VarHeader) (rest : JString) :
    (utf8 (h.toStr ++ rest)).length = h.textSize + (utf8 rest).length := by
  have hquote : (34 : UInt16).toNat < 0x80 := by decide
  have hsemicolon : (59 : UInt16).toNat < 0x80 := by decide
  have htext : h.toStr ++ rest = 34 :: (h.key ++ 34 :: 34 :: (h.value ++ 34 :: 59 :: rest)) := by
    simp [VarHeader.toStr]
  rw [htext, utf8_cons hquote, utf8_append _ hquote, utf8_cons hquote, utf8_cons hquote,
    utf8_append _ hquote, utf8_cons hquote, utf8_cons hsemicolon]
  simp only [List.length_cons, List.length_append, VarHeader.textSize]
  omega

theorem length_utf8_values (hs : List VarHeader) :
    (utf8 (hs.flatMap VarHeader.toStr)).length = (hs.map VarHeader.textSize).sum := by
  induction hs with
  | nil => rfl
  | cons h hs ih => rw [List.flatMap_cons, length_utf8_toStr, ih, List.map_cons, List.sum_cons]

/-- The text has this many bytes in whatever order the headers are passed. -/
theorem length_text (order : HashMap.Iteration JString VarHeader) (m : VarHeaders) :
    (utf8 (toStr order m)).length = textSize m := by
  unfold toStr textSize
  rw [length_utf8_values, ((order.perm m).map VarHeader.textSize).sum_eq, List.map_map]
  rfl

theorem textSize_add (m : VarHeaders) (k : JString) (h : VarHeader) :
    textSize (m.add k h) = textSize m + h.textSize := by simp [textSize, HashTable.add]

end Text

/-- A call that changes the headers of a frame. -/
inductive HeaderCall where
  | setVarHeader (key value : JString)
  | build (now : Instant)

namespace HeaderCall

/-- What a call does to a frame. -/
def run (frame : Frame) : HeaderCall → Frame
  | .setVarHeader key value => frame.setVarHeader key value
  | .build now => frame.build now

/-- After the call the count is the number of bytes of the text, which can be made, and the header
that was set has the value it was set to. -/
structure Meets (order : HashMap.Iteration JString VarHeader) (frame : Frame) (call : HeaderCall) :
    Prop where
  size : (call.run frame).varHeaderSize = (utf8 (toStr order (call.run frame).varHeaders)).length
  bytes : (toBytes order (call.run frame).varHeaders (call.run frame).varHeaderSize).isSome
  value : ∀ key value, call = .setVarHeader key value →
    ((call.run frame).getVarHeader key).map VarHeader.value = some value

/-- The header is new and its characters take one byte each, and there is room for it in an `int`. -/
def Adds (frame : Frame) (key value : JString) : Prop :=
  key ∉ frame.varHeaders.keys ∧ (utf8 key).length = key.length ∧
    (utf8 value).length = value.length ∧
    frame.varHeaderSize + (key.length + value.length + 5 : Nat) < 2 ^ 31

/-- The call adds a header, or sets one to the value that it has and counts a multiple of `2 ^ 32`. -/
def Fits (frame : Frame) : HeaderCall → Prop
  | .setVarHeader key value => Adds frame key value ∨
      ((frame.getVarHeader key).map VarHeader.value = some value ∧
        (key.length + value.length + 5) % 2 ^ 32 = 0)
  | .build now => Adds frame xTimeKey (ascii now.text.bytes)

end HeaderCall

/-- The count of a frame is the number of bytes of its text. -/
structure Counted (frame : Frame) : Prop where
  nodup : frame.varHeaders.keys.Nodup
  size : frame.varHeaderSize = textSize frame.varHeaders
  range : frame.varHeaderSize < 2 ^ 31

theorem counted_newFrame (operation : Operation) : Counted (Frame.newFrame operation) :=
  ⟨by simp [Frame.newFrame], rfl, by simp [Frame.newFrame]⟩

section Calls

variable {order : HashMap.Iteration JString VarHeader} {frame : Frame}

theorem to_bytes_isSome_iff (m : VarHeaders) (size : Int) :
    (toBytes order m size).isSome ↔ size = textSize m := by
  unfold toBytes
  dsimp only
  rw [length_text]
  by_cases h : (textSize m : Int) = size
  · simp [h]
  · simp [h, Ne.symm h]

/-- A new header is counted right exactly when its characters take one byte each. -/
theorem set_new_iff (h : Counted frame) {key value : JString} (hnew : key ∉ frame.varHeaders.keys) :
    (frame.setVarHeader key value).varHeaderSize =
        textSize (frame.setVarHeader key value).varHeaders ↔
      HeaderCall.Adds frame key value := by
  have hmap : (frame.setVarHeader key value).varHeaders = frame.varHeaders.add key ⟨key, value⟩ :=
    if_neg hnew
  have hsize : (frame.setVarHeader key value).varHeaderSize =
      toInt (textSize frame.varHeaders + (key.length + value.length + 5 : Nat)) := by
    unfold Frame.setVarHeader
    rw [h.size]
  have hkey := le_length_utf8 key
  have hvalue := le_length_utf8 value
  obtain ⟨⟨c, hc⟩, hlow, hhigh⟩ :=
    toInt_range (textSize frame.varHeaders + (key.length + value.length + 5 : Nat))
  rw [hmap, hsize, textSize_add]
  unfold HeaderCall.Adds VarHeader.textSize
  rw [h.size]
  dsimp only
  constructor
  · intro heq
    refine ⟨hnew, ?_, ?_, ?_⟩ <;> omega
  · rintro ⟨-, hk, hv, hroom⟩
    omega

/-- A header that is there is counted right only when nothing is counted. -/
theorem set_old_iff (h : Counted frame) {key value : JString}
    (hold : key ∈ frame.varHeaders.keys) :
    (frame.setVarHeader key value).varHeaderSize =
        textSize (frame.setVarHeader key value).varHeaders ↔
      (key.length + value.length + 5) % 2 ^ 32 = 0 := by
  have hmap : (frame.setVarHeader key value).varHeaders = frame.varHeaders := if_pos hold
  have hsize : (frame.setVarHeader key value).varHeaderSize =
      toInt (frame.varHeaderSize + (key.length + value.length + 5 : Nat)) := rfl
  have hrange := h.range
  obtain ⟨⟨c, hc⟩, hlow, hhigh⟩ :=
    toInt_range (frame.varHeaderSize + (key.length + value.length + 5 : Nat))
  rw [hmap, hsize, ← h.size]
  have hcount := h.size
  constructor <;> intro heq <;> omega

/-- The value of a header after it was set: the new one when it was not there. -/
theorem get_set (frame : Frame) (key value : JString) :
    (frame.setVarHeader key value).getVarHeader key =
      if key ∈ frame.varHeaders.keys then frame.getVarHeader key else some ⟨key, value⟩ := by
  unfold Frame.setVarHeader Frame.getVarHeader HashMap.putIfAbsent
  dsimp only
  split_ifs
  · rfl
  · exact HashTable.find_add_self _ _ _

theorem length_time (now : Instant) :
    31 ≤ xTimeKey.length + (ascii now.text.bytes).length + 5 ∧
      xTimeKey.length + (ascii now.text.bytes).length + 5 ≤ 41 := by
  have hkey : xTimeKey.length = 6 := by decide
  have hmem := now.length_mem
  simp only [List.mem_cons, List.not_mem_nil, or_false, CStr.length] at hmem
  rw [hkey, length_ascii]
  omega

/-- A call does what is asked of it exactly when it fits. -/
theorem header_call_iff (h : Counted frame) (call : HeaderCall) :
    call.Meets order frame ↔ call.Fits frame := by
  have hmeets : call.Meets order frame ↔
      (call.run frame).varHeaderSize = textSize (call.run frame).varHeaders ∧
        ∀ key value, call = .setVarHeader key value →
          ((call.run frame).getVarHeader key).map VarHeader.value = some value := by
    constructor
    · intro hcall
      exact ⟨by rw [hcall.size, length_text], hcall.value⟩
    · rintro ⟨hsize, hvalue⟩
      exact ⟨by rw [hsize, length_text], (to_bytes_isSome_iff _ _).mpr hsize, hvalue⟩
  rw [hmeets]
  cases call with
  | setVarHeader key value =>
      by_cases hold : key ∈ frame.varHeaders.keys
      · have hvalue : (∀ k v, HeaderCall.setVarHeader key value = .setVarHeader k v →
            (((HeaderCall.setVarHeader key value).run frame).getVarHeader k).map VarHeader.value =
              some v) ↔ (frame.getVarHeader key).map VarHeader.value = some value := by
          have hget := get_set frame key value
          rw [if_pos hold] at hget
          constructor
          · intro hall
            rw [← hget]
            exact hall key value rfl
          · rintro hv k v ⟨rfl, rfl⟩
            exact (congrArg _ hget).trans hv
        rw [hvalue]
        refine (and_congr_left' (set_old_iff h hold)).trans ?_
        constructor
        · exact fun hfits => .inr hfits.symm
        · rintro (⟨hnew, -⟩ | hfits)
          · exact absurd hold hnew
          · exact hfits.symm
      · have hvalue : ∀ k v, HeaderCall.setVarHeader key value = .setVarHeader k v →
            (((HeaderCall.setVarHeader key value).run frame).getVarHeader k).map VarHeader.value =
              some v := by
          rintro k v ⟨rfl, rfl⟩
          have hget := get_set frame key value
          rw [if_neg hold] at hget
          exact congrArg (Option.map VarHeader.value) hget
        refine (and_iff_left hvalue).trans ((set_new_iff h hold).trans ?_)
        constructor
        · exact .inl
        · rintro (hfits | ⟨hsome, -⟩)
          · exact hfits
          · rw [Frame.getVarHeader, HashTable.find_eq_none_iff.mpr hold] at hsome
            cases hsome
  | build now =>
      refine (and_iff_left fun key value heq => by cases heq).trans ?_
      show (frame.setVarHeader xTimeKey (ascii now.text.bytes)).varHeaderSize =
        textSize (frame.setVarHeader xTimeKey (ascii now.text.bytes)).varHeaders ↔ _
      by_cases hold : xTimeKey ∈ frame.varHeaders.keys
      · refine (set_old_iff h hold).trans (iff_of_false ?_ fun hfits => hfits.1 hold)
        have hlen := length_time now
        omega
      · exact set_new_iff h hold

/-- After a call that fits the count is right again. -/
theorem HeaderCall.Fits.counted {call : HeaderCall} (hfits : call.Fits frame) (h : Counted frame) :
    Counted (call.run frame) := by
  have hsize := ((@header_call_iff ⟨fun m => m.map Prod.snd, fun _ => .refl _⟩ _ h
    call).mpr hfits).size
  rw [length_text] at hsize
  have hset : ∀ key value, (frame.setVarHeader key value).varHeaders.keys.Nodup ∧
      (frame.setVarHeader key value).varHeaderSize < 2 ^ 31 := by
    intro key value
    refine ⟨?_, (toInt_range _).2.2⟩
    unfold Frame.setVarHeader HashMap.putIfAbsent
    dsimp only
    split_ifs with hold
    · exact h.nodup
    · exact HashTable.nodup_add h.nodup (HashTable.find_eq_none_iff.mpr hold)
  cases call with
  | setVarHeader key value => exact ⟨(hset key value).1, hsize, (hset key value).2⟩
  | build now => exact ⟨(hset _ _).1, hsize, (hset xTimeKey _).2⟩

end Calls

/-- Every call of a sequence does what is asked of it, at the frame that it is made on. -/
def AllMeet (order : HashMap.Iteration JString VarHeader) : Frame → List HeaderCall → Prop
  | _, [] => True
  | frame, call :: calls => call.Meets order frame ∧ AllMeet order (call.run frame) calls

/-- Every call of a sequence fits the frame that it is made on. -/
def AllFit : Frame → List HeaderCall → Prop
  | _, [] => True
  | frame, call :: calls => call.Fits frame ∧ AllFit (call.run frame) calls

theorem header_calls_iff (order : HashMap.Iteration JString VarHeader) (calls : List HeaderCall) :
    ∀ {frame : Frame}, Counted frame → (AllMeet order frame calls ↔ AllFit frame calls) := by
  induction calls with
  | nil => exact fun _ => Iff.rfl
  | cons call calls ih =>
      intro frame h
      refine (and_congr_left' (header_call_iff h call)).trans (and_congr_right fun hfits => ?_)
      exact ih (hfits.counted h)

/-- A new frame, or a frame that was read, before `build`, from headers whose text has as many bytes
as were read. -/
def Starts (charset : List Byte → JString) (frame : Frame) : Prop :=
  (∃ operation, frame = Frame.newFrame operation) ∨
    ∃ opcode flag block data, Frame.ofParts charset opcode flag block data = some frame ∧
      block.length < 65536 ∧ textSize frame.varHeaders = block.length

/-- Reading puts headers with distinct keys. -/
theorem from_string_loop_nodup {text : JString} (fuel : Nat) : ∀ {c c' : Cursor}
    {m m' : VarHeaders}, m.keys.Nodup → fromStringLoop text fuel c m = some (c', m') →
    m'.keys.Nodup := by
  induction fuel with
  | zero =>
      intro c c' m m' _ hrun
      cases hrun
  | succ fuel ih =>
      intro c c' m m' h hrun
      unfold fromStringLoop at hrun
      split_ifs at hrun
      · exact ih h hrun
      · exact ih h hrun
      · exact ih h hrun
      · exact ih h hrun
      · simp only [bind, Option.bind_eq_some_iff] at hrun
        obtain ⟨key, -, value, -, hrun⟩ := hrun
        exact ih (HashMap.nodup_put h _ _) hrun
      · rw [← (Prod.mk.inj (Option.some.inj hrun)).2]
        exact h

theorem from_string_nodup {text : JString} {m : VarHeaders} (hrun : fromString text = some m) :
    m.keys.Nodup := by
  unfold fromString at hrun
  split_ifs at hrun
  · rw [← Option.some.inj hrun]
    simp
  · simp only [bind, Option.bind_eq_some_iff] at hrun
    obtain ⟨⟨c, m'⟩, hloop, hrun⟩ := hrun
    split_ifs at hrun
    rw [← Option.some.inj hrun]
    exact from_string_loop_nodup _ (by simp) hloop

theorem Starts.counted {charset : List Byte → JString} {frame : Frame} (h : Starts charset frame) :
    Counted frame := by
  rcases h with ⟨operation, rfl⟩ | ⟨opcode, flag, block, data, hparts, hlen, htext⟩
  · exact counted_newFrame operation
  · obtain ⟨m, hm, rfl⟩ := Option.map_eq_some_iff.mp hparts
    refine ⟨from_string_nodup hm, congrArg Nat.cast htext.symm, ?_⟩
    show (block.length : Int) < 2 ^ 31
    omega

/-- From a new frame, or from one that was read without changing the size of its headers, every call
leaves a count that is the number of bytes of the text, and sets its header, exactly when every call
adds a new header of characters that take one byte. -/
theorem header_sizes_iff (order : HashMap.Iteration JString VarHeader)
    {charset : List Byte → JString} {frame : Frame} (h : Starts charset frame)
    (calls : List HeaderCall) : AllMeet order frame calls ↔ AllFit frame calls :=
  header_calls_iff order calls h.counted

section Read

variable {t : Table}

/-- The headers of a table of ASCII texts have as many bytes as the table. -/
theorem textSize_widened (hascii : ∀ e ∈ t, Ascii e.1.bytes ∧ Ascii e.2.bytes) :
    textSize (widened t) = encSize t := by
  unfold textSize widened encSize
  rw [List.map_map]
  refine congrArg List.sum (List.map_congr_left fun e he => ?_)
  obtain ⟨hkey, hvalue⟩ := hascii e he
  show (utf8 (ascii e.1.bytes)).length + (utf8 (ascii e.2.bytes)).length + 5 = _
  rw [utf8_ascii hkey, utf8_ascii hvalue]
  rfl

/-- The bytes of a table of ASCII texts are ASCII without NULs. -/
theorem ascii_encode (hfits : encSize t ≤ 65535)
    (hascii : ∀ e ∈ t, Ascii e.1.bytes ∧ Ascii e.2.bytes) :
    Ascii (encode t) ∧ (0 : Byte) ∉ encode t := by
  have hall : ∀ b ∈ encode t, b < 0x80 ∧ b ≠ 0 := by
    intro b hb
    obtain ⟨e, he, hb⟩ := List.mem_flatMap.mp hb
    obtain ⟨hk, hv⟩ := length_of_mem hfits he
    rw [headerBytes_eq hk hv] at hb
    simp only [List.mem_cons, List.mem_append, List.not_mem_nil, or_false] at hb
    rcases hb with rfl | hb | rfl | rfl | hb | rfl | rfl
    · decide
    · exact ⟨(hascii e he).1 b hb, fun h0 => e.1.nul_free (h0 ▸ hb)⟩
    · decide
    · decide
    · exact ⟨(hascii e he).2 b hb, fun h0 => e.2.nul_free (h0 ▸ hb)⟩
    · decide
    · decide
  exact ⟨fun b hb => (hall b hb).1, fun h0 => (hall 0 h0).2 rfl⟩

/-- A table of plain ASCII texts is read back as it was. -/
theorem from_string_encode (hwf : WellFormed t) (hfits : encSize t ≤ 65535)
    (hplain : ∀ e ∈ t, Plain e.1 ∧ Plain e.2)
    (hascii : ∀ e ∈ t, Ascii e.1.bytes ∧ Ascii e.2.bytes) :
    fromString (ascii (encode t)) = some (widened t) := by
  obtain ⟨-, hnul⟩ := ascii_encode hfits hascii
  obtain ⟨hlen, hwrap⟩ := encode_no_wrap hfits
  have hpairs := pairs_encode hfits hplain
  rw [from_string_eq hnul hlen hwrap (by
    rw [hpairs]
    exact fun p hp => hwf.keys_ne (HashTable.mem_keys_of_mem hp)), hpairs, scan_encode hfits hplain,
    if_pos rfl, fill_of_wellFormed (by simpa using hwf), List.nil_append]

/-- The bytes of a plain ASCII table and a payload, after a fixed header that announces them, are
read into a frame with these headers, which is then built. -/
theorem read_from_encoded {charset : List Byte → JString}
    (hcharset : ∀ bytes, Ascii bytes → charset bytes = ascii bytes) (now : Instant)
    {fixed payload rest : List Byte} (hlen : fixed.length = 8)
    (hvars : ∀ rest, Datatype.be16 (fixed ++ rest) = encSize t)
    (hdata : ∀ rest, Datatype.be32 ((fixed ++ rest).drop 4) = payload.length)
    (hpayload : payload.length < 2 ^ 31) (hwf : WellFormed t) (hfits : encSize t ≤ 65535)
    (hplain : ∀ e ∈ t, Plain e.1 ∧ Plain e.2)
    (hascii : ∀ e ∈ t, Ascii e.1.bytes ∧ Ascii e.2.bytes) :
    ∃ start, Starts charset start ∧ start.varHeaders = widened t ∧
      start.opcode = (fixed.drop 2).headD 0 ∧
      Frame.readFrom charset now (fixed ++ (encode t ++ (payload ++ rest))) =
        some (start.build now, rest) := by
  have hbody : (fixed ++ (encode t ++ (payload ++ rest))).drop 8 = encode t ++ (payload ++ rest) := by
    rw [← hlen, List.drop_left]
  have hblock : ((fixed ++ (encode t ++ (payload ++ rest))).drop 8).take (encSize t) = encode t := by
    rw [hbody, ← length_encode hfits, List.take_left]
  have hrest : (fixed ++ (encode t ++ (payload ++ rest))).drop (8 + encSize t + payload.length) =
      rest := by
    rw [Nat.add_assoc, ← List.drop_drop, hbody, ← length_encode hfits, ← List.drop_drop,
      List.drop_left, List.drop_left]
  have hparts : ∀ opcode flag data, Frame.ofParts charset opcode flag (encode t) data =
      some ⟨(encode t).length, opcode, flag, data.bytes.length, widened t, data, false⟩ := by
    intro opcode flag data
    unfold Frame.ofParts
    rw [hcharset _ (ascii_encode hfits hascii).1, from_string_encode hwf hfits hplain hascii]
    rfl
  have henough : 8 + encSize t + payload.length ≤
      (fixed ++ (encode t ++ (payload ++ rest))).length := by
    simp only [List.length_append, length_encode hfits, hlen]
    omega
  have hopcode : ∀ rest, ((fixed ++ rest).drop 2).headD 0 = (fixed.drop 2).headD 0 := by
    intro rest
    obtain ⟨b₀, b₁, b₂, b₃, b₄, b₅, b₆, b₇, more, rfl⟩ := eight_bytes (Nat.le_of_eq hlen.symm)
    rfl
  obtain ⟨flag, data, hread⟩ : ∃ flag data,
      Frame.readFrom charset now (fixed ++ (encode t ++ (payload ++ rest))) =
        (Frame.ofParts charset ((fixed.drop 2).headD 0) flag (encode t) data).map fun frame =>
          (frame.build now, rest) := by
    unfold Frame.readFrom
    simp only [hvars, hdata, hblock, hrest, hopcode]
    rw [dif_pos ⟨henough, hpayload⟩]
    exact ⟨_, _, rfl⟩
  rw [hparts] at hread
  refine ⟨_, .inr ⟨_, _, encode t, _, hparts _ flag data, ?_, ?_⟩, rfl, rfl, hread⟩
  · rw [length_encode hfits]
    omega
  · show textSize (widened t) = _
    rw [textSize_widened hascii, length_encode hfits]

/-- A frame whose headers have a time counts it twice when it is read. -/
theorem read_from_wrong {charset : List Byte → JString} {start : Frame} (h : Starts charset start)
    (htime : xTimeKey ∈ start.varHeaders.keys) (order : HashMap.Iteration JString VarHeader)
    (now : Instant) : (start.build now).varHeaderSize ≠
      (utf8 (toStr order (start.build now).varHeaders)).length := by
  intro hsize
  rw [length_text] at hsize
  have hcount := (@set_old_iff _ h.counted _ (ascii now.text.bytes) htime).mp hsize
  have hlen := length_time now
  omega

/-- What the broker sends: a frame with ASCII headers is read with its opcode, and the size of its
headers is wrong. -/
theorem read_from_broker {charset : List Byte → JString}
    (hcharset : ∀ bytes, Ascii bytes → charset bytes = ascii bytes)
    (order : HashMap.Iteration JString VarHeader) (now : Instant) (big : Bool) (sent : Timestamp)
    (m : Message) (hpayload : m.payload.length < 2 ^ 31)
    (hfits : encSize (put m.headers xTime sent.text) ≤ 65535)
    (hascii : ∀ e ∈ put m.headers xTime sent.text, Ascii e.1.bytes ∧ Ascii e.2.bytes)
    (rest : List Byte) :
    ∃ frame, Frame.readFrom charset now (wire big sent m ++ rest) = some (frame, rest) ∧
      frame.opcode = m.opcode ∧ frame.varHeaderSize ≠ (utf8 (toStr order frame.varHeaders)).length := by
  obtain ⟨hwf, hplain⟩ := timed_headers sent m
  have hsizes := fun rest => @fixed_header_sizes big (completed sent m)
    (Nat.lt_succ_of_le hfits) m.payload_lt rest
  obtain ⟨start, hstart, hheaders, hopcode, hread⟩ := @read_from_encoded _ charset hcharset now _ _ rest
    (length_fixedHeader big (completed sent m)) (fun rest => (hsizes rest).1)
    (fun rest => (hsizes rest).2) hpayload hwf hfits hplain hascii
  refine ⟨_, ?_, ?_, read_from_wrong hstart ?_ order now⟩
  · rw [← hread]
    simp [wire]
  · show start.opcode = m.opcode
    rw [hopcode]
    simp [fixedHeader, Datatype.e16_eq, completed]
  · rw [hheaders]
    exact mem_keys_widened.mpr (mem_keys_put.mpr (.inl rfl))

end Read

/-- A header `k` with this value, and the time. -/
def keyed (value : JString) : List HeaderCall := [.setVarHeader [107] value, .build firstSecond]

/-- A header with an ASCII value. -/
theorem header_sizes_ascii : AllMeet inserted (Frame.newFrame .pub) (keyed [118]) := by
  refine (@header_sizes_iff inserted ascii _ (.inl ⟨.pub, rfl⟩) _).mpr ?_
  have hsize : ((Frame.newFrame .pub).setVarHeader [107] [118]).varHeaderSize = 7 :=
    toInt_of_lt (n := 7) (by decide)
  refine ⟨.inl ⟨by decide, by decide, by decide, by decide⟩, ⟨by decide, by decide +kernel, ?_, ?_⟩,
    trivial⟩
  · rw [utf8_ascii firstSecond.ascii, length_ascii]
  · show ((Frame.newFrame .pub).setVarHeader [107] [118]).varHeaderSize + _ < _
    rw [hsize]
    decide

/-- A header that is set twice, a value with an umlaut, and a frame of the broker. -/
theorem header_sizes_wrong :
    (¬ AllMeet inserted (Frame.newFrame .pub)
      [.setVarHeader [107] [118], .setVarHeader [107] [119]]) ∧
    (¬ AllMeet inserted (Frame.newFrame .pub) (keyed [228])) ∧
    ∃ frame, Frame.readFrom ascii firstSecond (wire false newYear hello) = some (frame, []) ∧
      frame.varHeaderSize ≠ (utf8 (toStr inserted frame.varHeaders)).length := by
  refine ⟨fun hmeet => ?_, fun hmeet => ?_, ?_⟩
  · obtain ⟨-, hagain, -⟩ := (header_calls_iff inserted _ (counted_newFrame .pub)).mp hmeet
    rcases hagain with ⟨hnew, -⟩ | ⟨hvalue, -⟩
    · exact hnew (by decide)
    · exact absurd hvalue (by decide)
  · obtain ⟨hfits, -⟩ := (header_calls_iff inserted _ (counted_newFrame .pub)).mp hmeet
    rcases hfits with ⟨-, -, hvalue, -⟩ | ⟨hvalue, -⟩
    · exact absurd hvalue (by decide)
    · exact absurd hvalue (by decide)
  · have hascii : ∀ e ∈ put hello.headers xTime newYear.text, Ascii e.1.bytes ∧ Ascii e.2.bytes := by
      decide +kernel
    obtain ⟨frame, hread, -, hsize⟩ := @read_from_broker ascii (fun _ _ => rfl) inserted firstSecond
      false newYear hello (by decide) (by decide) hascii []
    rw [List.append_nil] at hread
    exact ⟨frame, hread, hsize⟩

end Bpsp.Java
