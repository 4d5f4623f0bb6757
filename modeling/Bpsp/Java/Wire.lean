import Bpsp.Java.Frame

/-!
# From the Java client to the C receiver

What `Frame.writeTo` emits for a frame that was put together by `setVarHeader`, `putData` and `build`,
and what `frame__recv` makes of it. The two sides have the same format but not the same limits:
`writeShort` cuts the size of the headers to 16 bits without a check, and the receiver sets a time of
27 characters in the place of one that can be shorter. `write_recv_iff` says for which frames the two
agree.
-/

namespace Bpsp.Java

open CLib JLib Net Bpsp.Frame

/-- The texts of headers, as keys and values. -/
abbrev Fields := List (List Byte × List Byte)

/-- The calls that make a frame. -/
structure Calls where
  operation : Operation
  flags : List Flag
  headers : Fields
  data : JLib.ByteArray
  append : Bool
  now : Instant

/-- The frame with its flags and headers. -/
def Calls.headed (c : Calls) : Frame :=
  c.headers.foldl (fun frame h => frame.setVarHeader (ascii h.1) (ascii h.2))
    (c.flags.foldl Frame.setFlag (Frame.newFrame c.operation))

/-- Makes the frame; `none` when a call throws. -/
def Calls.run (c : Calls) : Option Frame :=
  (c.headed.putData c.data c.append).map (Frame.build c.now)

/-- The headers of the calls: distinct keys, and texts that can stand between quotes. -/
structure Calls.Allowed (c : Calls) : Prop where
  distinct : (c.headers.map Prod.fst).Nodup
  ascii : ∀ h ∈ c.headers, Ascii h.1 ∧ Ascii h.2
  nonempty : ∀ h ∈ c.headers, h.1 ≠ [] ∧ h.2 ≠ []
  plain : ∀ h ∈ c.headers, plainFrom quote h.1 = true ∧ plainFrom quote h.2 = true

/-- The length of the text of headers. -/
def fieldSize (hs : Fields) : Nat := (hs.map fun h => h.1.length + h.2.length + 5).sum

/-- The number that the calls count for the headers. -/
def Calls.counted (c : Calls) : Nat := fieldSize (c.headers ++ [(xTime.bytes, c.now.text.bytes)])

/-- The caller sets the time itself. -/
def Calls.setsTime (c : Calls) : Bool := xTime.bytes ∈ c.headers.map Prod.fst

/-- The headers of the frame: the time is set unless it is there. -/
def Calls.fields (c : Calls) : Fields :=
  if c.setsTime then c.headers else c.headers ++ [(xTime.bytes, c.now.text.bytes)]

/-- Headers as a map. -/
def entries (hs : Fields) : VarHeaders := hs.map fun h => (ascii h.1, ⟨ascii h.1, ascii h.2⟩)

/-- The flag that the calls set. -/
def Calls.flag (c : Calls) : Byte := c.flags.foldl (fun flag f => flag ||| f.getValue) 0

section Run

theorem keys_entries (hs : Fields) : (entries hs).keys = (hs.map Prod.fst).map ascii := by
  simp [entries, HashTable.keys]

theorem mem_keys_entries {hs : Fields} {k : List Byte} :
    ascii k ∈ (entries hs).keys ↔ k ∈ hs.map Prod.fst := by
  rw [keys_entries]
  exact List.mem_map_of_injective ascii_injective

theorem putIfAbsent_entries (hs : Fields) (k v : List Byte) :
    HashMap.putIfAbsent (entries hs) (ascii k) ⟨ascii k, ascii v⟩ =
      entries (if k ∈ hs.map Prod.fst then hs else hs ++ [(k, v)]) := by
  unfold HashMap.putIfAbsent
  by_cases hk : k ∈ hs.map Prod.fst
  · rw [if_pos (mem_keys_entries.mpr hk), if_pos hk]
  · rw [if_neg fun h => hk (mem_keys_entries.mp h), if_neg hk]
    simp [entries, HashTable.add]

theorem fieldSize_append (hs hs' : Fields) :
    fieldSize (hs ++ hs') = fieldSize hs + fieldSize hs' := by
  simp [fieldSize]

/-- A new header is added to the map and counted. -/
theorem set_var_header_entries {frame : Frame} {hs : Fields} {n : Nat} (k v : List Byte)
    (hheaders : frame.varHeaders = entries hs) (hsize : frame.varHeaderSize = toInt n) :
    frame.setVarHeader (ascii k) (ascii v) = { frame with
      varHeaders := entries (if k ∈ hs.map Prod.fst then hs else hs ++ [(k, v)])
      varHeaderSize := toInt (n + fieldSize [(k, v)] : Nat) } := by
  unfold Frame.setVarHeader
  rw [hheaders, putIfAbsent_entries, hsize, toInt_add, length_ascii, length_ascii]
  simp [fieldSize]

/-- Headers with new keys are all added and counted. -/
theorem set_all_entries (more : Fields) : ∀ {frame : Frame} {hs : Fields},
    frame.varHeaders = entries hs → frame.varHeaderSize = toInt (fieldSize hs) →
    ((hs ++ more).map Prod.fst).Nodup →
    more.foldl (fun frame h => frame.setVarHeader (ascii h.1) (ascii h.2)) frame = { frame with
      varHeaders := entries (hs ++ more), varHeaderSize := toInt (fieldSize (hs ++ more)) } := by
  induction more with
  | nil =>
      intro frame hs hheaders hsize _
      rw [List.append_nil, ← hheaders, ← hsize]
      rfl
  | cons h more ih =>
      intro frame hs hheaders hsize hnodup
      have hnew : h.1 ∉ hs.map Prod.fst := by
        rw [List.map_append, List.map_cons, List.nodup_append] at hnodup
        exact fun hk => hnodup.2.2 h.1 hk h.1 List.mem_cons_self rfl
      have hset : frame.setVarHeader (ascii h.1) (ascii h.2) = { frame with
          varHeaders := entries (hs ++ [h]), varHeaderSize := toInt (fieldSize (hs ++ [h])) } := by
        rw [set_var_header_entries h.1 h.2 hheaders hsize, if_neg hnew, ← fieldSize_append]
      rw [List.append_cons] at hnodup
      have hrest := @ih { frame with
        varHeaders := entries (hs ++ [h]), varHeaderSize := toInt (fieldSize (hs ++ [h])) }
        (hs ++ [h]) rfl rfl hnodup
      rw [List.foldl_cons, hset, hrest, ← List.append_cons]

theorem set_flags (flags : List Flag) (frame : Frame) :
    flags.foldl Frame.setFlag frame =
      { frame with flag := flags.foldl (fun flag f => flag ||| f.getValue) frame.flag } := by
  induction flags generalizing frame with
  | nil => rfl
  | cons f flags ih => exact ih _

/-- The frame that the calls make. -/
def Calls.made (c : Calls) : Frame where
  varHeaderSize := toInt c.counted
  opcode := c.operation.getCode
  flag := c.flag
  dataSize := c.data.bytes.length
  varHeaders := entries c.fields
  data := if c.append then .empty else c.data
  isCompleted := true

theorem Calls.headed_eq {c : Calls} (hc : c.Allowed) : c.headed =
    ⟨toInt (fieldSize c.headers), c.operation.getCode, c.flag, 0, entries c.headers, .empty, false⟩ := by
  have hzero : (0 : Int) = toInt (fieldSize [] : Nat) := (toInt_of_lt (by decide)).symm
  unfold Calls.headed
  rw [set_flags]
  exact @set_all_entries c.headers _ [] rfl hzero (by simpa using hc.distinct)

/-- The calls return, and make this frame. -/
theorem Calls.run_eq {c : Calls} (hc : c.Allowed) : c.run = some c.made := by
  have hput : c.headed.putData c.data c.append = some { c.headed with
      data := if c.append then .empty else c.data, dataSize := c.data.bytes.length } := by
    rw [Calls.headed_eq hc]
    unfold Frame.putData
    cases c.append with
    | false => rfl
    | true =>
        rw [if_neg (by decide), if_pos]
        · rfl
        · exact c.data.length_lt
  unfold Calls.run
  rw [hput, Option.map_some, Calls.headed_eq hc]
  unfold Frame.build xTimeKey
  have hset := @set_var_header_entries ⟨toInt (fieldSize c.headers), c.operation.getCode, c.flag,
    c.data.bytes.length, entries c.headers, if c.append then .empty else c.data, false⟩ c.headers
    (fieldSize c.headers) xTime.bytes c.now.text.bytes rfl rfl
  rw [hset, ← fieldSize_append]
  unfold Calls.made Calls.fields Calls.setsTime
  simp only [decide_eq_true_eq]
  rfl

end Run

section Text

/-- The bytes of one header. -/
def fieldBytes (h : List Byte × List Byte) : List Byte :=
  quote :: (h.1 ++ quote :: quote :: (h.2 ++ [quote, 59]))

theorem length_fields (hs : Fields) : (hs.flatMap fieldBytes).length = fieldSize hs := by
  induction hs with
  | nil => rfl
  | cons h hs ih =>
      rw [List.flatMap_cons, List.length_append, ih]
      simp [fieldBytes, fieldSize]
      omega

theorem fieldSize_perm {hs hs' : Fields} (h : hs.Perm hs') : fieldSize hs = fieldSize hs' :=
  (h.map _).sum_eq

/-- A header of these texts. -/
def header (h : List Byte × List Byte) : VarHeader := ⟨ascii h.1, ascii h.2⟩

/-- The texts of a header, one byte for each character. -/
def narrowed (h : VarHeader) : List Byte × List Byte :=
  (h.key.map UInt16.toUInt8, h.value.map UInt16.toUInt8)

theorem narrowed_header (h : List Byte × List Byte) : narrowed (header h) = h := by
  have hback : ∀ bytes : List Byte, (ascii bytes).map UInt16.toUInt8 = bytes := by
    intro bytes
    unfold ascii
    rw [List.map_map, show UInt16.toUInt8 ∘ UInt8.toUInt16 = id from funext UInt8.toUInt8_toUInt16]
    exact List.map_id _
  unfold narrowed header
  rw [hback, hback]

theorem values_entries (hs : Fields) : (entries hs).map Prod.snd = hs.map header := by
  unfold entries
  rw [List.map_map]
  rfl

/-- The order in which the headers are passed is an order of their texts. -/
theorem order_texts (order : HashMap.Iteration JString VarHeader) (hs : Fields) :
    ∃ hs' : Fields, hs'.Perm hs ∧ order.values (entries hs) = hs'.map header := by
  have hperm := order.perm (entries hs)
  rw [values_entries] at hperm
  have hall := hperm.map narrowed
  rw [List.map_map, show narrowed ∘ header = id from funext narrowed_header, List.map_id] at hall
  refine ⟨_, hall, ?_⟩
  rw [List.map_map]
  conv_lhs => rw [← List.map_id (order.values (entries hs))]
  refine List.map_congr_left fun x hx => ?_
  obtain ⟨h, -, rfl⟩ := List.mem_map.mp (hperm.mem_iff.mp hx)
  show header h = header (narrowed (header h))
  rw [narrowed_header]

theorem toStr_header (h : List Byte × List Byte) :
    (header h).toStr = ascii (fieldBytes h) := by
  simp [VarHeader.toStr, header, fieldBytes, ascii, quote]

theorem ascii_fields {hs : Fields} (hascii : ∀ h ∈ hs, Ascii h.1 ∧ Ascii h.2) :
    Ascii (hs.flatMap fieldBytes) := by
  intro b hb
  obtain ⟨h, hh, hb⟩ := List.mem_flatMap.mp hb
  obtain ⟨hkey, hvalue⟩ := hascii h hh
  have hall : Ascii (fieldBytes h) :=
    Ascii.append (show Ascii [quote] by decide +kernel)
      (hkey.append (Ascii.append (show Ascii [quote, quote] by decide +kernel)
        (hvalue.append (show Ascii [quote, 59] by decide +kernel))))
  exact hall b hb

/-- The text of ASCII headers, in whatever order they are passed. -/
theorem text_eq (order : HashMap.Iteration JString VarHeader) {hs : Fields}
    (hascii : ∀ h ∈ hs, Ascii h.1 ∧ Ascii h.2) :
    ∃ hs' : Fields, hs'.Perm hs ∧ utf8 (toStr order (entries hs)) = hs'.flatMap fieldBytes := by
  obtain ⟨hs', hperm, hvalues⟩ := order_texts order hs
  refine ⟨hs', hperm, ?_⟩
  have htext : toStr order (entries hs) = ascii (hs'.flatMap fieldBytes) := by
    unfold toStr ascii
    rw [hvalues, List.flatMap_map, List.map_flatMap]
    exact List.flatMap_congr fun h _ => toStr_header h
  rw [htext, utf8_ascii (ascii_fields fun h hh => hascii h (hperm.mem_iff.mp hh))]

end Text

section Emitted

variable {c : Calls} {order : HashMap.Iteration JString VarHeader}

/-- `writeTo` throws after the fixed header: its count of the headers is positive and wrong, because
the caller has set the time itself or because the `int` wrapped. -/
def Calls.Refused (c : Calls) : Prop :=
  0 < toInt c.counted ∧ (c.setsTime = true ∨ 2 ^ 31 ≤ c.counted)

instance (c : Calls) : Decidable c.Refused := inferInstanceAs (Decidable (_ ∧ _))

/-- The receiver can describe the frame: no NUL, and at most 65535 bytes of headers, with the time of
the frame and with one of 27 characters. -/
structure Calls.Fits (c : Calls) : Prop where
  time : c.setsTime = false
  nul_free : ∀ h ∈ c.headers, 0 ∉ h.1 ∧ 0 ∉ h.2
  size : c.counted ≤ 65535
  room : c.counted + 27 ≤ 65535 + c.now.text.length
  data : c.append = false ∨ c.data.bytes = []

theorem Calls.fields_ascii (hc : c.Allowed) : ∀ h ∈ c.fields, Ascii h.1 ∧ Ascii h.2 := by
  intro h hh
  unfold Calls.fields at hh
  split_ifs at hh with htime
  · exact hc.ascii h hh
  · rcases List.mem_append.mp hh with hh | hh
    · exact hc.ascii h hh
    · rw [List.mem_singleton.mp hh]
      exact ⟨show Ascii xTime.bytes by decide +kernel, c.now.ascii⟩

theorem Calls.fields_eq (htime : c.setsTime = false) :
    c.fields = c.headers ++ [(xTime.bytes, c.now.text.bytes)] := if_neg (by rw [htime]; decide)

theorem Calls.key_ne (htime : c.setsTime = false) {h : List Byte × List Byte}
    (hh : h ∈ c.headers) : h.1 ≠ xTime.bytes := by
  intro heq
  simp only [Calls.setsTime, decide_eq_false_iff_not] at htime
  exact htime (heq ▸ List.mem_map_of_mem hh)

theorem Calls.mem_time (htime : c.setsTime = false) {hs : Fields} (hperm : hs.Perm c.fields) :
    (xTime.bytes, c.now.text.bytes) ∈ hs := by
  rw [hperm.mem_iff, Calls.fields_eq htime]
  exact List.mem_append_right _ (List.mem_singleton.mpr rfl)

theorem Calls.fields_distinct (hc : c.Allowed) : (c.fields.map Prod.fst).Nodup := by
  cases htime : c.setsTime with
  | true =>
      rw [show c.fields = c.headers from if_pos htime]
      exact hc.distinct
  | false =>
      rw [Calls.fields_eq htime, List.map_append, List.nodup_append]
      refine ⟨hc.distinct, by simp, fun k hk k' hk' heq => ?_⟩
      obtain ⟨h, hh, rfl⟩ := List.mem_map.mp hk
      rw [List.map_singleton, List.mem_singleton] at hk'
      exact Calls.key_ne htime hh (heq.trans hk')

theorem Calls.counted_eq (c : Calls) :
    c.counted = fieldSize c.headers + (11 + c.now.text.length) := by
  unfold Calls.counted
  rw [fieldSize_append]
  have hkey : xTime.bytes.length = 6 := by decide
  simp only [fieldSize, List.map_cons, List.map_nil, List.sum_cons, List.sum_nil, hkey, CStr.length]
  omega

theorem Instant.length_bounds (now : Instant) :
    20 ≤ now.text.length ∧ now.text.length ≤ 30 := by
  have := now.length_mem
  simp only [List.mem_cons, List.not_mem_nil, or_false] at this
  omega

/-- The headers are refused exactly when their text does not have the length that was counted. -/
theorem Calls.refused_iff (c : Calls) :
    c.Refused ↔ 0 < toInt c.counted ∧ (fieldSize c.fields : Int) ≠ toInt c.counted := by
  unfold Calls.Refused
  refine and_congr_right fun hpos => ?_
  have hcount := c.counted_eq
  obtain ⟨hlow, hhigh⟩ := c.now.length_bounds
  obtain ⟨⟨k, hk⟩, -, hlt⟩ := toInt_range c.counted
  cases htime : c.setsTime with
  | true =>
      have hfields : c.fields = c.headers := if_pos htime
      rw [hfields]
      refine iff_of_true (.inl rfl) ?_
      omega
  | false =>
      have hfields : fieldSize c.fields = c.counted := by
        unfold Calls.fields
        rw [if_neg (by rw [htime]; decide)]
        rfl
      rw [hfields]
      simp only [Bool.false_eq_true, false_or]
      omega

theorem Calls.opcode_ne (c : Calls) : c.made.opcode ≠ 0 := by
  show c.operation.getCode ≠ 0
  cases c.operation <;> decide

theorem Calls.written_data (c : Calls) :
    (if 0 < c.made.dataSize then c.made.data.bytes else []) = c.made.data.bytes := by
  by_cases hpos : 0 < c.made.dataSize
  · rw [if_pos hpos]
  · have hlen : c.data.bytes.length = 0 := by
      have : ¬ (0 : Int) < c.data.bytes.length := hpos
      omega
    rw [if_neg hpos]
    unfold Calls.made
    cases c.append with
    | true => rfl
    | false => exact (List.length_eq_zero_iff.mp hlen).symm

/-- What is written for the frame of the calls. -/
theorem Calls.write_eq (hc : c.Allowed) (order : HashMap.Iteration JString VarHeader) :
    ∃ hs : Fields, hs.Perm c.fields ∧
      utf8 (toStr order c.made.varHeaders) = hs.flatMap fieldBytes ∧
      ((c.made.writeTo order).2 = true ↔ ¬ c.Refused) ∧
      (0 < toInt c.counted → ¬ c.Refused →
        (c.made.writeTo order).1 = c.made.fixedHeader ++ (hs.flatMap fieldBytes ++ c.made.data.bytes)) := by
  obtain ⟨hs, hperm, htext⟩ := text_eq order (Calls.fields_ascii hc)
  have htext' : utf8 (toStr order c.made.varHeaders) = hs.flatMap fieldBytes := htext
  have hheaders : c.made.headerBytes order =
      if c.Refused then none
      else some (if 0 < toInt c.counted then hs.flatMap fieldBytes else []) := by
    unfold Frame.headerBytes toBytes
    rw [htext']
    dsimp only
    rw [length_fields, fieldSize_perm hperm, if_congr (Calls.refused_iff c) rfl rfl,
      show c.made.varHeaderSize = toInt c.counted from rfl]
    by_cases hpos : 0 < toInt c.counted
    · by_cases heq : (fieldSize c.fields : Int) = toInt c.counted
      · simp [hpos, heq]
      · simp [hpos, heq]
    · simp [hpos]
  have hdone : ¬ c.made.isCompleted = false := Bool.noConfusion
  refine ⟨hs, hperm, htext', ?_, fun hpos hnot => ?_⟩
  · unfold Frame.writeTo
    rw [if_neg hdone, hheaders]
    by_cases href : c.Refused
    · simp [href]
    · simp [href]
  · unfold Frame.writeTo
    rw [if_neg hdone, hheaders, if_neg hnot, if_pos hpos]
    dsimp only
    rw [Calls.written_data, List.append_assoc]

end Emitted

/-- The maps agree, but for the value of the time. -/
structure SameButTime (m : VarHeaders) (h : Headers) : Prop where
  others : ∀ k v, k ≠ xTimeKey → ((m.find k).map VarHeader.value = some v ↔
    ∃ key value, h.find key = some (some value) ∧ k = ascii key.bytes ∧ v = ascii value.bytes)
  time : (m.find xTimeKey).isSome ↔ (h.find xTime).isSome

/-- The receiver makes the frame of these bytes, whatever follows them, and takes just these. -/
def ReadBack (frame : Frame) (emitted : List Byte) : Prop :=
  ∀ {kernel : Kernel} (big : Bool) (now : Timestamp) {conn : Conn} {rest : List Byte},
    kernel.Receives → conn.inbox = emitted ++ rest →
    ∃ fr, outcome (recv big kernel now conn) = some (.ok, fr, rest) ∧ fr.opcode = frame.opcode ∧
      fr.flag = frame.flag ∧ fr.payload = frame.data.bytes ∧
      SameButTime frame.varHeaders fr.varHeaders

/-- What is written is read back, and headers that the size field cannot describe are not written. -/
def WritesReadable (order : HashMap.Iteration JString VarHeader) (c : Calls) : Prop :=
  ∃ frame, c.run = some frame ∧
    ((frame.writeTo order).2 = true → ReadBack frame (frame.writeTo order).1) ∧
    (65535 < (utf8 (toStr order frame.varHeaders)).length → (frame.writeTo order).2 = false)

section Receive

variable {c : Calls} {hs : Fields}

/-- Headers as a table of the receiver. -/
def tableOf (hs : Fields) : Table := hs.map fun h => (CStr.ofBytes h.1, CStr.ofBytes h.2)

/-- Texts that can be headers of the receiver. -/
structure Readable (hs : Fields) : Prop where
  distinct : (hs.map Prod.fst).Nodup
  nul_free : ∀ h ∈ hs, (0 : Byte) ∉ h.1 ∧ (0 : Byte) ∉ h.2
  nonempty : ∀ h ∈ hs, h.1 ≠ [] ∧ h.2 ≠ []
  plain : ∀ h ∈ hs, plainFrom quote h.1 = true ∧ plainFrom quote h.2 = true
  fits : fieldSize hs ≤ 65535

theorem Readable.bytes (h : Readable hs) {e : List Byte × List Byte} (he : e ∈ hs) :
    (CStr.ofBytes e.1).bytes = e.1 ∧ (CStr.ofBytes e.2).bytes = e.2 :=
  ⟨CStr.bytes_ofBytes (h.nul_free e he).1, CStr.bytes_ofBytes (h.nul_free e he).2⟩

theorem Readable.encSize_eq (h : Readable hs) : encSize (tableOf hs) = fieldSize hs := by
  unfold encSize tableOf fieldSize
  rw [List.map_map]
  refine congrArg List.sum (List.map_congr_left fun e he => ?_)
  obtain ⟨hk, hv⟩ := h.bytes he
  show (CStr.ofBytes e.1).bytes.length + (CStr.ofBytes e.2).bytes.length + 5 = _
  rw [hk, hv]

theorem Readable.encode_eq (h : Readable hs) : encode (tableOf hs) = hs.flatMap fieldBytes := by
  unfold encode tableOf
  rw [List.flatMap_map]
  refine List.flatMap_congr fun e he => ?_
  obtain ⟨hk, hv⟩ := h.bytes he
  have hsize : encSize (tableOf hs) ≤ 65535 := h.encSize_eq.trans_le h.fits
  obtain ⟨hlenK, hlenV⟩ := length_of_mem hsize (List.mem_map_of_mem he)
  rw [headerBytes_eq hlenK hlenV, hk, hv]
  rfl

theorem Readable.wellFormed (h : Readable hs) : WellFormed (tableOf hs) := by
  have hkeys : (tableOf hs).keys = (hs.map Prod.fst).map CStr.ofBytes := by
    simp [tableOf, HashTable.keys]
  refine ⟨?_, fun {k} hk => ?_, fun {k v} hkv => ?_⟩
  · rw [hkeys]
    refine (List.nodup_map_iff_inj_on h.distinct).mpr fun k hk k' hk' heq => ?_
    obtain ⟨e, he, rfl⟩ := List.mem_map.mp hk
    obtain ⟨e', he', rfl⟩ := List.mem_map.mp hk'
    rw [← (h.bytes he).1, ← (h.bytes he').1, heq]
  · rw [hkeys] at hk
    obtain ⟨k', hk', rfl⟩ := List.mem_map.mp hk
    obtain ⟨e, he, rfl⟩ := List.mem_map.mp hk'
    rw [ne_eq, CStr.length_eq_zero_iff, (h.bytes he).1]
    exact (h.nonempty e he).1
  · obtain ⟨e, he, heq⟩ := List.mem_map.mp hkv
    obtain ⟨-, rfl⟩ := Prod.mk.inj heq
    rw [ne_eq, CStr.length_eq_zero_iff, (h.bytes he).2]
    exact (h.nonempty e he).2

theorem Readable.table_plain (h : Readable hs) :
    ∀ e ∈ tableOf hs, Plain e.1 ∧ Plain e.2 := by
  intro e he
  obtain ⟨e', he', rfl⟩ := List.mem_map.mp he
  unfold Plain
  rw [(h.bytes he').1, (h.bytes he').2]
  exact h.plain e' he'

/-- The headers of the frame are readable when there is no NUL in them. -/
theorem Calls.readable (hc : c.Allowed) (htime : c.setsTime = false)
    (hnul : ∀ h ∈ c.headers, (0 : Byte) ∉ h.1 ∧ (0 : Byte) ∉ h.2) (hsize : c.counted ≤ 65535)
    (hperm : hs.Perm c.fields) : Readable hs := by
  have hfields := Calls.fields_eq htime
  have hall : ∀ {P : List Byte × List Byte → Prop}, (∀ h ∈ c.headers, P h) →
      P (xTime.bytes, c.now.text.bytes) → ∀ h ∈ hs, P h := by
    intro P hheaders hlast h hh
    have hmem := hperm.mem_iff.mp hh
    rw [hfields, List.mem_append, List.mem_singleton] at hmem
    rcases hmem with hmem | rfl
    · exact hheaders h hmem
    · exact hlast
  have htext : c.now.text.bytes ≠ [] := by
    have := c.now.length_bounds.1
    intro h0
    rw [CStr.length, h0] at this
    exact absurd this (by decide)
  refine ⟨?_, hall hnul ⟨xTime.nul_free, c.now.text.nul_free⟩,
    hall hc.nonempty ⟨show xTime.bytes ≠ [] by decide, htext⟩,
    hall hc.plain ⟨show plainFrom quote xTime.bytes = true by decide, c.now.plain⟩, ?_⟩
  · exact (hperm.map Prod.fst).nodup_iff.mpr (Calls.fields_distinct hc)
  · rw [fieldSize_perm hperm, hfields]
    exact hsize

/-- The bytes of a frame with readable headers, as the receiver reads them. -/
theorem decode_written (now : Timestamp) (hr : Readable hs) {frame : Frame}
    (hop : frame.opcode ≠ 0) (hsize : frame.varHeaderSize = (fieldSize hs : Nat))
    (hdata : frame.dataSize = (frame.data.bytes.length : Nat)) (rest : List Byte) :
    decode now (frame.fixedHeader ++ (hs.flatMap fieldBytes ++ frame.data.bytes) ++ rest) =
      ((unbuilt frame.opcode frame.flag (tableOf hs) frame.data.bytes).build now).map fun r =>
        (r.1, r.2, rest) := by
  have hencSize := hr.encSize_eq
  have hfits : encSize (tableOf hs) ≤ 65535 := hencSize.trans_le hr.fits
  have hlen := frame.data.length_lt
  refine (@decode_encoded now _ frame.fixedHeader frame.data.bytes rest (tableOf hs) ?_ rfl ?_ ?_ hop
    hr.wellFormed hfits hr.table_plain)
  · rw [hr.encode_eq, List.append_assoc, List.append_assoc]
  · rw [hencSize, List.append_assoc]
    exact (fixed_fields hsize hr.fits hdata hlen _).1
  · rw [List.append_assoc]
    exact (fixed_fields hsize hr.fits hdata hlen _).2

/-- A header is in the table under its key. -/
theorem Readable.find (hr : Readable hs) {k v : CStr} (hmem : (k.bytes, v.bytes) ∈ hs) :
    (tableOf hs).find k = some v := by
  have hin := List.mem_map_of_mem (f := fun h => (CStr.ofBytes h.1, CStr.ofBytes h.2)) hmem
  have hback : ∀ s : CStr, CStr.ofBytes s.bytes = s :=
    fun s => CStr.ext (CStr.bytes_ofBytes s.nul_free)
  rw [hback, hback] at hin
  exact (HashTable.find_eq_some_iff hr.wellFormed.nodup).mpr hin

theorem Readable.carries (hr : Readable hs) (opcode flag : Byte) (data : List Byte) :
    Carries (unbuilt opcode flag (tableOf hs) data) (tableOf hs) :=
  ⟨rfl, rfl, hr.encSize_eq.trans_le hr.fits, hr.wellFormed⟩

/-- The time that is in a table is replaced by one of 27 characters. -/
theorem Readable.encSize_put (hr : Readable hs) {text : CStr} (hmem : (xTime.bytes, text.bytes) ∈ hs)
    (now : Timestamp) :
    encSize (put (tableOf hs) xTime now.text) + text.length = fieldSize hs + 27 := by
  have hfind := hr.find hmem
  have hupdate := encSize_update (v := now.text) hr.wellFormed.nodup hfind
  rw [put_of_mem _ (HashTable.mem_keys_of_mem (HashTable.mem_of_find hfind))]
  rwa [hr.encSize_eq, now.length_eq] at hupdate

theorem Readable.widened_eq (hr : Readable hs) : widened (tableOf hs) = entries hs := by
  unfold widened tableOf entries
  rw [List.map_map]
  refine List.map_congr_left fun e he => ?_
  show (ascii (CStr.ofBytes e.1).bytes, (⟨ascii (CStr.ofBytes e.1).bytes,
    ascii (CStr.ofBytes e.2).bytes⟩ : VarHeader)) = _
  rw [(hr.bytes he).1, (hr.bytes he).2]

theorem nodup_entries {fs : Fields} (h : (fs.map Prod.fst).Nodup) : (entries fs).keys.Nodup := by
  rw [keys_entries]
  exact h.map ascii_injective

/-- Replacing the time keeps the other headers. -/
theorem same_but_time (hr : Readable hs) {fs : Fields} (hperm : hs.Perm fs)
    (htime : xTime.bytes ∈ hs.map Prod.fst) (now : Timestamp) :
    SameButTime (entries fs) (stored (put (tableOf hs) xTime now.text)) := by
  have hnodup := hr.wellFormed.nodup
  have hsame := same_map_widened hnodup
  rw [hr.widened_eq] at hsame
  have hfs : (fs.map Prod.fst).Nodup := (hperm.map Prod.fst).nodup_iff.mp hr.distinct
  have hfind : ∀ k, (entries fs).find k = (entries hs).find k := fun k =>
    (HashTable.find_perm (hperm.map _) (nodup_entries hfs) k).symm
  refine ⟨fun k v hk => ?_, ?_⟩
  · rw [hfind, hsame k v]
    refine exists_congr fun key => exists_congr fun value => and_congr_left fun heq => ?_
    have hne : xTime ≠ key := by
      rintro rfl
      exact hk heq.1
    rw [find_stored, find_stored, find_put hnodup, if_neg hne]
  · refine iff_of_true ?_ ?_
    · rw [hfind, HashTable.find_isSome_iff]
      exact mem_keys_entries.mpr htime
    · rw [find_stored, find_put hnodup, if_pos rfl]
      rfl

/-- The frame that the receiver makes of headers and a payload that fit. -/
def builtFrame (c : Calls) (hs : Fields) (now : Timestamp) : Bpsp.Frame :=
  { (unbuilt c.made.opcode c.made.flag (tableOf hs) c.made.data.bytes).withHeaders
      (put (tableOf hs) xTime now.text) with isCompleted := true }

/-- Headers that fit are written and received. -/
theorem Calls.Fits.received (hc : c.Allowed) (hfits : c.Fits)
    (order : HashMap.Iteration JString VarHeader) :
    (c.made.writeTo order).2 = true ∧ ∃ hs : Fields, hs.Perm c.fields ∧ Readable hs ∧
      ∀ (now : Timestamp) (rest : List Byte),
        decode now ((c.made.writeTo order).1 ++ rest) = some (.ok, builtFrame c hs now, rest) := by
  obtain ⟨htime, hnul, hsize, hroom, hdata⟩ := hfits
  obtain ⟨hs, hperm, -, hdone, hwritten⟩ := Calls.write_eq hc order
  have hr := Calls.readable hc htime hnul hsize hperm
  have hcount : toInt c.counted = c.counted := toInt_of_lt (by omega)
  have hpos : 0 < toInt c.counted := by
    have := c.counted_eq
    omega
  have hnot : ¬ c.Refused := by
    rintro ⟨-, h | h⟩
    · rw [htime] at h
      cases h
    · omega
  have hfields := Calls.fields_eq htime
  refine ⟨hdone.mpr hnot, hs, hperm, hr, fun now rest => ?_⟩
  have hcounted : c.counted = fieldSize hs := by
    rw [fieldSize_perm hperm, hfields]
    rfl
  have hlen : c.made.dataSize = (c.made.data.bytes.length : Nat) := by
    rcases hdata with happend | hempty
    · simp [Calls.made, happend]
    · cases happend : c.append <;> simp [Calls.made, happend, hempty, JLib.ByteArray.empty]
  have hput := hr.encSize_put (Calls.mem_time htime hperm) now
  have hshort : encSize (put (tableOf hs) xTime now.text) ≤ 65535 := by omega
  have hbuild := build_fits (hr.carries c.made.opcode c.made.flag c.made.data.bytes) now c.opcode_ne
    hshort
  rw [hwritten hpos hnot,
    decode_written now hr c.opcode_ne (hcount.trans (by rw [hcounted])) hlen, hbuild]
  rfl

/-- Headers that fit are read back. -/
theorem Calls.Fits.read_back (hc : c.Allowed) (hfits : c.Fits)
    (order : HashMap.Iteration JString VarHeader) :
    (c.made.writeTo order).2 = true ∧ ReadBack c.made (c.made.writeTo order).1 := by
  obtain ⟨hdone, hs, hperm, hr, hreceived⟩ := hfits.received hc order
  refine ⟨hdone, fun {kernel} big now {conn rest} hkernel hinbox =>
    ⟨builtFrame c hs now, ?_, rfl, rfl, rfl,
      same_but_time hr hperm (List.mem_map_of_mem (Calls.mem_time hfits.time hperm)) now⟩⟩
  rw [outcome_eq hkernel, hinbox]
  exact hreceived now rest

/-- Headers that are read back have no NUL. -/
theorem nul_free_of_same {hs : Fields} (hdistinct : (hs.map Prod.fst).Nodup) {h : Headers}
    (hsame : SameButTime (entries hs) h) {e : List Byte × List Byte} (he : e ∈ hs)
    (hne : e.1 ≠ xTime.bytes) : (0 : Byte) ∉ e.1 ∧ (0 : Byte) ∉ e.2 := by
  have hfind : (entries hs).find (ascii e.1) = some ⟨ascii e.1, ascii e.2⟩ :=
    (HashTable.find_eq_some_iff (nodup_entries hdistinct)).mpr (List.mem_map_of_mem he)
  have hkey : ascii e.1 ≠ xTimeKey := fun heq => hne (ascii_injective heq)
  obtain ⟨key, value, -, hk, hv⟩ := (hsame.others (ascii e.1) (ascii e.2) hkey).mp (by rw [hfind]; rfl)
  rw [ascii_injective hk, ascii_injective hv]
  exact ⟨key.nul_free, value.nul_free⟩

/-- What is read back fits. -/
theorem Calls.fits_of_read_back (hc : c.Allowed) {order : HashMap.Iteration JString VarHeader}
    (hnot : ¬ c.Refused)
    (htext : (utf8 (toStr order c.made.varHeaders)).length ≤ 65535)
    (hback : ReadBack c.made (c.made.writeTo order).1) : c.Fits := by
  obtain ⟨hs, hperm, heq, -, hwritten⟩ := Calls.write_eq hc order
  rw [heq, length_fields, fieldSize_perm hperm] at htext
  obtain ⟨hlow, hhigh⟩ := c.now.length_bounds
  have hcount := c.counted_eq
  have hsmall : c.counted ≤ 65535 + 41 := by
    unfold Calls.fields at htext
    split_ifs at htext with htime
    · omega
    · exact Nat.le_trans htext (by decide)
  have hint : toInt c.counted = c.counted := toInt_of_lt (by omega)
  have hpos : 0 < toInt c.counted := by omega
  have htime : c.setsTime = false := by
    rw [Bool.eq_false_iff]
    exact fun h => hnot ⟨hpos, .inl h⟩
  have hfields := Calls.fields_eq htime
  have hsize : c.counted ≤ 65535 := by
    rw [hfields] at htext
    exact htext
  -- any receiver will do, with nothing after the frame
  obtain ⟨fr, hrun, -, -, -, hsame⟩ := @hback ⟨fun _ => none, fun _ => some 1⟩ true newYear
    ⟨(c.made.writeTo order).1 ++ [], [], 0, 0⟩ [] (fun _ => ⟨0, rfl⟩) rfl
  rw [outcome_eq fun _ => ⟨0, rfl⟩, hwritten hpos hnot] at hrun
  have hnul : ∀ h ∈ c.headers, (0 : Byte) ∉ h.1 ∧ (0 : Byte) ∉ h.2 := by
    intro h hh
    refine nul_free_of_same (Calls.fields_distinct hc) hsame ?_ (Calls.key_ne htime hh)
    rw [hfields]
    exact List.mem_append_left _ hh
  have hr := Calls.readable hc htime hnul hsize hperm
  have hcounted : c.counted = fieldSize hs := by
    rw [fieldSize_perm hperm, hfields]
    rfl
  have hdata : c.made.data.bytes.length = c.data.bytes.length := by
    have hlen := c.data.length_lt
    obtain ⟨hframed, -⟩ := decode_framed hrun
    have henough := hframed.enough
    rw [List.append_assoc, (fixed_fields hint hsize rfl hlen _).1,
      (fixed_fields hint hsize rfl hlen _).2] at henough
    simp only [List.length_append, length_fields, ← hcounted, List.length_nil] at henough
    have hfixed : c.made.fixedHeader.length = 8 := rfl
    have hle : c.made.data.bytes.length ≤ c.data.bytes.length := by
      unfold Calls.made
      cases c.append with
      | true => exact Nat.zero_le _
      | false => exact Nat.le_refl _
    omega
  refine ⟨htime, hnul, hsize, ?_, ?_⟩
  · by_contra hfull
    have hmem := Calls.mem_time htime hperm
    have hput := hr.encSize_put hmem newYear
    have hlong : 65535 < encSize (put (tableOf hs) xTime newYear.text) := by omega
    obtain ⟨fr', hbuild⟩ := build_full
      (hr.carries c.made.opcode c.made.flag c.made.data.bytes).accounts (hr.find hmem) hlong
    rw [decode_written newYear hr c.opcode_ne (hint.trans (by rw [hcounted]))
      (by rw [hdata]; rfl), hbuild] at hrun
    cases hrun
  · cases happend : c.append with
    | false => exact .inl rfl
    | true =>
        refine .inr (List.length_eq_zero_iff.mp ?_)
        rw [← hdata]
        simp [Calls.made, happend, JLib.ByteArray.empty]

end Receive

/-- For every frame that the calls make, in whatever order its headers are passed: what `writeTo`
emits is read back, and headers that the size field cannot describe are refused, exactly when the
count of the headers is positive and wrong, or the frame fits on the side of the receiver. -/
theorem write_recv_iff {c : Calls} (hc : c.Allowed) (order : HashMap.Iteration JString VarHeader) :
    WritesReadable order c ↔ c.Refused ∨ c.Fits := by
  obtain ⟨hs, hperm, htext, hdone, -⟩ := Calls.write_eq hc order
  constructor
  · rintro ⟨frame, hrun, hback, hrefuse⟩
    obtain rfl : c.made = frame := Option.some.inj ((Calls.run_eq hc).symm.trans hrun)
    by_cases hnot : c.Refused
    · exact .inl hnot
    · have hwrites := hdone.mpr hnot
      refine .inr (Calls.fits_of_read_back hc hnot ?_ (hback hwrites))
      by_contra hlong
      rw [hrefuse (Nat.lt_of_not_le hlong)] at hwrites
      cases hwrites
  · rintro (hrefused | hfits)
    · have hthrows : (c.made.writeTo order).2 = false := by
        rw [Bool.eq_false_iff]
        exact fun h => hdone.mp h hrefused
      refine ⟨c.made, Calls.run_eq hc, fun h => ?_, fun _ => hthrows⟩
      rw [hthrows] at h
      cases h
    · obtain ⟨hwrites, hback⟩ := hfits.read_back hc order
      refine ⟨c.made, Calls.run_eq hc, fun _ => hback, fun hlong => ?_⟩
      rw [htext, length_fields, fieldSize_perm hperm, Calls.fields_eq hfits.time] at hlong
      exact absurd hfits.size (Nat.not_le.mpr hlong)

/-- The calls of `Subscriber.buildSubFrame` for the topic `a/b` and the tag `t`. -/
def subscribing : Calls :=
  ⟨.sub, [.ack], [(xTopic.bytes, (CStr.ofString "a/b").bytes), (xSubTag.bytes, [116])], .empty, false,
    firstSecond⟩

/-- A SUB frame of the client is read back. -/
theorem write_recv_subscribing : WritesReadable inserted subscribing := by
  have hc : subscribing.Allowed :=
    ⟨by decide +kernel, by decide +kernel, by decide +kernel, by decide +kernel⟩
  refine (write_recv_iff hc inserted).mpr (.inr ⟨?_, ?_, ?_, ?_, .inl rfl⟩)
  all_goals decide +kernel

/-- A frame with one header, whose value has 65530 letters. -/
def oversized : Calls :=
  ⟨.pub, [], [([107], (letters 65530).bytes)], .empty, false, firstSecond⟩

/-- Headers of more than 65535 bytes are written with a size field that is cut. -/
theorem write_recv_oversized : oversized.Allowed ∧ ¬ WritesReadable inserted oversized := by
  have hletters : ∀ b ∈ (letters 65530).bytes, b = 97 := fun b hb => List.eq_of_mem_replicate hb
  have hc : oversized.Allowed := by
    refine ⟨List.nodup_singleton _, ?_, ?_, ?_⟩
    all_goals
      intro h hh
      obtain rfl := List.mem_singleton.mp hh
    · refine ⟨show Ascii [107] by decide +kernel, fun b hb => ?_⟩
      rw [hletters b hb]
      decide
    · refine ⟨List.cons_ne_nil _ _, fun h0 => ?_⟩
      have hlen : (letters 65530).bytes.length = 65530 := length_letters _
      rw [show (letters 65530).bytes = [] from h0] at hlen
      cases hlen
    · refine ⟨by decide, plain_from_unquoted (by decide) fun b hb => ?_⟩
      rw [hletters b hb]
      decide
  refine ⟨hc, ?_⟩
  rintro ⟨frame, hrun, -, hrefuse⟩
  obtain rfl : oversized.made = frame := Option.some.inj ((Calls.run_eq hc).symm.trans hrun)
  obtain ⟨hs, hperm, htext, hdone, -⟩ := Calls.write_eq hc inserted
  have htime : oversized.setsTime = false := rfl
  have hsize : fieldSize oversized.headers = 65536 := by
    have hlen : (letters 65530).bytes.length = 65530 := length_letters _
    simp [fieldSize, oversized, hlen]
  have hcount : oversized.counted = 65567 := by
    rw [Calls.counted_eq, hsize]
    rfl
  have hnot : ¬ oversized.Refused := by
    rintro ⟨-, h | h⟩
    · cases h
    · rw [hcount] at h
      omega
  have hthrows := hrefuse (by
    rw [htext, length_fields, fieldSize_perm hperm, Calls.fields_eq htime]
    show 65535 < oversized.counted
    rw [hcount]
    decide)
  rw [hdone.mpr hnot] at hthrows
  cases hthrows

end Bpsp.Java
