import Bpsp.Datatype
import Bpsp.Frame.RoundTrip
import Bpsp.Net

/-!
# Frames on the wire

`frame__send` and `frame__recv`. A frame is eight bytes of fixed header, the encoded header table and
the payload. `wire_round_trip` says that a sequence of frames that the program can build arrives
as it was sent, however the kernel cuts the byte stream into pieces.
-/

namespace Bpsp.Frame

open CLib Net Datatype

/-- The fixed header as `frame__send` writes it, on a host with this byte order. -/
def fixedHeader (big : Bool) (frame : Frame) : List Byte :=
  e16 big (BitVec.ofNat 16 frame.varsSize) ++ [frame.opcode] ++ [frame.flag] ++
    e32 big (BitVec.ofNat 32 frame.dataSize)

/-- The header buffer of `frame__send`, of `vars_size` bytes. Writing beyond it is undefined; bytes
that are not written are taken as zero. -/
def headerBuffer (frame : Frame) : Exec (List Byte) := do
  let bytes ← toBytes frame.varHeaders
  if bytes.length ≤ frame.varsSize then
    some (bytes ++ List.replicate (frame.varsSize - bytes.length) 0)
  else none

/-- `frame__send`, with allocation succeeding. -/
def send (big : Bool) (kernel : Kernel) (conn : Conn) (frame : Frame) : Exec (Status × Conn) :=
  if frame.isCompleted then
    assertOk (some (write kernel conn (fixedHeader big frame) true)) fun conn =>
      assertOk (if 0 < frame.varsSize then do
          let buf ← frame.headerBuffer
          some (write kernel conn buf true)
        else some (.ok, conn)) fun conn =>
        if 0 < frame.dataSize then
          some (write kernel conn (frame.payload.take frame.dataSize) true)
        else some (.ok, conn)
  else some (.notCompletedFrame, conn)

/-- `frame__recv` into a frame that it empties first, with allocation succeeding. -/
def recv (big : Bool) (kernel : Kernel) (now : Timestamp) (conn : Conn) :
    Exec (Status × Frame × Conn) := do
  let (s, header, conn) := read kernel conn 8 true
  if s ≠ .ok then some (s, new, conn)
  else
    let varsSize := (d16 big header).toNat
    let opcode := (header.drop 2).headD 0
    let flag := (header.drop 3).headD 0
    let (s, frame) ← new.setFrameControl opcode flag
    if s ≠ .ok then some (s, frame, conn)
    else
      let dataSize := (d32 big (header.drop 4)).toNat
      let (s, buf, conn) := read kernel conn varsSize true
      if s ≠ .ok then some (s, frame, conn)
      else
        let (s, frame) ← frame.parseVarHeader buf
        if s ≠ .ok then some (s, frame, conn)
        else
          let (s, frame) := frame.mallocPayload dataSize
          if s ≠ .ok then some (s, frame, conn)
          else
            let (s, data, conn) :=
              if 0 < dataSize then read kernel conn dataSize true else (.ok, [], conn)
            let frame := if 0 < dataSize then
                { frame with
                  payload := data ++ frame.payload.drop data.length
                  pos := data.length }
              else frame
            if s ≠ .ok then some (s, frame, conn)
            else do
              let (s, frame) ← frame.build now
              some (s, frame, conn)

/-- Something to send: an opcode, a flag, a payload and plain headers, as the caller of
`frame__set_frame_control`, `frame__set_var_headers` and `frame__put_payload` gives them. -/
structure Message where
  opcode : Byte
  flag : Byte
  payload : List Byte
  headers : Table
  opcode_ne : opcode ≠ 0
  payload_lt : payload.length < 2 ^ 32
  wf : WellFormed headers
  plain : ∀ e ∈ headers, Plain e.1 ∧ Plain e.2
  fits : encSize headers ≤ 65535

/-- The calls that make a complete frame from a message. -/
def compose (now : Timestamp) (m : Message) : Exec (Status × Frame) :=
  assertOk (new.setFrameControl m.opcode m.flag) fun frame =>
    assertOk (frame.setVarHeaders (stored m.headers)) fun frame =>
      assertOk (some (frame.putPayload m.payload)) fun frame => frame.build now

/-- The complete frame for a message, built at time `now`. -/
def completed (now : Timestamp) (m : Message) : Frame where
  varsSize := encSize (put m.headers xTime now.text)
  opcode := m.opcode
  flag := m.flag
  dataSize := m.payload.length
  varHeaders := stored (put m.headers xTime now.text)
  payload := m.payload
  payloadSize := m.payload.length
  pos := m.payload.length
  isCompleted := true

theorem put_payload_eq (fr : Frame) (payload : List Byte) : fr.putPayload payload =
    (.ok, { fr with
      payload := payload, pos := payload.length
      payloadSize := payload.length, dataSize := payload.length }) := by
  by_cases h : payload.length = 0 <;> simp [putPayload, mallocPayload, freePayload, h]

theorem set_frame_control_eq (fr : Frame) {opcode : Byte} (flag : Byte) (h : opcode ≠ 0) :
    fr.setFrameControl opcode flag = some (.ok, { fr with opcode := opcode, flag := flag }) := by
  simp [setFrameControl, setOpcode, validateOpcode, h, setFlag]

/-- A message with room for the time becomes a complete frame. -/
theorem compose_eq (now : Timestamp) (m : Message)
    (hfits : encSize (put m.headers xTime now.text) ≤ 65535) :
    compose now m = some (.ok, completed now m) := by
  have hnew : Carries { new with opcode := m.opcode, flag := m.flag } [] :=
    ⟨rfl, rfl, by simp, WellFormed.nil⟩
  have hset := set_var_headers_fits hnew (by simpa using m.wf) (by simpa using m.fits)
  have hcarries : Carries { (({ new with opcode := m.opcode, flag := m.flag } : Frame).withHeaders
      m.headers) with payload := m.payload, pos := m.payload.length,
                      payloadSize := m.payload.length, dataSize := m.payload.length } m.headers :=
    ⟨rfl, rfl, m.fits, m.wf⟩
  rw [compose, set_frame_control_eq new m.flag m.opcode_ne, assert_ok, hset, assert_ok,
    put_payload_eq, assert_ok]
  exact build_fits hcarries now m.opcode_ne hfits

/-- The bytes of a message that was built at time `now`. -/
def wire (big : Bool) (now : Timestamp) (m : Message) : List Byte :=
  fixedHeader big (completed now m) ++ encode (put m.headers xTime now.text) ++ m.payload

/-- A text without quotes and backslashes is plain. -/
theorem plain_from_unquoted {prev : Byte} (hprev : prev ≠ backslash) {text : List Byte}
    (htext : ∀ b ∈ text, b ≠ quote ∧ b ≠ backslash) : plainFrom prev text = true := by
  induction text generalizing prev with
  | nil => simpa [plainFrom] using hprev
  | cons b text ih =>
      obtain ⟨hq, hb⟩ := htext b List.mem_cons_self
      simp [plainFrom, hq, ih hb fun b' hb' => htext b' (List.mem_cons_of_mem _ hb')]

theorem time_plain (now : Timestamp) : Plain now.text :=
  plain_from_unquoted (by decide) now.plain

/-- The headers of a complete frame are well formed and plain. -/
theorem timed_headers (now : Timestamp) (m : Message) :
    WellFormed (put m.headers xTime now.text) ∧
      ∀ e ∈ put m.headers xTime now.text, Plain e.1 ∧ Plain e.2 :=
  ⟨m.wf.put (by decide) (Timestamp.length_ne now),
    forall_put m.wf.nodup m.plain ⟨show Plain xTime by decide, time_plain now⟩⟩

theorem length_fixedHeader (big : Bool) (fr : Frame) : (fixedHeader big fr).length = 8 := by
  simp [fixedHeader]

/-- The size fields of a fixed header. -/
theorem fixed_header_sizes (big : Bool) {fr : Frame} (hvars : fr.varsSize < 65536)
    (hdata : fr.dataSize < 2 ^ 32) (rest : List Byte) :
    be16 (fixedHeader big fr ++ rest) = fr.varsSize ∧
      be32 ((fixedHeader big fr ++ rest).drop 4) = fr.dataSize := by
  refine ⟨?_, ?_⟩
  · rw [fixedHeader, List.append_assoc, List.append_assoc, List.append_assoc, be16_e16,
      BitVec.toNat_ofNat]
    exact Nat.mod_eq_of_lt hvars
  · have hdrop : (fixedHeader big fr ++ rest).drop 4 =
        e32 big (BitVec.ofNat 32 fr.dataSize) ++ rest := by
      simp [fixedHeader, e16_eq]
    rw [hdrop, be32_e32, BitVec.toNat_ofNat]
    exact Nat.mod_eq_of_lt hdata

/-- Sending hands the fixed header, the header block and the payload to the kernel. -/
theorem send_frame {kernel : Kernel} (h : kernel.Reliable) (big : Bool) {frame : Frame}
    {buf : List Byte} (hdone : frame.isCompleted = true) (hbuf : frame.headerBuffer = some buf)
    (conn : Conn) : ∃ n, send big kernel conn frame = some (.ok, { conn with
      outbox := conn.outbox ++ (fixedHeader big frame ++ (buf ++ frame.payload.take frame.dataSize))
      sends := n }) := by
  obtain ⟨n₁, h₁⟩ := write_spec h conn (fixedHeader big frame)
  obtain ⟨n₂, h₂⟩ := write_spec h { conn with
    outbox := conn.outbox ++ fixedHeader big frame, sends := n₁ } buf
  obtain ⟨n₃, h₃⟩ := write_spec h { conn with
    outbox := conn.outbox ++ fixedHeader big frame ++ buf, sends := n₁ }
    (frame.payload.take frame.dataSize)
  obtain ⟨n₄, h₄⟩ := write_spec h { conn with
    outbox := conn.outbox ++ fixedHeader big frame ++ buf, sends := n₂ }
    (frame.payload.take frame.dataSize)
  rw [send, if_pos hdone, h₁, assert_ok]
  by_cases hvars : 0 < frame.varsSize
  · rw [if_pos hvars, hbuf, Option.bind_eq_bind, Option.bind_some, h₂, assert_ok]
    by_cases hdata : 0 < frame.dataSize
    · rw [if_pos hdata, h₄]
      exact ⟨n₄, by simp⟩
    · rw [if_neg hdata, Nat.eq_zero_of_not_pos hdata]
      exact ⟨n₂, by simp⟩
  · -- nothing is written for an empty block
    have hnil : buf = [] := by
      unfold headerBuffer at hbuf
      obtain ⟨bytes, -, hbuf⟩ := Option.bind_eq_some_iff.mp hbuf
      split_ifs at hbuf with hle
      have hzero : bytes.length = 0 := by omega
      rw [← Option.some.inj hbuf, List.length_eq_zero_iff.mp hzero, Nat.eq_zero_of_not_pos hvars]
      rfl
    subst hnil
    rw [if_neg hvars, assert_ok]
    by_cases hdata : 0 < frame.dataSize
    · rw [List.append_nil] at h₃
      rw [if_pos hdata, h₃]
      exact ⟨n₃, by simp⟩
    · rw [if_neg hdata, Nat.eq_zero_of_not_pos hdata]
      exact ⟨n₁, by simp⟩

/-- Sending hands the bytes of the message to the kernel. -/
theorem send_spec {kernel : Kernel} (h : kernel.Reliable) (big : Bool) (now : Timestamp)
    (m : Message) (hfits : encSize (put m.headers xTime now.text) ≤ 65535) (conn : Conn) :
    ∃ n, send big kernel conn (completed now m) =
      some (.ok, { conn with outbox := conn.outbox ++ wire big now m, sends := n }) := by
  have hbuf : (completed now m).headerBuffer = some (encode (put m.headers xTime now.text)) := by
    simp [headerBuffer, completed, toBytes_stored, length_encode hfits]
  obtain ⟨n, hrun⟩ := send_frame h big (show (completed now m).isCompleted = true from rfl) hbuf conn
  have hpayload : (completed now m).payload.take (completed now m).dataSize = m.payload :=
    List.take_length
  refine ⟨n, ?_⟩
  rw [hrun, hpayload, wire, List.append_assoc (fixedHeader big (completed now m))]

/-- Receiving takes the bytes of one frame from the stream and rebuilds the frame, with the
receiver's time. -/
theorem recv_spec {kernel : Kernel} (h : kernel.Reliable) (big big' : Bool) (now now' : Timestamp)
    (m : Message) (hfits : encSize (put m.headers xTime now.text) ≤ 65535) {conn : Conn}
    {rest : List Byte} (hinbox : conn.inbox = wire big now m ++ rest) :
    ∃ n, recv big' kernel now' conn =
      some (.ok, completed now' m, { conn with inbox := rest, recvs := n }) := by
  obtain ⟨hwf, hplain⟩ := timed_headers now m
  have hsize : (d16 big' (fixedHeader big (completed now m))).toNat =
      (encode (put m.headers xTime now.text)).length := by
    rw [length_encode hfits, fixedHeader, List.append_assoc, List.append_assoc, d16_e16,
      BitVec.toNat_ofNat]
    exact Nat.mod_eq_of_lt (by simp [completed]; omega)
  have hdata : (d32 big' ((fixedHeader big (completed now m)).drop 4)).toNat =
      m.payload.length := by
    have hdrop : (fixedHeader big (completed now m)).drop 4 =
        e32 big (BitVec.ofNat 32 (completed now m).dataSize) ++ [] := by
      simp [fixedHeader, e16_eq]
    rw [hdrop, d32_e32, BitVec.toNat_ofNat]
    exact Nat.mod_eq_of_lt m.payload_lt
  have hop : ((fixedHeader big (completed now m)).drop 2).headD 0 = m.opcode := by
    simp [fixedHeader, e16_eq, completed]
  have hflag : ((fixedHeader big (completed now m)).drop 3).headD 0 = m.flag := by
    simp [fixedHeader, e16_eq, completed]
  have hcarries : Carries { new with opcode := m.opcode, flag := m.flag } [] :=
    ⟨rfl, rfl, by simp, WellFormed.nil⟩
  have hparse := parse_encode hcarries hwf hfits hplain
  have hstream : conn.inbox = fixedHeader big (completed now m) ++
      (encode (put m.headers xTime now.text) ++ (m.payload ++ rest)) := by
    simpa [wire] using hinbox
  obtain ⟨n₁, h₁⟩ := read_spec h hstream
  obtain ⟨n₂, h₂⟩ := @read_spec _ h { conn with
    inbox := encode (put m.headers xTime now.text) ++ (m.payload ++ rest), recvs := n₁ } _ _ rfl
  obtain ⟨n₃, h₃⟩ := @read_spec _ h { conn with inbox := m.payload ++ rest, recvs := n₂ } _ _ rfl
  rw [length_fixedHeader] at h₁
  have hsame : encSize (put m.headers xTime now'.text) ≤ 65535 := by
    rw [encSize_put_congr m.wf.nodup xTime (now'.length_eq.trans now.length_eq.symm)]
    exact hfits
  simp only [recv, h₁, hsize, hdata, hop, hflag, h₂, set_frame_control_eq new m.flag m.opcode_ne,
    hparse, bind, Option.bind_some, ne_eq, not_true_eq_false, if_false]
  -- the frame before the time is set is the same with and without a payload
  have hread : Carries { completed now m with isCompleted := false }
      (put m.headers xTime now.text) := ⟨rfl, rfl, hfits, hwf⟩
  have hbuild : ({ completed now m with isCompleted := false } : Frame).build now' =
      some (.ok, completed now' m) := by
    rw [build_fits hread now' m.opcode_ne (by rw [put_put]; exact hsame), put_put]
    rfl
  by_cases hpos : 0 < m.payload.length
  · have hne : m.payload.length ≠ 0 := by omega
    refine ⟨n₃, ?_⟩
    simp only [mallocPayload, hne, if_false, hpos, if_true, h₃, not_true_eq_false, withHeaders, new,
      List.take_nil, List.nil_append, List.length_nil, Nat.sub_zero, List.drop_replicate,
      Nat.sub_self, List.replicate_zero, List.append_nil]
    exact hbuild ▸ rfl
  · have hnil : m.payload = [] := List.length_eq_zero_iff.mp (by omega)
    refine ⟨n₂, ?_⟩
    simp only [mallocPayload, hnil, List.length_nil, if_true, Nat.lt_irrefl, if_false, freePayload,
      withHeaders, new, not_true_eq_false, List.nil_append]
    simp only [completed, hnil, List.length_nil] at hbuild
    rw [hbuild]
    simp [completed, hnil]

/-- Sends frames one after another. -/
def sendAll (big : Bool) (kernel : Kernel) : Conn → List Frame → Exec (Status × Conn)
  | conn, [] => some (.ok, conn)
  | conn, frame :: frames =>
      assertOk (send big kernel conn frame) fun conn => sendAll big kernel conn frames

/-- Receives one frame at each of the given times. -/
def recvAll (big : Bool) (kernel : Kernel) : Conn → List Timestamp →
    Exec (Status × List Frame × Conn)
  | conn, [] => some (.ok, [], conn)
  | conn, now :: times => do
      let (s, frame, conn) ← recv big kernel now conn
      if s ≠ .ok then some (s, [frame], conn)
      else
        let (s, frames, conn) ← recvAll big kernel conn times
        some (s, frame :: frames, conn)

/-- The received frame is the sent one with the receiver's time. -/
structure ReceivedAt (now : Timestamp) (sent received : Frame) : Prop where
  opcode : received.opcode = sent.opcode
  flag : received.flag = sent.flag
  payload : received.payload = sent.payload
  dataSize : received.dataSize = sent.dataSize
  varsSize : received.varsSize = sent.varsSize
  varHeaders : received.varHeaders = sent.varHeaders.update xTime (some now.text)

theorem completed_received (now now' : Timestamp) (m : Message) :
    ReceivedAt now' (completed now m) (completed now' m) where
  opcode := rfl
  flag := rfl
  payload := rfl
  dataSize := rfl
  varsSize := encSize_put_congr m.wf.nodup xTime (now'.length_eq.trans now.length_eq.symm)
  varHeaders := by
    have hmem : xTime ∈ (put m.headers xTime now.text).keys := mem_keys_put.mpr (Or.inl rfl)
    simp only [completed]
    rw [stored_update, ← put_of_mem now'.text hmem, put_put]

theorem send_all_spec {kernel : Kernel} (h : kernel.Reliable) (big : Bool)
    (ms : List (Timestamp × Message))
    (hfits : ∀ p ∈ ms, encSize (put p.2.headers xTime p.1.text) ≤ 65535) (conn : Conn) :
    ∃ n, sendAll big kernel conn (ms.map fun p => completed p.1 p.2) = some (.ok, { conn with
      outbox := conn.outbox ++ ms.flatMap (fun p => wire big p.1 p.2), sends := n }) := by
  induction ms generalizing conn with
  | nil => exact ⟨conn.sends, by simp [sendAll]⟩
  | cons p ms ih =>
      obtain ⟨n₁, h₁⟩ := send_spec h big p.1 p.2 (hfits p (by simp)) conn
      obtain ⟨n₂, h₂⟩ := ih (fun p' hp' => hfits p' (by simp [hp']))
        { conn with outbox := conn.outbox ++ wire big p.1 p.2, sends := n₁ }
      exact ⟨n₂, by rw [List.map_cons, sendAll, h₁, assert_ok, h₂]; simp⟩

theorem recv_all_spec {kernel : Kernel} (h : kernel.Reliable) (big big' : Bool)
    (ms : List (Timestamp × Message))
    (hfits : ∀ p ∈ ms, encSize (put p.2.headers xTime p.1.text) ≤ 65535) (times : List Timestamp)
    (hlen : times.length = ms.length) (tail : List Byte) {conn : Conn}
    (hinbox : conn.inbox = ms.flatMap (fun p => wire big p.1 p.2) ++ tail) :
    ∃ n, recvAll big' kernel conn times = some (.ok,
      (ms.zip times).map (fun p => completed p.2 p.1.2),
      { conn with inbox := tail, recvs := n }) := by
  induction ms generalizing conn times with
  | nil =>
      obtain rfl : times = [] := List.length_eq_zero_iff.mp hlen
      exact ⟨conn.recvs, by simp [recvAll, ← show conn.inbox = tail from hinbox]⟩
  | cons p ms ih =>
      cases times with
      | nil => simp at hlen
      | cons now times =>
          obtain ⟨n₁, h₁⟩ := recv_spec h big big' p.1 now p.2 (hfits p (by simp))
            (by simpa using hinbox)
          obtain ⟨n₂, h₂⟩ := @ih (fun p' hp' => hfits p' (by simp [hp'])) times (by simpa using hlen)
            { conn with inbox := ms.flatMap (fun p => wire big p.1 p.2) ++ tail, recvs := n₁ } rfl
          exact ⟨n₂, by simp [recvAll, h₁, h₂]⟩

/-- Frames built from any messages and sent one after another are received one after another as
they were, however the two kernels cut the stream into pieces, and nothing beyond them is read. -/
theorem wire_round_trip {sender receiver : Kernel} (hs : sender.Reliable) (hr : receiver.Reliable)
    (big big' : Bool) (ms : List (Timestamp × Message))
    (hfits : ∀ p ∈ ms, encSize (put p.2.headers xTime p.1.text) ≤ 65535) (times : List Timestamp)
    (hlen : times.length = ms.length) (tail : List Byte) :
    ∃ frames sent received rest,
      ms.mapM (fun p => compose p.1 p.2) = some (frames.map fun frame => (.ok, frame)) ∧
      sendAll big sender ⟨[], [], 0, 0⟩ frames = some (.ok, sent) ∧
      recvAll big' receiver ⟨sent.outbox ++ tail, [], 0, 0⟩ times = some (.ok, received, rest) ∧
      List.Forall₂ (fun p => ReceivedAt p.2 p.1) (frames.zip times) received ∧
      rest.inbox = tail := by
  obtain ⟨n, hsend⟩ := send_all_spec hs big ms hfits ⟨[], [], 0, 0⟩
  obtain ⟨n', hrecv⟩ := @recv_all_spec _ hr big big' ms hfits times hlen tail
    ⟨ms.flatMap (fun p => wire big p.1 p.2) ++ tail, [], 0, 0⟩ rfl
  refine ⟨_, _, _, _, ?_, hsend, by simpa using hrecv, ?_, rfl⟩
  · clear hsend hrecv hlen
    induction ms with
    | nil => rfl
    | cons p ms ih =>
        have hp := compose_eq p.1 p.2 (hfits p (by simp))
        have hrest := ih fun p' hp' => hfits p' (by simp [hp'])
        simp [List.mapM_cons, hp, hrest]
  · rw [List.zip_map_left, List.forall₂_map_left_iff, List.forall₂_map_right_iff,
      List.forall₂_same]
    exact fun p _ => completed_received p.1.1 p.2 p.1.2

/-- The first second of 2021. -/
def newYear : Timestamp := ⟨.ofString "2021-01-01T00:00:00.000000Z", by decide, by decide +kernel⟩

/-- One minute later. -/
def minuteLater : Timestamp := ⟨.ofString "2021-01-01T00:01:00.000000Z", by decide, by decide +kernel⟩

/-- A publish to `a/b` with the payload `hi`. -/
def hello : Message where
  opcode := opPub
  flag := flAck
  payload := [104, 105]
  headers := [(xTopic, .ofString "a/b")]
  opcode_ne := by decide
  payload_lt := by decide
  wf := ⟨by decide, by decide, by simp; decide⟩
  plain := by decide
  fits := by decide

/-- Two publishes sent in pieces of three bytes and received in pieces of one. -/
theorem wire_round_trip_hello : ∃ frames sent received rest,
    [(newYear, hello), (minuteLater, hello)].mapM (fun p => compose p.1 p.2) =
      some (frames.map fun frame => (.ok, frame)) ∧
    sendAll false ⟨fun _ => some 3, fun _ => some 1⟩ ⟨[], [], 0, 0⟩ frames = some (.ok, sent) ∧
    recvAll true ⟨fun _ => some 3, fun _ => some 1⟩ ⟨sent.outbox ++ [], [], 0, 0⟩
      [minuteLater, minuteLater] = some (.ok, received, rest) ∧
    List.Forall₂ (fun p => ReceivedAt p.2 p.1) (frames.zip [minuteLater, minuteLater]) received ∧
    rest.inbox = [] :=
  wire_round_trip ⟨fun _ => ⟨2, rfl⟩, fun _ => ⟨0, rfl⟩⟩ ⟨fun _ => ⟨2, rfl⟩, fun _ => ⟨0, rfl⟩⟩
    false true [(newYear, hello), (minuteLater, hello)] (by decide) [minuteLater, minuteLater] rfl []

end Bpsp.Frame
