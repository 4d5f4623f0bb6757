import Bpsp.CLib.HashTable
import Bpsp.Status

/-!
# Frames

`lib/frame.c` and `lib/frame_op.c`. The size fields are machine integers: `vars_size` is reduced
modulo `2 ^ 16` where the code assigns to it. A header whose value pointer was never set (that of a
header inserted with an empty value) has the value `none`, and passing it to `strlen` is undefined.
Calls that the code ends early with `ASSERT_BPSP_OK` are chained by `assertOk`.
-/

namespace Bpsp

open CLib

/-- The headers of a frame by key, in the order of insertion. -/
abbrev Headers := HashTable CStr (Option CStr)

/-- `bpsp__frame`. A NULL payload is the empty list. -/
structure Frame where
  varsSize : Nat
  opcode : Byte
  flag : Byte
  dataSize : Nat
  varHeaders : Headers
  payload : List Byte
  payloadSize : Nat
  pos : Nat
  isCompleted : Bool
  deriving DecidableEq

/-- What `date_now_utc` writes: `strftime` with a fixed format of 27 characters. -/
structure Timestamp where
  text : CStr
  length_eq : text.length = 27
  plain : ∀ b ∈ text.bytes, b ≠ 34 ∧ b ≠ 92

/-- `ASSERT_BPSP_OK`: the next call is made only when this one returned `BPSP_OK`. -/
def assertOk {α : Type} (x : Exec (Status × α)) (next : α → Exec (Status × α)) :
    Exec (Status × α) := do
  let (s, a) ← x
  if s = .ok then next a else some (s, a)

namespace Frame

/-- `OP_INFO`. -/
def opInfo : Byte := 1

/-- `OP_CONNECT`. -/
def opConnect : Byte := 2

/-- `OP_PUB`. -/
def opPub : Byte := 3

/-- `OP_SUB`. -/
def opSub : Byte := 4

/-- `OP_UNSUB`. -/
def opUnsub : Byte := 5

/-- `OP_MSG`. -/
def opMsg : Byte := 6

/-- `OP_OK`. -/
def opOk : Byte := 7

/-- `OP_ERR`. -/
def opErr : Byte := 8

/-- `FL_ACK`. -/
def flAck : Byte := 0x80

/-- `FL_PUB_ECHO`. -/
def flPubEcho : Byte := 0x40

/-- `flag__is_set`. -/
def flagIsSet (flag flagsSet : Byte) : Bool := flag &&& flagsSet ≠ 0

/-- The key of the time header. -/
def xTime : CStr := .ofString "x-time"

/-- The key of the topic header. -/
def xTopic : CStr := .ofString "x-topic"

/-- The key of the subscriber tag header. -/
def xSubTag : CStr := .ofString "x-sub-tag"

/-- The key under which a delivered message carries the published topic. -/
def xOriginTopic : CStr := .ofString "x-origin-topic"

/-- The key under which a delivered message carries the address of the publisher. -/
def xFrom : CStr := .ofString "x-from"

/-- The key of the status header of a reply. -/
def xStatusCode : CStr := .ofString "x-status-code"

/-- A frame of zeros: `frame__new`, and what `frame__empty` leaves. -/
def new : Frame := ⟨0, 0, 0, 0, [], [], 0, 0, false⟩

/-- `frame__get_var_header`. -/
def getVarHeader (frame : Frame) (key : CStr) : Option (Option CStr) := frame.varHeaders.find key

/-- `frame__set_var_header`, with `var_header__new` and `var_header__set`. The update branch has
already replaced the value and reduced `vars_size` when it finds that the new value does not fit. -/
def setVarHeader (frame : Frame) (key : CStr) (value : Option CStr) : Exec (Status × Frame) :=
  if key.length = 0 then some (.invalidArg, frame)
  else do
    let value ← value
    let keyLen := key.length % 65536
    let valueLen := value.length % 65536
    match frame.varHeaders.find key with
    | some old => do
        let old ← old
        let size := (frame.varsSize + 65536 - old.length % 65536) % 65536
        let frame := { frame with
          varsSize := size
          varHeaders := frame.varHeaders.update key (some value) }
        if size + valueLen < 65536 then some (.ok, { frame with varsSize := size + valueLen })
        else some (.maxVarHeaders, frame)
    | none =>
        -- an empty value is not stored
        let stored := if value.length = 0 then none else some value
        if frame.varsSize + keyLen + valueLen + 5 < 65536 then
          some (.ok, { frame with
            varsSize := frame.varsSize + keyLen + valueLen + 5
            varHeaders := frame.varHeaders.add key stored })
        else some (.maxVarHeaders, frame)

/-- `frame__set_var_headers`. -/
def setVarHeaders (frame : Frame) : List (CStr × Option CStr) → Exec (Status × Frame)
  | [] => some (.ok, frame)
  | (key, value) :: headers =>
      assertOk (frame.setVarHeader key value) fun frame => setVarHeaders frame headers

/-- `frame__validate_opcode`. -/
def validateOpcode (opcode : Byte) : Status := if opcode = 0 then .invalidOpcode else .ok

/-- `frame__set_opcode`. -/
def setOpcode (frame : Frame) (opcode : Byte) : Status × Frame :=
  match validateOpcode opcode with
  | .ok => (.ok, { frame with opcode := opcode })
  | s => (s, frame)

/-- `frame__set_flag`. -/
def setFlag (frame : Frame) (flag : Byte) : Status × Frame := (.ok, { frame with flag := flag })

/-- `frame__set_frame_control`. -/
def setFrameControl (frame : Frame) (opcode flag : Byte) : Exec (Status × Frame) :=
  assertOk (some (frame.setOpcode opcode)) fun frame => some (frame.setFlag flag)

/-- `frame__free_payload`. -/
def freePayload (frame : Frame) : Frame :=
  { frame with payloadSize := 0, dataSize := 0, pos := 0, payload := [] }

/-- `frame__malloc_payload` when memory is not exhausted. What an old payload does not provide is
taken as zero; every caller overwrites the whole payload. -/
def mallocPayload (frame : Frame) (dataSize : Nat) : Status × Frame :=
  if dataSize = 0 then (.ok, frame.freePayload)
  else
    let old := frame.payload.take dataSize
    (.ok, { frame with
      payload := old ++ List.replicate (dataSize - old.length) 0
      pos := 0
      payloadSize := dataSize
      dataSize := dataSize })

/-- `frame__put_payload` with `append` unset, as all callers have it. -/
def putPayload (frame : Frame) (payload : List Byte) : Status × Frame :=
  let (s, frame) := frame.mallocPayload payload.length
  (s, { frame with payload := payload, pos := payload.length })

/-- `frame__replace_payload`. -/
def replacePayload (frame : Frame) (payload : List Byte) : Status × Frame :=
  let frame := frame.freePayload
  (.ok, { frame with
    pos := payload.length
    payload := payload
    dataSize := payload.length
    payloadSize := payload.length })

/-- `frame__build`. -/
def build (now : Timestamp) (frame : Frame) : Exec (Status × Frame) :=
  assertOk (frame.setVarHeader xTime (some now.text)) fun frame =>
    match validateOpcode frame.opcode with
    | .ok => some (.ok, { frame with isCompleted := true })
    | s => some (s, frame)

/-- `frame__PUB`. -/
def pub (now : Timestamp) (topic : Option CStr) (flag : Byte) (headers : List (CStr × Option CStr))
    (msg : List Byte) : Exec (Status × Frame) :=
  assertOk (new.setFrameControl opPub flag) fun frame =>
    assertOk (frame.setVarHeaders headers) fun frame =>
      assertOk (frame.setVarHeader xTopic topic) fun frame =>
        assertOk (some (frame.putPayload msg)) fun frame => frame.build now

/-- `frame__SUB`. A topic or a tag that is NULL is left out. -/
def sub (now : Timestamp) (topic subTag : Option CStr) (flag : Byte)
    (headersRule : List (CStr × Option CStr)) : Exec (Status × Frame) :=
  let setUnlessNull (frame : Frame) (key : CStr) (value : Option CStr) : Exec (Status × Frame) :=
    match value with
    | some value => frame.setVarHeader key (some value)
    | none => some (.ok, frame)
  assertOk (new.setFrameControl opSub flag) fun frame =>
    assertOk (frame.setVarHeaders headersRule) fun frame =>
      assertOk (setUnlessNull frame xTopic topic) fun frame =>
        assertOk (setUnlessNull frame xSubTag subTag) fun frame => frame.build now

/-- `frame__copy_var_headers`. -/
def copyVarHeaders (dst src : Frame) : Exec (Status × Frame) := dst.setVarHeaders src.varHeaders

/-- `frame__copy_header`. -/
def copyHeader (dst src : Frame) : Exec (Status × Frame) :=
  assertOk (dst.setFrameControl src.opcode src.flag) fun dst => dst.copyVarHeaders src

/-- `frame__copy` with `build` unset, into a frame that is emptied first. -/
def copy (src : Frame) : Exec (Status × Frame) :=
  if src.isCompleted then
    assertOk (new.copyHeader src) fun dst => some (dst.putPayload src.payload)
  else some (.invalidArg, new)

/-- `frame__MSG`. -/
def msg (now : Timestamp) (src : Frame) : Exec (Status × Frame) :=
  assertOk src.copy fun frame =>
    assertOk (some (frame.setOpcode opMsg)) fun frame => frame.build now

/-- The text that `frame__OK` and `frame__ERR` send: an empty one is replaced. -/
def replyText (msg : CStr) : CStr := if msg.length = 0 then .ofString "OK." else msg

/-- `frame__OK`. -/
def ok (now : Timestamp) (src : Frame) (msg : CStr) : Exec (Status × Frame) :=
  assertOk (new.copyHeader src) fun frame =>
    assertOk (some (frame.setOpcode opOk)) fun frame =>
      assertOk (some (frame.putPayload (replyText msg).bytes)) fun frame =>
        assertOk (frame.setVarHeader xStatusCode (some (.ofString "200"))) fun frame =>
          frame.build now

/-- `frame__ERR`. -/
def err (now : Timestamp) (src : Frame) (sErr : Status) (msg : CStr) : Exec (Status × Frame) :=
  assertOk (new.copyHeader src) fun frame =>
    assertOk (some (frame.setOpcode opErr)) fun frame =>
      let data := (CStr.ofString "(" ++ sErr.getText ++ .ofString ") " ++ replyText msg).bytes
      assertOk (some (frame.replacePayload data)) fun frame =>
        assertOk (frame.setVarHeader xStatusCode (some (.ofString "500"))) fun frame =>
          frame.build now

/-- `frame__INFO`, with the version and the name of the broker. -/
def info (now : Timestamp) (version name : CStr) : Exec (Status × Frame) :=
  assertOk (new.setFrameControl opInfo 0) fun frame =>
    assertOk (some (frame.putPayload (version.bytes ++ name.bytes ++ [0]))) fun frame =>
      frame.build now

/-- The bytes that `var_header__to_bytes` writes for one header: `"key""value";`, with lengths that
have 16 bits. -/
def headerBytes (key value : CStr) : List Byte :=
  [34] ++ key.bytes.take (key.length % 65536) ++ [34] ++
    [34] ++ value.bytes.take (value.length % 65536) ++ [34] ++ [59]

/-- `var_header__to_bytes`: the bytes written from the start of the buffer. The buffer has at most
65535 bytes, so the 16-bit cursor passes its end before it can wrap. -/
def toBytes : Headers → Exec (List Byte)
  | [] => some []
  | (key, value) :: headers => do
      let value ← value
      let rest ← toBytes headers
      some (headerBytes key value ++ rest)

end Frame

end Bpsp
