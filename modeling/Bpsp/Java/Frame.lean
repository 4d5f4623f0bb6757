import Bpsp.Java.VarHeader
import Bpsp.Frame.Recv

/-!
# Frames of the Java client

`com/core/frame/Frame.java`, with `FrameFactory`, `Operation` and `Flag`. The size of the headers is
an `int` that `setVarHeader` adds to even when `putIfAbsent` leaves the map as it is; `writeTo`
writes its low 16 bits, and writes the headers when the `int` is positive and equals the length of
their text.
-/

namespace Bpsp.Java

open CLib JLib Bpsp.Frame

/-- `Operation`. -/
inductive Operation where
  | info
  | connect
  | pub
  | sub
  | unsub
  | msg
  | ok
  | err
  deriving DecidableEq

/-- `Operation.getCode`. -/
def Operation.getCode : Operation → Byte
  | .info => 1
  | .connect => 2
  | .pub => 3
  | .sub => 4
  | .unsub => 5
  | .msg => 6
  | .ok => 7
  | .err => 8

/-- `Flag`. -/
inductive Flag where
  | ack
  | pubEcho
  deriving DecidableEq

/-- `Flag.getValue`. -/
def Flag.getValue : Flag → Byte
  | .ack => 0x80
  | .pubEcho => 0x40

/-- `Frame`. -/
structure Frame where
  varHeaderSize : Int
  opcode : Byte
  flag : Byte
  dataSize : Int
  varHeaders : VarHeaders
  data : JLib.ByteArray
  isCompleted : Bool

/-- What `Instant.toString` gives: ASCII, with no fraction of a second or one of 3, 6 or 9 digits. -/
structure Instant where
  text : CStr
  length_mem : text.length ∈ [20, 24, 27, 30]
  ascii : Ascii text.bytes
  plain : Plain text

/-- The key of the time header. -/
def xTimeKey : JString := JLib.ascii xTime.bytes

namespace Frame

/-- `FrameFactory.newFrame(operation)`. -/
def newFrame (operation : Operation) : Frame :=
  ⟨0, operation.getCode, 0, 0, [], .empty, false⟩

/-- `setFlag`. -/
def setFlag (frame : Frame) (flag : Flag) : Frame :=
  { frame with flag := frame.flag ||| flag.getValue }

/-- `setVarHeader`. -/
def setVarHeader (frame : Frame) (key value : JString) : Frame :=
  { frame with
    varHeaders := HashMap.putIfAbsent frame.varHeaders key ⟨key, value⟩
    varHeaderSize := toInt (frame.varHeaderSize + (key.length + value.length + 5 : Nat)) }

/-- `getVarHeader`. -/
def getVarHeader (frame : Frame) (key : JString) : Option VarHeader := frame.varHeaders.find key

/-- `putData`. With `append` the new array is made and its length is kept, but not the array. It
throws when there is no array of that length. -/
def putData (frame : Frame) (data : JLib.ByteArray) (append : Bool) : Option Frame :=
  if append = false then
    some { frame with data := data, dataSize := data.bytes.length }
  else if data.bytes.length + frame.data.bytes.length < 2 ^ 31 then
    some { frame with dataSize := (data.bytes.length + frame.data.bytes.length : Nat) }
  else none

/-- `build`. -/
def build (now : Instant) (frame : Frame) : Frame :=
  { frame.setVarHeader xTimeKey (ascii now.text.bytes) with isCompleted := true }

end Frame

/-- One header in `VarHeader.toStr`. -/
def VarHeader.toStr (h : VarHeader) : JString :=
  [34] ++ h.key ++ [34, 34] ++ h.value ++ [34, 59]

/-- `VarHeader.toStr`. -/
def toStr (order : HashMap.Iteration JString VarHeader) (varHeaders : VarHeaders) : JString :=
  (order.values varHeaders).flatMap VarHeader.toStr

/-- `VarHeader.toBytes`. -/
def toBytes (order : HashMap.Iteration JString VarHeader) (varHeaders : VarHeaders)
    (varHeaderSize : Int) : Option (List Byte) :=
  let bytes := utf8 (toStr order varHeaders)
  if (bytes.length : Int) ≠ varHeaderSize then none else some bytes

/-- `DataOutputStream.writeShort`. -/
def writeShort (v : Int) : List Byte :=
  [Datatype.byteOf (BitVec.ofInt 32 v) 1, Datatype.byteOf (BitVec.ofInt 32 v) 0]

/-- `DataOutputStream.writeInt`. -/
def writeInt (v : Int) : List Byte :=
  [Datatype.byteOf (BitVec.ofInt 32 v) 3, Datatype.byteOf (BitVec.ofInt 32 v) 2,
    Datatype.byteOf (BitVec.ofInt 32 v) 1, Datatype.byteOf (BitVec.ofInt 32 v) 0]

/-- The fixed header in `Frame.writeTo`. -/
def Frame.fixedHeader (frame : Frame) : List Byte :=
  writeShort frame.varHeaderSize ++ [frame.opcode] ++ [frame.flag] ++ writeInt frame.dataSize

/-- The headers in `Frame.writeTo`. -/
def Frame.headerBytes (order : HashMap.Iteration JString VarHeader) (frame : Frame) :
    Option (List Byte) :=
  if 0 < frame.varHeaderSize then toBytes order frame.varHeaders frame.varHeaderSize else some []

/-- `Frame.writeTo`: the bytes that were written, and whether the call returned or threw. -/
def Frame.writeTo (order : HashMap.Iteration JString VarHeader) (frame : Frame) :
    List Byte × Bool :=
  if frame.isCompleted = false then ([], false)
  else
    match frame.headerBytes order with
    | none => (frame.fixedHeader, false)
    | some headers =>
        (frame.fixedHeader ++ headers ++ if 0 < frame.dataSize then frame.data.bytes else [], true)

/-- `Frame.size`. -/
def Frame.size (frame : Frame) : Int := toInt (toInt (8 + frame.varHeaderSize) + frame.dataSize)

/-- `Frame.toByteArray`: an array of the size of the frame, into which its parts are put one after
another. What they do not fill is zero; `none` when a call throws. -/
def Frame.toByteArray (order : HashMap.Iteration JString VarHeader) (frame : Frame) :
    Option (List Byte) := do
  let headers ← toBytes order frame.varHeaders frame.varHeaderSize
  let parts := frame.fixedHeader ++ headers ++ frame.data.bytes
  if (parts.length : Int) ≤ frame.size then
    some (parts ++ List.replicate (frame.size.toNat - parts.length) 0)
  else none

/-- The constructor for the parts of a frame that was read, with the charset that decodes the
headers. -/
def Frame.ofParts (charset : List Byte → JString) (opcode flag : Byte) (varHeaders : List Byte)
    (data : JLib.ByteArray) : Option Frame :=
  (fromString (charset varHeaders)).map fun m =>
    ⟨varHeaders.length, opcode, flag, data.bytes.length, m, data, false⟩

/-- `Frame.readFrom` on the bytes of a stream: the frame and the bytes that are left, and `none` when
it throws. -/
def Frame.readFrom (charset : List Byte → JString) (now : Instant) (bytes : List Byte) :
    Option (Frame × List Byte) :=
  let varHeaderSize := Datatype.be16 bytes
  let dataSize := Datatype.be32 (bytes.drop 4)
  if h : 8 + varHeaderSize + dataSize ≤ bytes.length ∧ dataSize < 2 ^ 31 then
    let data : JLib.ByteArray := ⟨(bytes.drop (8 + varHeaderSize)).take dataSize, by
      rw [List.length_take]
      omega⟩
    (ofParts charset ((bytes.drop 2).headD 0) ((bytes.drop 3).headD 0)
      ((bytes.drop 8).take varHeaderSize) data).map fun frame =>
        (frame.build now, bytes.drop (8 + varHeaderSize + dataSize))
  else none

theorem be16_writeShort (n : Nat) (rest : List Byte) :
    Datatype.be16 (writeShort n ++ rest) = n % 65536 := by
  show (Datatype.byteOf (BitVec.ofInt 32 n) 1).toNat * 256 +
    (Datatype.byteOf (BitVec.ofInt 32 n) 0).toNat = _
  rw [Datatype.toNat_byteOf, Datatype.toNat_byteOf, BitVec.ofInt_natCast, BitVec.toNat_ofNat]
  omega

theorem be32_writeInt {n : Nat} (hn : n < 2 ^ 32) (rest : List Byte) :
    Datatype.be32 (writeInt n ++ rest) = n := by
  show (((Datatype.byteOf (BitVec.ofInt 32 n) 3).toNat * 256 +
    (Datatype.byteOf (BitVec.ofInt 32 n) 2).toNat) * 256 +
    (Datatype.byteOf (BitVec.ofInt 32 n) 1).toNat) * 256 +
    (Datatype.byteOf (BitVec.ofInt 32 n) 0).toNat = _
  rw [Datatype.toNat_byteOf, Datatype.toNat_byteOf, Datatype.toNat_byteOf, Datatype.toNat_byteOf,
    BitVec.ofInt_natCast, BitVec.toNat_ofNat, Nat.mod_eq_of_lt hn]
  omega

/-- The size fields of a frame whose sizes they can hold. -/
theorem fixed_fields {frame : Frame} {n m : Nat} (hsize : frame.varHeaderSize = n) (hn : n ≤ 65535)
    (hdata : frame.dataSize = m) (hm : m < 2 ^ 31) (rest : List Byte) :
    Datatype.be16 (frame.fixedHeader ++ rest) = n ∧
      Datatype.be32 ((frame.fixedHeader ++ rest).drop 4) = m := by
  refine ⟨?_, ?_⟩
  · unfold Frame.fixedHeader
    rw [hsize, List.append_assoc, List.append_assoc, List.append_assoc, be16_writeShort]
    omega
  · show Datatype.be32 (writeInt frame.dataSize ++ rest) = _
    rw [hdata, be32_writeInt (by omega)]

/-- The order of insertion. -/
def inserted : HashMap.Iteration JString VarHeader := ⟨fun m => m.map Prod.snd, fun _ => .refl _⟩

/-- The first second of 2021, with no fraction. -/
def firstSecond : Instant :=
  ⟨.ofString "2021-01-01T00:00:00Z", by decide, by decide +kernel, by decide +kernel⟩

end Bpsp.Java
