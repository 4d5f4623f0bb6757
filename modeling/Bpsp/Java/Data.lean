import Bpsp.Java.Frame

/-!
# The data of a Java frame

With `append`, `putData` copies the old and the new array into one of their size, keeps the size and
drops the array. So the data are what was put exactly when nothing but empty arrays was appended
since they were put (`put_data_iff`). Then `writeTo` and `toByteArray` both write the size of what
follows (`serialises`).
-/

namespace Bpsp.Java

open CLib JLib Bpsp.Frame

/-- A call of `putData`: the array and `append`. -/
abbrev DataCall := JLib.ByteArray × Bool

/-- Calls one after another; `none` when one throws. -/
def putAllData : Frame → List DataCall → Option Frame
  | frame, [] => some frame
  | frame, (data, append) :: calls => do
      let frame ← frame.putData data append
      putAllData frame calls

/-- The concatenation of the arrays since the last call that does not append. -/
def content : List Byte → List DataCall → List Byte
  | held, [] => held
  | held, (data, append) :: calls =>
      content (if append then held ++ data.bytes else data.bytes) calls

/-- The arrays that were appended since the last call that does not append. -/
def appended : List (List Byte) → List DataCall → List (List Byte)
  | arrays, [] => arrays
  | arrays, (data, append) :: calls =>
      appended (if append then arrays ++ [data.bytes] else []) calls

/-- For every append there is an array of the size of the data and the array that is appended. -/
def Allocates : Nat → List DataCall → Prop
  | _, [] => True
  | held, (data, append) :: calls =>
      if append then data.bytes.length + held < 2 ^ 31 ∧ Allocates held calls
      else Allocates data.bytes.length calls

/-- The serialisers write the payload, and its length before the headers. -/
structure Serialises (order : HashMap.Iteration JString VarHeader) (frame : Frame)
    (payload : List Byte) : Prop where
  size : Datatype.be32 (frame.fixedHeader.drop 4) = payload.length
  write : ∀ headers, frame.isCompleted = true → frame.headerBytes order = some headers →
    frame.writeTo order = (frame.fixedHeader ++ headers ++ payload, true)
  array : ∀ bytes, frame.toByteArray order = some bytes →
    ∃ headers, (headers.length : Int) = frame.varHeaderSize ∧
      bytes = frame.fixedHeader ++ headers ++ payload

/-- The calls return, and the frame has the data that were put, with their size, and writes them. -/
def Stores (order : HashMap.Iteration JString VarHeader) (frame : Frame) (calls : List DataCall) :
    Prop :=
  ∃ frame', putAllData frame calls = some frame' ∧
    frame'.data.bytes = content frame.data.bytes calls ∧
    frame'.dataSize = (content frame.data.bytes calls).length ∧
    Serialises order frame' (content frame.data.bytes calls)

/-- What was put is what is held and what was appended, and only the last array was counted. -/
structure Held (frame : Frame) (put : List Byte) (arrays : List (List Byte)) : Prop where
  put_eq : put = frame.data.bytes ++ arrays.flatten
  size : frame.dataSize = (frame.data.bytes.length + (arrays.getLastD []).length : Nat)

section Calls

variable {frame frame' : Frame}

theorem Held.put {put : List Byte} {arrays : List (List Byte)} (h : Held frame put arrays)
    {data : JLib.ByteArray} {append : Bool} (hrun : frame.putData data append = some frame') :
    Held frame' (if append then put ++ data.bytes else data.bytes)
      (if append then arrays ++ [data.bytes] else []) := by
  unfold Frame.putData at hrun
  cases append with
  | false =>
      rw [if_pos rfl] at hrun
      rw [← Option.some.inj hrun]
      exact ⟨by simp, by simp⟩
  | true =>
      rw [if_neg (by decide)] at hrun
      split_ifs at hrun
      rw [← Option.some.inj hrun]
      refine ⟨by simp [h.put_eq], ?_⟩
      simp only [if_true, List.getLastD_concat]
      omega

theorem held_run (calls : List DataCall) : ∀ {frame : Frame} {put : List Byte}
    {arrays : List (List Byte)}, Held frame put arrays → putAllData frame calls = some frame' →
    Held frame' (content put calls) (appended arrays calls) := by
  induction calls with
  | nil =>
      intro frame put arrays h hrun
      rw [← Option.some.inj hrun]
      exact h
  | cons c calls ih =>
      intro frame put arrays h hrun
      obtain ⟨data, append⟩ := c
      obtain ⟨mid, hput, hrest⟩ := Option.bind_eq_some_iff.mp hrun
      exact ih (h.put hput) hrest

/-- The calls return exactly when there is an array for every append. -/
theorem put_all_isSome_iff (calls : List DataCall) : ∀ frame : Frame,
    (∃ frame', putAllData frame calls = some frame') ↔
      Allocates frame.data.bytes.length calls := by
  induction calls with
  | nil => exact fun frame => ⟨fun _ => trivial, fun _ => ⟨frame, rfl⟩⟩
  | cons c calls ih =>
      intro frame
      obtain ⟨data, append⟩ := c
      unfold putAllData Allocates Frame.putData
      cases append with
      | false => exact ih { frame with data := data, dataSize := data.bytes.length }
      | true =>
          by_cases hroom : data.bytes.length + frame.data.bytes.length < 2 ^ 31
          · simp only [hroom, if_true, true_and, Bool.true_eq_false, if_false, bind, Option.bind_some]
            exact ih { frame with
              dataSize := (data.bytes.length + frame.data.bytes.length : Nat) }
          · simp only [hroom, if_true, false_and, Bool.true_eq_false, if_false, bind,
              Option.bind_none, reduceCtorEq, exists_false]

/-- A frame that knows the size of its data serialises them. -/
theorem serialises {order : HashMap.Iteration JString VarHeader}
    (hsize : frame.dataSize = frame.data.bytes.length) :
    Serialises order frame frame.data.bytes where
  size := by
    have hlen := frame.data.length_lt
    have hwrite := be32_writeInt (n := frame.data.bytes.length) (by omega) []
    show Datatype.be32 (writeInt frame.dataSize) = _
    rwa [hsize, ← List.append_nil (writeInt _)]
  write headers hdone hheaders := by
    have hdata : (if 0 < frame.dataSize then frame.data.bytes else []) = frame.data.bytes := by
      by_cases hpos : 0 < frame.dataSize
      · rw [if_pos hpos]
      · have hnil : frame.data.bytes = [] := List.length_eq_zero_iff.mp (by omega)
        rw [if_neg hpos, hnil]
    unfold Frame.writeTo
    rw [if_neg (by simp [hdone]), hheaders]
    dsimp only
    rw [hdata]
  array bytes hbytes := by
    obtain ⟨headers, hheaders, hbytes⟩ := Option.bind_eq_some_iff.mp hbytes
    have hlen : (headers.length : Int) = frame.varHeaderSize := by
      unfold toBytes at hheaders
      dsimp only at hheaders
      split_ifs at hheaders with hne
      rw [← Option.some.inj hheaders]
      exact not_not.mp hne
    dsimp only at hbytes
    split_ifs at hbytes with hroom
    -- the parts fill the array
    have hparts : (frame.fixedHeader ++ headers ++ frame.data.bytes).length =
        8 + headers.length + frame.data.bytes.length := by
      simp only [Frame.fixedHeader, writeShort, writeInt, List.length_append, List.length_cons,
        List.length_nil]
    rw [hparts] at hroom hbytes
    have hfull : frame.size = (8 + headers.length + frame.data.bytes.length : Nat) := by
      unfold Frame.size at hroom ⊢
      rw [toInt_add, ← hlen, hsize] at hroom ⊢
      obtain ⟨⟨k, hk⟩, -, hhigh⟩ :=
        toInt_range (8 + (headers.length : Int) + (frame.data.bytes.length : Int))
      omega
    refine ⟨headers, hlen, ?_⟩
    rw [← Option.some.inj hbytes, hfull]
    simp

end Calls

/-- Calls of `putData` on a frame that knows the size of its data return and store the concatenation
exactly when there is an array for every append and only empty arrays were appended in the end. -/
theorem put_data_iff (order : HashMap.Iteration JString VarHeader) {frame : Frame}
    (h : frame.dataSize = frame.data.bytes.length) (calls : List DataCall) :
    Stores order frame calls ↔
      Allocates frame.data.bytes.length calls ∧ ∀ data ∈ appended [] calls, data = [] := by
  have hstart : Held frame frame.data.bytes [] := ⟨by simp, by simpa using h⟩
  rw [← put_all_isSome_iff]
  constructor
  · rintro ⟨frame', hrun, hdata, -, -⟩
    have hheld := held_run calls hstart hrun
    have hput := hheld.put_eq
    rw [hdata] at hput
    exact ⟨⟨frame', hrun⟩, List.flatten_eq_nil_iff.mp (List.self_eq_append_right.mp hput)⟩
  · rintro ⟨⟨frame', hrun⟩, hempty⟩
    obtain ⟨hput, hsize⟩ := held_run calls hstart hrun
    rw [List.flatten_eq_nil_iff.mpr hempty, List.append_nil] at hput
    have hlast : (appended [] calls).getLastD [] = [] := by
      rcases List.eq_nil_or_concat (appended [] calls) with hnil | ⟨arrays, data, harrays⟩
      · rw [hnil]
        rfl
      · rw [harrays, List.concat_eq_append, List.getLastD_concat]
        exact hempty data (by rw [harrays]; simp)
    rw [hlast] at hsize
    refine ⟨frame', hrun, hput.symm, by rw [hput]; simpa using hsize, ?_⟩
    rw [hput]
    exact serialises (by simpa using hsize)

/-- Arrays of one and of no byte. -/
def single (b : Byte) : JLib.ByteArray := ⟨[b], by simp⟩

/-- A frame to which an empty array is appended keeps its data. -/
theorem put_data_empty : Stores inserted (Frame.newFrame .pub)
    [(single 97, false), (.empty, true)] := by
  refine (put_data_iff inserted (by rfl) _).mpr ⟨?_, ?_⟩
  · exact ⟨by decide, trivial⟩
  · simp [appended, JLib.ByteArray.empty]

/-- The array that is appended is lost. -/
theorem put_data_lost : ¬ Stores inserted (Frame.newFrame .pub)
    [(single 97, false), (single 98, true)] := by
  rintro ⟨frame', hrun, hdata, -, -⟩
  obtain ⟨hput, -⟩ := @held_run _ _ _ [] [] ⟨rfl, rfl⟩ hrun
  rw [hdata] at hput
  exact absurd hput (by decide)

end Bpsp.Java
