import Bpsp.CLib.Buffer
import Bpsp.Frame.Wire

/-!
# Payloads

`frame__put_payload` with both values of `append`, with allocations that may fail and new memory of
any content. The size to allocate is computed in 32 bits, so an append that passes `2 ^ 32` shrinks
the buffer and copies behind its end. Apart from that, `payload_size`, `data_size` and `pos` are the
length of the payload after every call (`payload_calls_iff`).
-/

namespace Bpsp.Frame

open CLib

/-- Bytes whose number has 32 bits. -/
abbrev Data := {data : List Byte // data.length < 2 ^ 32}

/-- `frame__malloc_payload`. The payload of a frame is its whole buffer. -/
def mallocPayloadIn (mem : Memory Byte) (frame : Frame) (dataSize : Nat) : Status × Frame :=
  if dataSize = 0 then (.ok, frame.freePayload)
  else
    let payload :=
      if frame.payloadSize ≠ 0 then
        if frame.payloadSize ≠ dataSize then mem.realloc frame.payload dataSize
        else some frame.payload
      else mem.realloc [] dataSize
    match payload with
    | none => (.noMemory, { frame with payload := [], pos := 0, payloadSize := 0, dataSize := 0 })
    | some payload => (.ok, { frame with
        payload := payload
        pos := 0
        payloadSize := dataSize
        dataSize := dataSize })

/-- `frame__put_payload`. -/
def putPayloadIn (mem : Memory Byte) (frame : Frame) (payload : List Byte) (append : Bool) :
    Exec (Status × Frame) :=
  -- the position is saved because `frame__malloc_payload` resets it
  let pos := if append then frame.pos else 0
  let allocateSize :=
    if append then (frame.payloadSize + payload.length) % 2 ^ 32 else payload.length
  assertOk (some (frame.mallocPayloadIn mem allocateSize)) fun frame => do
    let buffer ← Memory.copy frame.payload pos payload
    some (.ok, { frame with payload := buffer, pos := (payload.length + pos) % 2 ^ 32 })

/-- The three sizes are the length of the payload. -/
structure Sized (fr : Frame) : Prop where
  payloadSize_eq : fr.payloadSize = fr.payload.length
  dataSize_eq : fr.dataSize = fr.payload.length
  pos_eq : fr.pos = fr.payload.length
  lt : fr.payload.length < 2 ^ 32

/-- A frame with another payload and the sizes that belong to it. -/
def withPayload (fr : Frame) (payload : List Byte) : Frame :=
  { fr with
    payload := payload
    payloadSize := payload.length
    dataSize := payload.length
    pos := payload.length }

@[simp] theorem withPayload_payload (fr : Frame) (payload : List Byte) :
    (fr.withPayload payload).payload = payload := rfl

theorem sized_withPayload (fr : Frame) {payload : List Byte} (h : payload.length < 2 ^ 32) :
    Sized (fr.withPayload payload) := ⟨rfl, rfl, rfl, h⟩

theorem sized_new : Sized new := ⟨rfl, rfl, rfl, by decide⟩

/-- A call that changes the payload of a frame. -/
inductive PayloadCall where
  | putPayload (data : Data) (append : Bool)
  | replacePayload (data : Data)
  | empty

namespace PayloadCall

/-- What a call does to a frame. -/
def run (mem : Memory Byte) (fr : Frame) : PayloadCall → Exec (Status × Frame)
  | .putPayload data append => fr.putPayloadIn mem data append
  | .replacePayload data => some (fr.replacePayload data)
  | .empty => some (.ok, new)

/-- What a call is for, as a function of the payload. -/
def result (payload : List Byte) : PayloadCall → List Byte
  | .putPayload data append => if append then payload ++ data else data
  | .replacePayload data => data
  | .empty => []

/-- The call is defined, and it returns an error or leaves the payload that it is for, with its
sizes. -/
def Meets (mem : Memory Byte) (fr : Frame) (call : PayloadCall) : Prop :=
  ∃ s fr', call.run mem fr = some (s, fr') ∧
    (s = .ok → fr'.payload = call.result fr.payload ∧ Sized fr')

/-- The payload does not pass `2 ^ 32` bytes by an append, or the request for the size that is left
of it is not granted. -/
def Fits (mem : Memory Byte) (fr : Frame) : PayloadCall → Prop
  | .putPayload data true => fr.payload.length + data.1.length < 2 ^ 32 ∨
      (mem.granted = false ∧ fr.payload.length + data.1.length ≠ 2 ^ 32)
  | _ => True

end PayloadCall

section Calls

variable {mem : Memory Byte} {fr : Frame}

/-- Reserving memory keeps what there is room for, or is refused and loses the payload. A request for
none, or for as much as there is, is not made. -/
theorem malloc_payload_in_cases (h : Sized fr) (n : Nat) :
    (∃ new, fr.mallocPayloadIn mem n = (.ok, { fr with
        payload := fr.payload.take n ++ new, pos := 0, payloadSize := n, dataSize := n }) ∧
      new.length = n - fr.payload.length ∧
      (mem.granted = true ∨ n = 0 ∨ n = fr.payload.length)) ∨
    (mem.granted = false ∧ n ≠ 0 ∧ fr.mallocPayloadIn mem n = (.noMemory, fr.withPayload [])) := by
  unfold mallocPayloadIn
  by_cases hn : n = 0
  · subst hn
    exact Or.inl ⟨[], by simp [freePayload], by simp, Or.inr (Or.inl rfl)⟩
  rw [if_neg hn, h.payloadSize_eq]
  by_cases hsame : n = fr.payload.length
  · -- the buffer is kept
    refine Or.inl ⟨[], ?_, by simp [hsame], Or.inr (Or.inr hsame)⟩
    rw [if_pos (by omega), if_neg (by omega), List.take_of_length_le (by omega), List.append_nil]
  cases hgranted : mem.granted with
  | false =>
      simp only [Memory.realloc_refused hgranted, if_pos (Ne.symm hsame), ite_self]
      exact Or.inr ⟨trivial, hn, rfl⟩
  | true =>
      obtain ⟨new, hnew, hlen⟩ := Memory.realloc_granted hgranted fr.payload n
      refine Or.inl ⟨new, ?_, hlen, Or.inl rfl⟩
      by_cases hsize : fr.payload.length ≠ 0
      · rw [if_pos hsize, if_pos (Ne.symm hsame), hnew]
      · have hnil : fr.payload = [] := List.length_eq_zero_iff.mp (not_not.mp hsize)
        rw [if_neg hsize, ← hnil, hnew]

/-- What a call that puts a payload can do. -/
theorem put_payload_in_cases (h : Sized fr) (data : Data) (append : Bool)
    (hroom : append = true → fr.payload.length + data.1.length < 2 ^ 32) :
    fr.putPayloadIn mem data append =
      some (.ok, fr.withPayload (if append then fr.payload ++ data else data)) ∨
    (mem.granted = false ∧
      fr.putPayloadIn mem data append = some (.noMemory, fr.withPayload [])) := by
  obtain ⟨data, hdata⟩ := data
  unfold putPayloadIn
  cases append with
  | false =>
      simp only [Bool.false_eq_true, if_false]
      rcases @malloc_payload_in_cases mem _ h data.length with ⟨new, hrun, hlen, -⟩ |
        ⟨hrefused, -, hrun⟩
      · rw [hrun, assert_ok]
        have hcopy := @Memory.copy_whole _ (fr.payload.take data.length ++ new) data
          (by simp; omega)
        simp only [hcopy, bind, Option.bind_some, Nat.add_zero, Nat.mod_eq_of_lt hdata]
        exact Or.inl rfl
      · rw [hrun, assert_fail _ _ (by decide)]
        exact Or.inr ⟨hrefused, rfl⟩
  | true =>
      have hsum := hroom rfl
      simp only [if_true, h.payloadSize_eq, h.pos_eq, Nat.mod_eq_of_lt hsum]
      rcases @malloc_payload_in_cases mem _ h (fr.payload.length + data.length) with
        ⟨new, hrun, hlen, -⟩ | ⟨hrefused, -, hrun⟩
      · rw [hrun, assert_ok]
        have hcopy := @Memory.copy_append _ fr.payload new data (by omega)
        rw [List.take_of_length_le (by omega)]
        simp only [hcopy, bind, Option.bind_some, Nat.add_comm data.length,
          Nat.mod_eq_of_lt hsum]
        refine Or.inl ?_
        simp [withPayload]
      · rw [hrun, assert_fail _ _ (by decide)]
        exact Or.inr ⟨hrefused, rfl⟩

/-- The size that an append computes when it passes `2 ^ 32` bytes. -/
theorem append_size (h : Sized fr) (data : Data)
    (hfull : 2 ^ 32 ≤ fr.payload.length + data.1.length) :
    (fr.payloadSize + data.1.length) % 2 ^ 32 = fr.payload.length + data.1.length - 2 ^ 32 := by
  have hlt := h.lt
  have hdata := data.2
  rw [h.payloadSize_eq]
  omega

/-- An append that passes `2 ^ 32` bytes asks for too little memory, and what it gets is written
behind its end. -/
theorem append_outside (h : Sized fr) (data : Data)
    (hfull : 2 ^ 32 ≤ fr.payload.length + data.1.length)
    (hgranted : mem.granted = false → fr.payload.length + data.1.length = 2 ^ 32) :
    fr.putPayloadIn mem data true = none := by
  have hlt := h.lt
  have hdata := data.2
  unfold putPayloadIn
  simp only [if_true, h.pos_eq, append_size h data hfull]
  rcases @malloc_payload_in_cases mem _ h (fr.payload.length + data.1.length - 2 ^ 32) with
    ⟨new, hrun, hlen, -⟩ | ⟨hrefused, hne, -⟩
  · have hcopy : Memory.copy (fr.payload.take (fr.payload.length + data.1.length - 2 ^ 32) ++ new)
        fr.payload.length data.1 = none := by
      refine Memory.copy_outside ?_ ?_
      · exact fun hnil => by simp only [hnil, List.length_nil] at hfull; omega
      · simp only [List.length_append, List.length_take]
        omega
    rw [hrun, assert_ok]
    simp only [hcopy, bind, Option.bind_none]
  · exact absurd (hgranted hrefused) (by omega)

/-- An append that passes `2 ^ 32` bytes may also be refused the little that it asks for. -/
theorem append_refused (h : Sized fr) (data : Data)
    (hfull : 2 ^ 32 ≤ fr.payload.length + data.1.length) (hrefused : mem.granted = false)
    (hne : fr.payload.length + data.1.length ≠ 2 ^ 32) :
    fr.putPayloadIn mem data true = some (.noMemory, fr.withPayload []) := by
  have hdata := data.2
  unfold putPayloadIn
  simp only [if_true, append_size h data hfull]
  rcases @malloc_payload_in_cases mem _ h (fr.payload.length + data.1.length - 2 ^ 32) with
    ⟨new, -, -, hgranted | hzero | hsame⟩ | ⟨-, -, hrun⟩
  · rw [hrefused] at hgranted
    cases hgranted
  · omega
  · omega
  · rw [hrun, assert_fail _ _ (by decide)]

/-- A call does what it is for exactly when it does not pass `2 ^ 32` bytes. -/
theorem payload_call_iff (h : Sized fr) (call : PayloadCall) :
    call.Meets mem fr ↔ call.Fits mem fr := by
  cases call with
  | putPayload data append =>
      cases append with
      | false =>
          refine iff_of_true ?_ trivial
          rcases @put_payload_in_cases mem _ h data false (by simp) with hrun | ⟨-, hrun⟩
          · exact ⟨_, _, hrun, fun _ => ⟨rfl, sized_withPayload fr data.2⟩⟩
          · exact ⟨_, _, hrun, fun hs => by cases hs⟩
      | true =>
          by_cases hroom : fr.payload.length + data.1.length < 2 ^ 32
          · refine iff_of_true ?_ (Or.inl hroom)
            rcases @put_payload_in_cases mem _ h data true (fun _ => hroom) with
              hrun | ⟨-, hrun⟩
            · refine ⟨_, _, hrun, fun _ => ⟨rfl, sized_withPayload fr ?_⟩⟩
              rwa [if_pos rfl, List.length_append]
            · exact ⟨_, _, hrun, fun hs => by cases hs⟩
          · by_cases hfits : (PayloadCall.putPayload data true).Fits mem fr
            · refine iff_of_true ?_ hfits
              obtain ⟨hrefused, hne⟩ := hfits.resolve_left hroom
              exact ⟨_, _, append_refused h data (by omega) hrefused hne, fun hs => by cases hs⟩
            · refine iff_of_false ?_ hfits
              rintro ⟨s, fr', hrun, -⟩
              have hout := @append_outside mem _ h data (by omega) fun hrefused =>
                not_not.mp fun hne => hfits (Or.inr ⟨hrefused, hne⟩)
              rw [show (PayloadCall.putPayload data true).run mem fr =
                fr.putPayloadIn mem data true from rfl, hout] at hrun
              cases hrun
  | replacePayload data =>
      exact iff_of_true ⟨_, _, rfl, fun _ => ⟨rfl, sized_withPayload fr data.2⟩⟩ trivial
  | empty => exact iff_of_true ⟨_, _, rfl, fun _ => ⟨rfl, sized_new⟩⟩ trivial

/-- After every call, also one that returned an error, the sizes are the length of the payload. -/
theorem payload_call_sized (h : Sized fr) {call : PayloadCall} {r : Status × Frame}
    (hrun : call.run mem fr = some r) : Sized r.2 := by
  cases call with
  | putPayload data append =>
      by_cases hroom : append = true → fr.payload.length + data.1.length < 2 ^ 32
      · rcases @put_payload_in_cases mem _ h data append hroom with hput | ⟨-, hput⟩
        · rw [← Option.some.inj (hput.symm.trans hrun)]
          refine sized_withPayload fr ?_
          cases append with
          | false => exact data.2
          | true => simpa using hroom rfl
        · rw [← Option.some.inj (hput.symm.trans hrun)]
          exact sized_withPayload fr (by decide)
      · -- an append that wraps and returns was refused
        obtain ⟨rfl, hfull⟩ := Classical.not_imp.mp hroom
        by_cases hout : mem.granted = false → fr.payload.length + data.1.length = 2 ^ 32
        · cases (@append_outside mem _ h data (by omega) hout).symm.trans hrun
        · obtain ⟨hrefused, hne⟩ := Classical.not_imp.mp hout
          rw [← Option.some.inj
            ((append_refused h data (by omega) hrefused hne).symm.trans hrun)]
          exact sized_withPayload fr (by decide)
  | replacePayload data =>
      rw [← Option.some.inj hrun]
      exact sized_withPayload fr data.2
  | empty =>
      rw [← Option.some.inj hrun]
      exact sized_new

end Calls

/-- Every call of a sequence does what it is for, at the frame that it is made on. -/
def AllMeet : Frame → List (Memory Byte × PayloadCall) → Prop
  | _, [] => True
  | fr, (mem, call) :: calls =>
      call.Meets mem fr ∧ ∀ r, call.run mem fr = some r → AllMeet r.2 calls

/-- No call of a sequence passes `2 ^ 32` bytes. -/
def AllFit : Frame → List (Memory Byte × PayloadCall) → Prop
  | _, [] => True
  | fr, (mem, call) :: calls =>
      call.Fits mem fr ∧ ∀ r, call.run mem fr = some r → AllFit r.2 calls

theorem all_meet_iff (calls : List (Memory Byte × PayloadCall)) : ∀ {fr : Frame}, Sized fr →
    (AllMeet fr calls ↔ AllFit fr calls) := by
  induction calls with
  | nil => exact fun _ => Iff.rfl
  | cons c calls ih =>
      intro fr h
      obtain ⟨mem, call⟩ := c
      refine and_congr (payload_call_iff h call) (forall_congr' fun r => ?_)
      exact imp_congr_right fun hrun => ih (payload_call_sized h hrun)

/-- In every sequence of calls on a frame, all of them return an error or do what they are for, within
the allocated payload, exactly when no append passes `2 ^ 32` bytes and gets the memory for the size
that is left. -/
theorem payload_calls_iff (calls : List (Memory Byte × PayloadCall)) :
    AllMeet new calls ↔ AllFit new calls := all_meet_iff calls sized_new

/-- Two payloads that have `2 ^ 32` bytes together cannot be put one after the other. -/
theorem append_wraps {a b : Data} {m n : Nat} (ha : a.1.length = m) (hb : b.1.length = n)
    (hfull : 2 ^ 32 ≤ m + n) (fresh : Nat → Byte) : ¬ AllMeet new
      [(⟨true, fresh⟩, .putPayload a false), (⟨true, fresh⟩, .putPayload b true)] := by
  rintro ⟨-, h⟩
  rcases @put_payload_in_cases ⟨true, fresh⟩ _ sized_new a false (by simp) with
    hrun | ⟨hrefused, -⟩
  · obtain ⟨hmeets, -⟩ := h _ hrun
    have hsized := @payload_call_sized _ _ sized_new (.putPayload a false) _ hrun
    rcases (payload_call_iff hsized _).mp hmeets with hroom | ⟨hrefused, -⟩
    · rw [if_neg (by decide), withPayload_payload] at hroom
      omega
    · cases hrefused
  · cases hrefused

/-- The largest payload. -/
def largest : Data :=
  ⟨List.replicate (2 ^ 32 - 1) 0, by simp only [List.length_replicate]; omega⟩

/-- A payload of one byte. -/
def single : Data := ⟨[0], by simp⟩

/-- One byte cannot be appended to the largest payload. -/
theorem payload_calls_wrap : ¬ AllMeet new
    [(⟨true, fun _ => 0⟩, .putPayload largest false), (⟨true, fun _ => 0⟩, .putPayload single true)] :=
  append_wraps (m := 2 ^ 32 - 1) (n := 1) List.length_replicate List.length_singleton (by decide) _

/-- Putting a payload in the place of another one, when there is memory. -/
theorem put_payload_in_eq {mem : Memory Byte} (hgranted : mem.granted = true) {fr : Frame}
    (h : Sized fr) (data : Data) :
    fr.putPayloadIn mem data false = some (fr.putPayload data) := by
  rcases @put_payload_in_cases mem _ h data false (by simp) with hrun | ⟨hrefused, -⟩
  · rw [hrun, put_payload_eq]
    rfl
  · rw [hgranted] at hrefused
    cases hrefused

end Bpsp.Frame
