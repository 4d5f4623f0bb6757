import Bpsp.CLib.CString
import Bpsp.Status

/-!
# Reading and writing on a connection

`net__read` and `net__write` of `lib/net.c`. The kernel is free in how many bytes it moves at each
`send` and `recv`; `Kernel` lists its answers to the successive calls. When it never fails, the
loops move everything they were asked to, in whatever pieces (`write_spec`, `read_eq`).
-/

namespace Bpsp.Net

open CLib

/-- The answers of the kernel to the `i`-th `send` and `recv` on a connection: at most this many
bytes are moved, and `none` is an error. -/
structure Kernel where
  send : Nat → Option Nat
  recv : Nat → Option Nat

/-- The bytes under way on a connection, and the numbers of calls made so far. An empty inbox
stands for a peer that has closed the connection. -/
structure Conn where
  inbox : List Byte
  outbox : List Byte
  sends : Nat
  recvs : Nat

/-- The loop of `net__read`; `buf` holds the bytes read so far. A turn that does not end the loop
reads at least one byte. -/
def readLoop (kernel : Kernel) (size : Nat) (block : Bool) :
    Nat → Conn → List Byte → Status × List Byte × Conn
  | 0, conn, buf => (.ok, buf, conn)
  | fuel + 1, conn, buf =>
      if buf.length < size then
        match kernel.recv conn.recvs with
        | none => (.ioError, buf, { conn with recvs := conn.recvs + 1 })
        | some limit =>
            let n := min (min limit (size - buf.length)) conn.inbox.length
            let conn' := { conn with inbox := conn.inbox.drop n, recvs := conn.recvs + 1 }
            if n = 0 then (.connectionClosed, buf, conn')
            else if block then readLoop kernel size block fuel conn' (buf ++ conn.inbox.take n)
            else (.ok, buf ++ conn.inbox.take n, conn')
      else (.ok, buf, conn)

/-- `net__read`: the status and the bytes read, whose number is `n_read`. -/
def read (kernel : Kernel) (conn : Conn) (size : Nat) (block : Bool) : Status × List Byte × Conn :=
  readLoop kernel size block size conn []

/-- The loop of `net__write`; `rest` are the bytes not yet written. -/
def writeLoop (kernel : Kernel) (block : Bool) : Nat → Conn → List Byte → Status × Conn
  | 0, conn, _ => (.ok, conn)
  | fuel + 1, conn, rest =>
      if rest ≠ [] then
        match kernel.send conn.sends with
        | none => (.ioError, { conn with sends := conn.sends + 1 })
        | some limit =>
            let n := min limit rest.length
            let conn := { conn with outbox := conn.outbox ++ rest.take n, sends := conn.sends + 1 }
            if n = 0 then (.connectionClosed, conn)
            else if block then writeLoop kernel block fuel conn (rest.drop n)
            else (.ok, conn)
      else (.ok, conn)

/-- `net__write`. -/
def write (kernel : Kernel) (conn : Conn) (buf : List Byte) (block : Bool) : Status × Conn :=
  writeLoop kernel block buf.length conn buf

/-- The kernel moves at least one byte at every call. -/
structure Kernel.Reliable (kernel : Kernel) : Prop where
  send : ∀ i, ∃ k, kernel.send i = some (k + 1)
  recv : ∀ i, ∃ k, kernel.recv i = some (k + 1)

theorem write_loop_spec {kernel : Kernel} (h : kernel.Reliable) {fuel : Nat} {conn : Conn}
    {rest : List Byte} (hfuel : rest.length ≤ fuel) :
    ∃ n, writeLoop kernel true fuel conn rest =
      (.ok, { conn with outbox := conn.outbox ++ rest, sends := n }) := by
  induction fuel generalizing conn rest with
  | zero =>
      obtain rfl : rest = [] := List.length_eq_zero_iff.mp (by omega)
      exact ⟨conn.sends, by simp [writeLoop]⟩
  | succ fuel ih =>
      by_cases hrest : rest = []
      · exact ⟨conn.sends, by simp [writeLoop, hrest]⟩
      · obtain ⟨k, hk⟩ := h.send conn.sends
        have hpos : 0 < rest.length := List.length_pos_iff.mpr hrest
        obtain ⟨n, hn⟩ := @ih
          { conn with outbox := conn.outbox ++ rest.take (min (k + 1) rest.length)
                      sends := conn.sends + 1 } (rest.drop (min (k + 1) rest.length)) (by
            rw [List.length_drop]
            omega)
        refine ⟨n, ?_⟩
        rw [writeLoop, if_pos hrest, hk]
        simp only []
        rw [if_neg (by omega), if_pos trivial, hn]
        simp

/-- Writing to a reliable kernel hands over all bytes in order. -/
theorem write_spec {kernel : Kernel} (h : kernel.Reliable) (conn : Conn) (buf : List Byte) :
    ∃ n, write kernel conn buf true =
      (.ok, { conn with outbox := conn.outbox ++ buf, sends := n }) :=
  write_loop_spec h (Nat.le_refl _)

/-- The kernel returns at least one byte at every `recv` while there are some. -/
def Kernel.Receives (kernel : Kernel) : Prop := ∀ i, ∃ k, kernel.recv i = some (k + 1)

theorem read_loop_spec {kernel : Kernel} (h : kernel.Receives) {size fuel : Nat} {conn : Conn}
    {buf : List Byte} (hbuf : buf.length ≤ size) (hfuel : size - buf.length ≤ fuel) :
    ∃ n, readLoop kernel size true fuel conn buf =
      (if size - buf.length ≤ conn.inbox.length then .ok else .connectionClosed,
        buf ++ conn.inbox.take (size - buf.length),
        { conn with inbox := conn.inbox.drop (size - buf.length), recvs := n }) := by
  induction fuel generalizing conn buf with
  | zero =>
      have hdone : size - buf.length = 0 := by omega
      exact ⟨conn.recvs, by simp [readLoop, hdone]⟩
  | succ fuel ih =>
      by_cases hmore : buf.length < size
      · obtain ⟨k, hk⟩ := h conn.recvs
        rw [readLoop, if_pos hmore, hk]
        dsimp only
        by_cases hempty : conn.inbox.length = 0
        · have hnil : conn.inbox = [] := List.length_eq_zero_iff.mp hempty
          refine ⟨conn.recvs + 1, ?_⟩
          rw [if_pos (by omega), if_neg (by omega)]
          simp [hnil]
        · -- some bytes are moved, and the loop goes on with what is missing
          obtain ⟨m, hm⟩ : ∃ m, m = min (min (k + 1) (size - buf.length)) conn.inbox.length :=
            ⟨_, rfl⟩
          rw [← hm, if_neg (by omega), if_pos rfl]
          have hlen : (buf ++ conn.inbox.take m).length = buf.length + m := by
            rw [List.length_append, List.length_take]
            omega
          obtain ⟨n, hrun⟩ := @ih { conn with inbox := conn.inbox.drop m, recvs := conn.recvs + 1 }
            (buf ++ conn.inbox.take m) (by omega) (by omega)
          refine ⟨n, hrun.trans ?_⟩
          have hrest : size - (buf.length + m) = size - buf.length - m := by omega
          have hbytes : conn.inbox.take m ++ (conn.inbox.drop m).take (size - buf.length - m) =
              conn.inbox.take (size - buf.length) := by
            rw [← List.take_add, show m + (size - buf.length - m) = size - buf.length by omega]
          rw [hlen, hrest, List.append_assoc, hbytes, List.drop_drop,
            show m + (size - buf.length - m) = size - buf.length by omega, List.length_drop]
          congr 1
          exact if_congr (by omega) rfl rfl
      · have hdone : size - buf.length = 0 := by omega
        refine ⟨conn.recvs, ?_⟩
        rw [readLoop, if_neg hmore]
        simp [hdone]

/-- Reading returns the next bytes of the stream, in whatever pieces they come, and fails when the
stream ends before. -/
theorem read_eq {kernel : Kernel} (h : kernel.Receives) (conn : Conn) (size : Nat) :
    ∃ n, read kernel conn size true =
      (if size ≤ conn.inbox.length then .ok else .connectionClosed, conn.inbox.take size,
        { conn with inbox := conn.inbox.drop size, recvs := n }) := by
  have hrun := @read_loop_spec kernel h size size conn [] (Nat.zero_le _) (Nat.le_refl _)
  simpa [read] using hrun

/-- Reading from a reliable kernel returns the next bytes of the stream and no more. -/
theorem read_spec {kernel : Kernel} (h : kernel.Reliable) {conn : Conn} {data rest : List Byte}
    (hinbox : conn.inbox = data ++ rest) :
    ∃ n, read kernel conn data.length true =
      (.ok, data, { conn with inbox := rest, recvs := n }) := by
  obtain ⟨n, hrun⟩ := read_eq h.recv conn data.length
  refine ⟨n, ?_⟩
  rw [hrun, hinbox, if_pos (by simp), List.take_left, List.drop_left]

/-- No more than `size` bytes are read. -/
theorem read_loop_length {kernel : Kernel} {size : Nat} {block : Bool} (fuel : Nat) :
    ∀ {conn : Conn} {buf : List Byte}, buf.length ≤ size →
      (readLoop kernel size block fuel conn buf).2.1.length ≤ size := by
  induction fuel with
  | zero => exact fun h => h
  | succ fuel ih =>
      intro conn buf h
      unfold readLoop
      by_cases hmore : buf.length < size
      · rw [if_pos hmore]
        cases kernel.recv conn.recvs with
        | none => exact h
        | some limit =>
            have htake : (buf ++ conn.inbox.take
                (min (min limit (size - buf.length)) conn.inbox.length)).length ≤ size := by
              rw [List.length_append, List.length_take]
              omega
            dsimp only
            split_ifs
            · exact h
            · exact ih htake
            · exact htake
      · rw [if_neg hmore]
        exact h

theorem read_length (kernel : Kernel) (conn : Conn) (size : Nat) (block : Bool) :
    (read kernel conn size block).2.1.length ≤ size := read_loop_length size (Nat.zero_le _)

end Bpsp.Net
