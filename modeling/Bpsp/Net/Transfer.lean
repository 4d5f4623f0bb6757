import Bpsp.Net

/-!
# The entry points of net.c

`net__read`, `net__write` and their variants with `_lock` as they are called: with pointers that may
be NULL, a size that may be negative, the buffer in memory and the counter `*n_read` or `*n_write`.
Whatever the kernel answers, a blocking call moves a prefix (`net_read_fills`, `net_write_sends`).
`net__write_lock` calls `net__read`, so it receives where it should send (`transfers_iff`).
-/

namespace Bpsp.Net

open CLib

/-- What a call works on: the connection and the buffer, where `none` is NULL, and the counter. -/
structure Transfer where
  conn : Option Conn
  buf : Option (List Byte)
  n : Int

/-- `recv(2)` of at most `len` bytes: the bytes received, or `none` for an error. -/
def Kernel.recvUpTo (kernel : Kernel) (conn : Conn) (len : Nat) : Option (List Byte) × Conn :=
  match kernel.recv conn.recvs with
  | none => (none, { conn with recvs := conn.recvs + 1 })
  | some limit =>
      let n := min (min limit len) conn.inbox.length
      (some (conn.inbox.take n),
        { conn with inbox := conn.inbox.drop n, recvs := conn.recvs + 1 })

/-- `send(2)` of these bytes: the number of bytes sent, or `none` for an error. -/
def Kernel.sendUpTo (kernel : Kernel) (conn : Conn) (data : List Byte) : Option Nat × Conn :=
  match kernel.send conn.sends with
  | none => (none, { conn with sends := conn.sends + 1 })
  | some limit =>
      let n := min limit data.length
      (some n, { conn with outbox := conn.outbox ++ data.take n, sends := conn.sends + 1 })

/-- The loop of `net__read`, with `n` for `*n_read`. -/
def netReadLoop (kernel : Kernel) (size : Nat) (block : Bool) :
    Nat → Conn → List Byte → Nat → Exec (Status × Conn × List Byte × Nat)
  | 0, _, _, _ => none
  | fuel + 1, conn, buf, n =>
      if n < size then
        match kernel.recvUpTo conn (size - n) with
        | (none, conn) => some (.ioError, conn, buf, n)
        | (some data, conn) =>
            if data.length = 0 then some (.connectionClosed, conn, buf, n)
            else
              let buf := buf.take n ++ data ++ buf.drop (n + data.length)
              if block then netReadLoop kernel size block fuel conn buf (n + data.length)
              else some (.ok, conn, buf, n + data.length)
      else some (.ok, conn, buf, n)

/-- `net__read`. -/
def netRead (kernel : Kernel) (t : Transfer) (size : Int) (block : Bool) :
    Exec (Status × Transfer) :=
  let t := { t with n := 0 }
  if size ≤ 0 then some (.ok, t)
  else do
    -- `assert(buf)`, and the loop reads `conn->sockfd`
    let buf ← t.buf
    let conn ← t.conn
    let (s, conn, buf, n) ← netReadLoop kernel size.toNat block (size.toNat + 1) conn buf 0
    some (s, ⟨some conn, some buf, n⟩)

/-- The loop of `net__write`, with `n` for `*n_write`. -/
def netWriteLoop (kernel : Kernel) (size : Nat) (block : Bool) (buf : List Byte) :
    Nat → Conn → Nat → Exec (Status × Conn × Nat)
  | 0, _, _ => none
  | fuel + 1, conn, n =>
      if n < size then
        match kernel.sendUpTo conn ((buf.drop n).take (size - n)) with
        | (none, conn) => some (.ioError, conn, n)
        | (some sent, conn) =>
            if sent = 0 then some (.connectionClosed, conn, n)
            else if block then netWriteLoop kernel size block buf fuel conn (n + sent)
            else some (.ok, conn, n + sent)
      else some (.ok, conn, n)

/-- `net__write`. -/
def netWrite (kernel : Kernel) (t : Transfer) (size : Int) (block : Bool) :
    Exec (Status × Transfer) :=
  match t.conn with
  | none => some (.invalidArg, t)
  | some conn =>
      let t := { t with n := 0 }
      if size ≤ 0 then some (.ok, t)
      else
        match t.buf with
        | none => some (.invalidArg, t)
        | some buf => do
            let (s, conn, n) ← netWriteLoop kernel size.toNat block buf (size.toNat + 1) conn 0
            some (s, ⟨some conn, some buf, n⟩)

/-- `net__read_lock`. -/
def netReadLock (kernel : Kernel) (t : Transfer) (size : Int) (block : Bool) :
    Exec (Status × Transfer) :=
  match t.conn with
  | none => some (.invalidArg, t)
  | some _ => netRead kernel t size block

/-- `net__write_lock`, which calls `net__read`. -/
def netWriteLock (kernel : Kernel) (t : Transfer) (size : Int) (block : Bool) :
    Exec (Status × Transfer) :=
  match t.conn with
  | none => some (.invalidArg, t)
  | some _ => netRead kernel t size block

/-- The functions that move bytes. -/
inductive EntryPoint where
  | read
  | readLock
  | write
  | writeLock
  deriving DecidableEq

/-- The function that is called. -/
def EntryPoint.call (kernel : Kernel) (t : Transfer) (size : Int) (block : Bool) :
    EntryPoint → Exec (Status × Transfer)
  | .read => netRead kernel t size block
  | .readLock => netReadLock kernel t size block
  | .write => netWrite kernel t size block
  | .writeLock => netWriteLock kernel t size block

/-- The next bytes of the stream were put at the start of the buffer, and they fill it exactly when
the status is `BPSP_OK`. -/
def Fills (conn : Conn) (buf : List Byte) (size : Int) (s : Status) (t : Transfer) : Prop :=
  ∃ k : Nat, k ≤ size.toNat ∧ k ≤ conn.inbox.length ∧
    (∃ conn', t.conn = some conn' ∧ conn'.inbox = conn.inbox.drop k) ∧
    t.buf = some (conn.inbox.take k ++ buf.drop k) ∧ t.n = k ∧ (s = .ok ↔ k = size.toNat)

/-- A prefix of the buffer was sent, and it is the whole buffer exactly when the status is
`BPSP_OK`. -/
def Sends (conn : Conn) (buf : List Byte) (size : Int) (s : Status) (t : Transfer) : Prop :=
  ∃ k : Nat, k ≤ size.toNat ∧
    (∃ conn', t.conn = some conn' ∧ conn'.outbox = conn.outbox ++ buf.take k) ∧
    t.n = k ∧ (s = .ok ↔ k = size.toNat)

/-- What the name of a function promises. -/
def EntryPoint.Promised (conn : Conn) (buf : List Byte) (size : Int) (s : Status) (t : Transfer) :
    EntryPoint → Prop
  | .read => Fills conn buf size s t
  | .readLock => Fills conn buf size s t
  | .write => Sends conn buf size s t
  | .writeLock => Sends conn buf size s t

/-- The next `recv` on the connection is an error or returns 0. -/
def NothingReceived (kernel : Kernel) (conn : Conn) : Prop :=
  kernel.recv conn.recvs = none ∨ kernel.recv conn.recvs = some 0 ∨ conn.inbox = []

section Loops

variable {kernel : Kernel} {size : Nat} {block : Bool}

/-- The loop of `net__read` is `readLoop`, with the bytes written into the buffer. -/
theorem net_read_loop_eq (fuel : Nat) : ∀ {conn : Conn} {data buf : List Byte},
    data.length ≤ size → size - data.length ≤ fuel →
    netReadLoop kernel size block (fuel + 1) conn (data ++ buf.drop data.length) data.length =
      some ((readLoop kernel size block fuel conn data).1,
        (readLoop kernel size block fuel conn data).2.2,
        (readLoop kernel size block fuel conn data).2.1 ++
          buf.drop (readLoop kernel size block fuel conn data).2.1.length,
        (readLoop kernel size block fuel conn data).2.1.length) := by
  induction fuel with
  | zero =>
      intro conn data buf hle hfuel
      rw [netReadLoop, if_neg (by omega), readLoop]
  | succ fuel ih =>
      intro conn data buf hle hfuel
      rw [netReadLoop, readLoop]
      by_cases hmore : data.length < size
      · rw [if_pos hmore, if_pos hmore, Kernel.recvUpTo]
        cases kernel.recv conn.recvs with
        | none => rfl
        | some limit =>
            dsimp only
            obtain ⟨m, hm⟩ : ∃ m, m = min (min limit (size - data.length)) conn.inbox.length :=
              ⟨_, rfl⟩
            have htake : (conn.inbox.take m).length = m := by
              rw [List.length_take]
              omega
            rw [← hm, htake]
            by_cases hzero : m = 0
            · rw [if_pos hzero, if_pos hzero]
            -- the bytes go behind those that were read before
            have hlen : (data ++ conn.inbox.take m).length = data.length + m := by
              rw [List.length_append, htake]
            have hbuf : (data ++ buf.drop data.length).take data.length ++ conn.inbox.take m ++
                (data ++ buf.drop data.length).drop (data.length + m) =
                  (data ++ conn.inbox.take m) ++ buf.drop (data ++ conn.inbox.take m).length := by
              rw [List.take_left, List.drop_append, List.drop_of_length_le (by omega), hlen,
                List.drop_drop]
              simp
            rw [if_neg hzero, if_neg hzero, hbuf, ← hlen]
            cases block with
            | true => exact ih (by omega) (by omega)
            | false => rfl
      · rw [if_neg hmore, if_neg hmore]

/-- Whatever the kernel answers, a blocking loop reads the next bytes of the stream, and all that were
asked for exactly when it succeeds. -/
theorem read_loop_takes (fuel : Nat) : ∀ {conn : Conn} {data : List Byte},
    data.length ≤ size → size - data.length ≤ fuel →
    ∃ s k conn', readLoop kernel size true fuel conn data =
        (s, data ++ conn.inbox.take k, conn') ∧
      data.length + k ≤ size ∧ k ≤ conn.inbox.length ∧ conn'.inbox = conn.inbox.drop k ∧
      conn'.outbox = conn.outbox ∧ (s = .ok ↔ data.length + k = size) := by
  induction fuel with
  | zero =>
      intro conn data hle hfuel
      exact ⟨.ok, 0, conn, by simp [readLoop], by omega, Nat.zero_le _, rfl, rfl,
        iff_of_true rfl (by omega)⟩
  | succ fuel ih =>
      intro conn data hle hfuel
      rw [readLoop]
      by_cases hmore : data.length < size
      · rw [if_pos hmore]
        cases kernel.recv conn.recvs with
        | none =>
            exact ⟨.ioError, 0, { conn with recvs := conn.recvs + 1 }, by simp, by omega,
              Nat.zero_le _, rfl, rfl, iff_of_false (by decide) (by omega)⟩
        | some limit =>
            dsimp only
            obtain ⟨m, hm⟩ : ∃ m, m = min (min limit (size - data.length)) conn.inbox.length :=
              ⟨_, rfl⟩
            rw [← hm]
            by_cases hzero : m = 0
            · rw [if_pos hzero]
              exact ⟨.connectionClosed, 0,
                { conn with inbox := conn.inbox.drop m, recvs := conn.recvs + 1 },
                by rw [List.take_zero, List.append_nil], by omega, Nat.zero_le _, by rw [hzero],
                rfl, iff_of_false (by decide) (by omega)⟩
            · have hlen : (data ++ conn.inbox.take m).length = data.length + m := by
                rw [List.length_append, List.length_take]
                omega
              obtain ⟨s, k, conn', hrun, hk, hin, hinbox, hout, hs⟩ := @ih
                { conn with inbox := conn.inbox.drop m, recvs := conn.recvs + 1 }
                (data ++ conn.inbox.take m) (by omega) (by omega)
              rw [hlen] at hk hs
              rw [List.length_drop] at hin
              rw [if_neg hzero, if_pos rfl, hrun]
              refine ⟨s, m + k, conn', ?_, by omega, by omega, ?_, hout, ?_⟩
              · rw [List.take_add, List.append_assoc]
              · rw [hinbox, List.drop_drop]
              · rw [hs, Nat.add_assoc]
      · rw [if_neg hmore]
        exact ⟨.ok, 0, conn, by simp, by omega, Nat.zero_le _, rfl, rfl,
          iff_of_true rfl (by omega)⟩

/-- The loop of `net__write` is `writeLoop`, and whatever the kernel answers, a blocking one sends the
next bytes of the buffer, and all of them exactly when it succeeds. -/
theorem net_write_loop_sends {buf : List Byte} (hbuf : size ≤ buf.length) (fuel : Nat) :
    ∀ {conn : Conn} {n : Nat}, n ≤ size → size - n ≤ fuel →
    ∃ s k conn', netWriteLoop kernel size true buf (fuel + 1) conn n = some (s, conn', n + k) ∧
      writeLoop kernel true fuel conn ((buf.drop n).take (size - n)) = (s, conn') ∧
      n + k ≤ size ∧ conn'.outbox = conn.outbox ++ (buf.drop n).take k ∧
      (s = .ok ↔ n + k = size) := by
  induction fuel with
  | zero =>
      intro conn n hle hfuel
      refine ⟨.ok, 0, conn, ?_, rfl, by omega, by simp, iff_of_true rfl (by omega)⟩
      rw [netWriteLoop, if_neg (by omega)]
      rfl
  | succ fuel ih =>
      intro conn n hle hfuel
      have hrest : ((buf.drop n).take (size - n)).length = size - n := by
        rw [List.length_take, List.length_drop]
        omega
      rw [netWriteLoop, writeLoop]
      by_cases hmore : n < size
      · have hne : (buf.drop n).take (size - n) ≠ [] := by
          intro hnil
          rw [hnil] at hrest
          exact absurd hrest (by simp; omega)
        rw [if_pos hmore, if_pos hne, Kernel.sendUpTo]
        cases kernel.send conn.sends with
        | none =>
            exact ⟨.ioError, 0, { conn with sends := conn.sends + 1 }, rfl, rfl, by omega, by simp,
              iff_of_false (by decide) (by omega)⟩
        | some limit =>
            dsimp only
            obtain ⟨m, hm⟩ : ∃ m, m = min limit ((buf.drop n).take (size - n)).length := ⟨_, rfl⟩
            have hmle : m ≤ size - n := by omega
            rw [← hm, List.take_take, Nat.min_eq_left hmle]
            by_cases hzero : m = 0
            · rw [if_pos hzero, if_pos hzero]
              exact ⟨.connectionClosed, 0, { conn with
                outbox := conn.outbox ++ (buf.drop n).take m, sends := conn.sends + 1 },
                rfl, rfl, by omega, by simp [hzero], iff_of_false (by decide) (by omega)⟩
            · obtain ⟨s, k, conn', hrun, hwrite, hk, hout, hs⟩ := @ih { conn with
                outbox := conn.outbox ++ (buf.drop n).take m, sends := conn.sends + 1 } (n + m)
                (by omega) (by omega)
              have hdrop : ((buf.drop n).take (size - n)).drop m =
                  (buf.drop (n + m)).take (size - (n + m)) := by
                rw [List.drop_take, List.drop_drop, Nat.sub_sub]
              rw [if_neg hzero, if_neg hzero, if_pos rfl, if_pos rfl, hrun, hdrop, hwrite]
              refine ⟨s, m + k, conn', by rw [Nat.add_assoc], rfl, by omega, ?_, ?_⟩
              · rw [hout, List.append_assoc, List.take_add, List.drop_drop]
              · rw [hs, Nat.add_assoc]
      · have hnil : (buf.drop n).take (size - n) = [] := List.length_eq_zero_iff.mp (by omega)
        rw [if_neg hmore, hnil]
        exact ⟨.ok, 0, conn, rfl, by simp, by omega, by simp, iff_of_true rfl (by omega)⟩

end Loops

/-- A blocking `net__read` is `read`; it fills a prefix of the buffer and leaves what was sent. -/
theorem net_read_fills (kernel : Kernel) (conn : Conn) (buf : List Byte) (size n : Int) :
    ∃ s data conn', netRead kernel ⟨some conn, some buf, n⟩ size true =
        some (s, ⟨some conn', some (data ++ buf.drop data.length), data.length⟩) ∧
      read kernel conn size.toNat true = (s, data, conn') ∧
      Fills conn buf size s ⟨some conn', some (data ++ buf.drop data.length), data.length⟩ ∧
      conn'.outbox = conn.outbox := by
  obtain ⟨s, k, conn', hread, hk, hin, hinbox, hout, hs⟩ :=
    @read_loop_takes kernel size.toNat size.toNat conn [] (Nat.zero_le _) (by simp)
  rw [List.nil_append] at hread
  rw [List.length_nil, Nat.zero_add] at hk hs
  have hlen : (conn.inbox.take k).length = k := by
    rw [List.length_take]
    omega
  refine ⟨s, conn.inbox.take k, conn', ?_, hread, ?_, hout⟩
  · rw [netRead]
    dsimp only
    by_cases hzero : size ≤ 0
    · obtain hnat : size.toNat = 0 := by omega
      obtain rfl : k = 0 := by omega
      rw [hnat] at hread
      obtain ⟨rfl, -, rfl⟩ : s = .ok ∧ [] = conn.inbox.take 0 ∧ conn' = conn := by
        simpa [readLoop, eq_comm] using hread
      rw [if_pos hzero]
      simp
    · have hrun := @net_read_loop_eq kernel size.toNat true size.toNat conn [] buf
        (Nat.zero_le _) (by simp)
      rw [hread] at hrun
      rw [if_neg hzero]
      simpa using congrArg (fun r => r.bind fun (s, conn, buf, n) =>
        some (s, (⟨some conn, some buf, n⟩ : Transfer))) hrun
  · rw [hlen]
    exact ⟨k, hk, hin, ⟨conn', rfl, hinbox⟩, rfl, rfl, hs⟩

/-- A blocking `net__write` is `write`, and it sends a prefix of the buffer. -/
theorem net_write_sends (kernel : Kernel) (conn : Conn) {buf : List Byte} {size : Int}
    (hsize : size ≤ buf.length) (n : Int) :
    ∃ s k conn', netWrite kernel ⟨some conn, some buf, n⟩ size true =
        some (s, ⟨some conn', some buf, k⟩) ∧
      write kernel conn (buf.take size.toNat) true = (s, conn') ∧
      Sends conn buf size s ⟨some conn', some buf, k⟩ := by
  have hnat : size.toNat ≤ buf.length := by omega
  obtain ⟨s, k, conn', hrun, hwrite, hk, hout, hs⟩ :=
    @net_write_loop_sends kernel size.toNat buf hnat size.toNat conn 0 (Nat.zero_le _) (by simp)
  rw [Nat.zero_add] at hrun hk hs
  rw [List.drop_zero, Nat.sub_zero] at hwrite
  rw [List.drop_zero] at hout
  refine ⟨s, k, conn', ?_, ?_, k, hk, ⟨conn', rfl, hout⟩, rfl, hs⟩
  · rw [netWrite]
    dsimp only
    by_cases hzero : size ≤ 0
    · obtain hnat : size.toNat = 0 := by omega
      obtain rfl : k = 0 := by omega
      rw [hnat] at hwrite
      obtain ⟨rfl, rfl⟩ : s = .ok ∧ conn' = conn := by simpa [writeLoop, eq_comm] using hwrite
      rw [if_pos hzero]
      rfl
    · rw [if_neg hzero, hrun]
      rfl
  · rw [write, List.length_take, Nat.min_eq_left hnat]
    exact hwrite

/-- A read that asks for something gets nothing exactly when the first `recv` brings nothing. -/
theorem read_nil_iff (kernel : Kernel) (conn : Conn) {size : Int} (hsize : 0 < size) :
    (read kernel conn size.toNat true).2.1 = [] ↔ NothingReceived kernel conn := by
  obtain ⟨m, hm⟩ : ∃ m, size.toNat = m + 1 := ⟨size.toNat - 1, by omega⟩
  rw [read, hm, readLoop, NothingReceived]
  cases hrecv : kernel.recv conn.recvs with
  | none => simp
  | some limit =>
      simp only [List.length_nil, Nat.zero_lt_succ, if_true, Nat.sub_zero, List.nil_append]
      obtain ⟨l, hl⟩ : ∃ l, l = min (min limit (m + 1)) conn.inbox.length := ⟨_, rfl⟩
      rw [← hl]
      by_cases hzero : l = 0
      · rw [if_pos hzero]
        refine iff_of_true rfl (Or.inr ?_)
        rw [Option.some.injEq, ← List.length_eq_zero_iff]
        omega
      · have hlen : (conn.inbox.take l).length = l := by
          rw [List.length_take]
          omega
        obtain ⟨s, k, conn', hrun, -⟩ := @read_loop_takes kernel (m + 1) m
          { conn with inbox := conn.inbox.drop l, recvs := conn.recvs + 1 } (conn.inbox.take l)
          (by omega) (by omega)
        rw [if_neg hzero, hrun]
        refine iff_of_false ?_ ?_
        · intro hnil
          have hempty := congrArg List.length hnil
          rw [List.length_append, List.length_nil] at hempty
          omega
        · rw [Option.some.injEq, ← List.length_eq_zero_iff]
          rintro (h | h | h)
          · cases h
          all_goals omega

/-- A blocking call of any of the four functions moves what its name says, except that
`net__write_lock` does so only where there is nothing to send or nothing to receive. -/
theorem transfers_iff (kernel : Kernel) (ep : EntryPoint) (conn : Conn) {buf : List Byte}
    {size : Int} (hsize : size ≤ buf.length) (n : Int) :
    (∃ s t, ep.call kernel ⟨some conn, some buf, n⟩ size true = some (s, t) ∧
      ep.Promised conn buf size s t) ↔
    (ep = .writeLock → size ≤ 0 ∨ NothingReceived kernel conn) := by
  obtain ⟨s, data, conn', hread, hdata, hfills, hout⟩ := net_read_fills kernel conn buf size n
  obtain ⟨sw, k, connw, hwrite, -, hsends⟩ := net_write_sends kernel conn hsize n
  cases ep with
  | read => exact iff_of_true ⟨s, _, hread, hfills⟩ (fun h => by cases h)
  | readLock => exact iff_of_true ⟨s, _, hread, hfills⟩ (fun h => by cases h)
  | write => exact iff_of_true ⟨sw, _, hwrite, hsends⟩ (fun h => by cases h)
  | writeLock =>
      obtain ⟨j, -, -, -, -, hj, hs⟩ := hfills
      obtain rfl : data.length = j := Int.ofNat_inj.mp hj
      have hiff : size ≤ 0 ∨ NothingReceived kernel conn ↔ data = [] := by
        by_cases hpos : size ≤ 0
        · refine iff_of_true (Or.inl hpos) ?_
          rw [show size.toNat = 0 by omega] at hdata
          simpa [read, readLoop, eq_comm] using (Prod.ext_iff.mp (Prod.ext_iff.mp hdata).2).1
        · rw [or_iff_right hpos, ← read_nil_iff kernel conn (by omega : 0 < size), hdata]
      rw [forall_prop_of_true rfl, hiff]
      constructor
      · -- nothing is sent, so the prefix that is claimed to be sent is empty
        rintro ⟨s', t, hcall, i, hi, ⟨c, hc, hcout⟩, hin, -⟩
        obtain ⟨rfl, rfl⟩ : s = s' ∧ _ = t := by
          simpa using hread.symm.trans hcall
        obtain rfl : conn' = c := by simpa using hc
        rw [hout, List.self_eq_append_right] at hcout
        have hlen := congrArg List.length hcout
        rw [List.length_take, List.length_nil] at hlen
        have hdi : data.length = i := Int.ofNat_inj.mp hin
        exact List.length_eq_zero_iff.mp (by omega)
      · rintro rfl
        exact ⟨s, _, hread, 0, Nat.zero_le _, ⟨conn', rfl, by rw [hout]; simp⟩, rfl, hs⟩

/-- Two bytes are sent in two pieces. -/
theorem transfers_iff_two_pieces :
    (∃ s t, EntryPoint.write.call ⟨fun _ => some 1, fun _ => some 1⟩
        ⟨some ⟨[], [], 0, 0⟩, some [7, 8], 0⟩ 2 true = some (s, t) ∧
      EntryPoint.write.Promised ⟨[], [], 0, 0⟩ [7, 8] 2 s t) :=
  (transfers_iff ⟨fun _ => some 1, fun _ => some 1⟩ .write ⟨[], [], 0, 0⟩ (by decide) 0).mpr
    (fun h => by cases h)

/-- Asked to send the byte 8, `net__write_lock` receives the byte 7 over it. -/
theorem write_lock_receives :
    EntryPoint.writeLock.call ⟨fun _ => some 1, fun _ => some 1⟩
        ⟨some ⟨[7], [], 0, 0⟩, some [8], 0⟩ 1 true =
      some (.ok, ⟨some ⟨[], [], 0, 1⟩, some [7], 1⟩) ∧
    ¬ EntryPoint.writeLock.Promised ⟨[7], [], 0, 0⟩ [8] 1 .ok
      ⟨some ⟨[], [], 0, 1⟩, some [7], 1⟩ := by
  refine ⟨rfl, ?_⟩
  rintro ⟨k, -, ⟨c, hc, hout⟩, hk, -⟩
  obtain rfl : 1 = k := Int.ofNat_inj.mp hk
  obtain rfl : (⟨[], [], 0, 1⟩ : Conn) = c := by simpa using hc
  simp at hout

end Bpsp.Net
