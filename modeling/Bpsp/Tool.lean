import Bpsp.Frame.Recv

/-!
# The command-line subscriber

`handle_sub` of `tools/bpsp.c`. It subscribes to its topics one after another and takes the frame
that comes after each request for the answer to it, whatever it is. Only then does it print, through
a buffer of 65536 bytes and as a string, and it prints any frame as a message. `reported_iff` says
which messages are reported all the same.
-/

namespace Bpsp.Tool

open CLib Net Bpsp.Frame Datatype

/-- `MAX_BUFFER`. -/
def maxBuffer : Nat := 65535

/-- The values that the tool prints for a frame. -/
structure Report where
  sender : CStr
  topic : CStr
  dataSize : Nat
  text : CStr

/-- What became of a frame: it was taken for the answer to a request, or printed. -/
inductive Handled where
  | reply (frame : Frame)
  | message (frame : Frame) (report : Report)

/-- The machine of the tool: its byte order, the answers of its kernel, and the times at which the
`n`-th request is built and the `n`-th frame is received. -/
structure Host where
  big : Bool
  kernel : Kernel
  built : Nat → Timestamp
  received : Nat → Timestamp

/-- The value of a header or `unknown`. Printing a value that is NULL is undefined. -/
def orUnknown : Option (Option CStr) → Exec CStr
  | some value => value
  | none => some (.ofString "unknown")

/-- The body of the second loop. The buffer has one byte more than `MAX_BUFFER`, for a NUL behind the
payload; writing beyond it, or reading beyond the payload, is undefined. -/
def print (frame : Frame) : Exec Report := do
  let sender ← orUnknown (frame.getVarHeader xFrom)
  let topic ← orUnknown (frame.getVarHeader xTopic)
  if frame.dataSize ≤ maxBuffer ∧ frame.dataSize ≤ frame.payload.length then
    some ⟨sender, topic, frame.dataSize, CStr.ofBytes (frame.payload.take frame.dataSize)⟩
  else none

section Loops

variable (host : Host)

/-- The second loop: the frames that were handled, from the `n`-th on, and the status at the end. The
list ends where something is undefined. -/
def receiveLoop : Nat → Conn → Nat → List Handled × Exec Status
  | 0, _, _ => ([], none)
  | fuel + 1, conn, n =>
      match recv host.big host.kernel (host.received n) conn with
      | none => ([], none)
      | some (s, frame, conn) =>
          if s ≠ .ok then ([], some s)
          else
            match print frame with
            | none => ([], none)
            | some report =>
                let (handled, s) := receiveLoop fuel conn (n + 1)
                (.message frame report :: handled, s)

/-- The `n`-th request: `frame__SUB` and `frame__send`. -/
def request (conn : Conn) (n : Nat) (topic : CStr) : Exec (Status × Conn) := do
  let (s, out) ← Frame.sub (host.built n) (some topic) (some (.ofString "_99")) flAck []
  if s ≠ .ok then some (s, conn) else send host.big host.kernel conn out

/-- The first loop, and the second after it. A frame has at least eight bytes, so that the second
loop takes no more turns than there are bytes, and one. -/
def subscribeLoop : List CStr → Conn → Nat → List Handled × Exec Status
  | [], conn, n => receiveLoop host (conn.inbox.length + 1) conn n
  | topic :: topics, conn, n =>
      match request host conn n topic with
      | none => ([], none)
      | some (s, conn) =>
          if s ≠ .ok then ([], some s)
          else
            match recv host.big host.kernel (host.received n) conn with
            | none => ([], none)
            | some (s, frame, conn) =>
                if s ≠ .ok then ([], some s)
                else
                  let (handled, s) := subscribeLoop topics conn (n + 1)
                  (.reply frame :: handled, s)

/-- `handle_sub` on a connection to the broker. There is at least one topic: without any the tool
exits before it connects. -/
def handleSub (topic : CStr) (topics : List CStr) (conn : Conn) : List Handled × Exec Status :=
  subscribeLoop host (topic :: topics) conn 0

end Loops

/-- A frame that the broker sends: any opcode, flag, header block and payload. -/
structure Packet where
  opcode : Byte
  flag : Byte
  block : List Byte
  payload : List Byte
  block_lt : block.length < 65536
  payload_lt : payload.length < 2 ^ 32

/-- The fixed header of a packet. -/
def Packet.control (p : Packet) : Frame :=
  { new with
    varsSize := p.block.length, opcode := p.opcode, flag := p.flag, dataSize := p.payload.length }

/-- The bytes of a packet, on a host of any byte order. -/
def Packet.bytes (p : Packet) : List Byte := fixedHeader true p.control ++ (p.block ++ p.payload)

/-- `frame__recv` accepts the packet as this frame. -/
def Packet.Accepted (now : Timestamp) (p : Packet) (frame : Frame) : Prop :=
  decode now p.bytes = some (.ok, frame, [])

/-- The packet fits in the buffer, and the headers that are printed have values. -/
def Packet.Printable (p : Packet) (frame : Frame) : Prop :=
  p.payload.length ≤ maxBuffer ∧ frame.getVarHeader xFrom ≠ some none ∧
    frame.getVarHeader xTopic ≠ some none

/-- There is room for the topic, of which 16 bits of the length count, beside the tag and the time. -/
def Requestable (topic : CStr) : Prop := topic.length ≠ 0 ∧ topic.length % 65536 + 67 ≤ 65535

/-- Every message was printed with its full payload. -/
def Reported (packets : List Packet) (handled : List Handled) : Prop :=
  ∀ (i : Nat) (p : Packet), packets[i]? = some p → p.opcode = opMsg → ∃ frame report,
    handled[i]? = some (.message frame report) ∧ report.dataSize = p.payload.length ∧
      report.text.bytes = p.payload

/-- Every message comes after as many other frames as there are topics, each of which can be
requested; it and what comes before it is accepted, and what comes after the replies is printable;
and its payload has no NUL. -/
def Orderly (host : Host) (topics : List CStr) (packets : List Packet) : Prop :=
  ∀ (i : Nat) (p : Packet), packets[i]? = some p → p.opcode = opMsg →
    topics.length ≤ i ∧ (∀ topic ∈ topics, Requestable topic) ∧
      (∀ (j : Nat) (q : Packet), j ≤ i → packets[j]? = some q → ∃ frame, q.Accepted (host.received j) frame ∧
        (topics.length ≤ j → q.Printable frame)) ∧ 0 ∉ p.payload

theorem Packet.sizes (p : Packet) (rest : List Byte) :
    be16 (p.bytes ++ rest) = p.block.length ∧ be32 ((p.bytes ++ rest).drop 4) = p.payload.length := by
  unfold bytes
  rw [List.append_assoc]
  exact @fixed_header_sizes true p.control p.block_lt p.payload_lt _

theorem Packet.drop_bytes (p : Packet) (rest : List Byte) :
    (p.bytes ++ rest).drop 8 = p.block ++ (p.payload ++ rest) := by
  unfold bytes
  rw [List.append_assoc, ← length_fixedHeader true p.control, List.drop_left, List.append_assoc]

/-- What `frame__send` hands to the kernel for a complete frame are the bytes of a packet. -/
theorem send_packet {kernel : Kernel} (h : kernel.Reliable) (big : Bool) {frame : Frame}
    {buf : List Byte} (hdone : frame.isCompleted = true) (hbuf : frame.headerBuffer = some buf)
    (hvars : frame.varsSize < 65536) (hdata : frame.dataSize = frame.payload.length)
    (hlt : frame.dataSize < 2 ^ 32) (conn : Conn) :
    ∃ (p : Packet) (n : Nat), p.opcode = frame.opcode ∧ p.payload = frame.payload ∧
      send big kernel conn frame =
        some (.ok, { conn with outbox := conn.outbox ++ p.bytes, sends := n }) := by
  have hlen : buf.length = frame.varsSize := by
    unfold headerBuffer at hbuf
    obtain ⟨bytes, -, hbuf⟩ := Option.bind_eq_some_iff.mp hbuf
    split_ifs at hbuf with hle
    rw [← Option.some.inj hbuf, List.length_append, List.length_replicate]
    omega
  obtain ⟨n, hrun⟩ := send_frame h big hdone hbuf conn
  refine ⟨⟨frame.opcode, frame.flag, buf, frame.payload, by omega, by omega⟩, n, rfl, rfl, ?_⟩
  rw [hrun, hdata, List.take_length]
  -- the byte order of the host makes no difference
  simp [Packet.bytes, Packet.control, fixedHeader, e16_eq, e32_eq, hlen, hdata]

/-- What `frame__recv` does with a packet does not depend on what comes after it. -/
theorem Packet.decode_append (now : Timestamp) (p : Packet) (rest : List Byte) :
    decode now (p.bytes ++ rest) = (decode now p.bytes).map fun r => (r.1, r.2.1, r.2.2 ++ rest) := by
  have hwhole : ∀ rest, decode now (p.bytes ++ rest) = if p.opcode = 0 then
      some (.invalidOpcode, new, p.block ++ (p.payload ++ rest))
    else decodeHeaders now { new with opcode := p.opcode, flag := p.flag } p.block.length
      p.payload.length (p.block ++ (p.payload ++ rest)) := by
    intro rest
    obtain ⟨hvars, hdata⟩ := p.sizes rest
    have hlong : ¬ (p.bytes ++ rest).length < 8 := by
      unfold bytes
      simp only [List.length_append, length_fixedHeader]
      omega
    have hop : ((p.bytes ++ rest).drop 2).headD 0 = p.opcode := by
      simp [bytes, fixedHeader, e16_eq, control]
    have hflag : ((p.bytes ++ rest).drop 3).headD 0 = p.flag := by
      simp [bytes, fixedHeader, e16_eq, control]
    rw [decode_eq, if_neg hlong, hop, hvars, hdata, p.drop_bytes, controlled, hop, hflag]
  have hnil := hwhole []
  rw [List.append_nil, List.append_nil] at hnil
  rw [hwhole, hnil]
  by_cases hop : p.opcode = 0
  · simp [hop, List.append_assoc]
  rw [if_neg hop, if_neg hop]
  unfold decodeHeaders
  rw [if_neg (by simp), if_neg (by simp), List.take_left, List.take_left, List.drop_left,
    List.drop_left]
  cases parseVarHeader { new with opcode := p.opcode, flag := p.flag } p.block with
  | none => rfl
  | some r =>
      simp only [bind, Option.bind_some]
      by_cases hs : r.1 = .ok
      · rw [if_neg (not_not.mpr hs), if_neg (not_not.mpr hs)]
        have hlong : ¬ (p.payload ++ rest).length < p.payload.length := by simp
        simp only [decodePayload, if_neg hlong, Nat.lt_irrefl, if_false, List.take_left,
          List.take_length, List.drop_left, List.drop_length, Option.map_map]
        rfl
      · rw [if_pos hs, if_pos hs]
        rfl

theorem Packet.length_bytes (p : Packet) : 8 ≤ p.bytes.length := by
  unfold bytes
  rw [List.length_append, length_fixedHeader]
  omega

/-- An accepted frame takes all bytes of its packet. -/
theorem Packet.accepted_of_ok {now : Timestamp} {p : Packet} {frame : Frame} {rest : List Byte}
    (h : decode now p.bytes = some (.ok, frame, rest)) : p.Accepted now frame := by
  obtain ⟨hvars, hdata⟩ := p.sizes []
  rw [List.append_nil] at hvars hdata
  have hrest := (decode_framed h).2
  rw [hvars, hdata, ← List.drop_drop, ← List.drop_drop, ← List.append_nil p.bytes, p.drop_bytes,
    List.append_nil, List.drop_left, List.drop_length] at hrest
  rw [hrest] at h
  exact h

theorem Packet.Accepted.unique {now : Timestamp} {p : Packet} {frame frame' : Frame}
    (h : p.Accepted now frame) (h' : p.Accepted now frame') : frame = frame' := by
  have heq := Option.some.inj (h.symm.trans h')
  exact (Prod.mk.inj (Prod.mk.inj heq).2).1

/-- The payload of an accepted frame is the one of its packet. -/
theorem Packet.Accepted.payload {now : Timestamp} {p : Packet} {frame : Frame}
    (h : p.Accepted now frame) : frame.payload = p.payload ∧ frame.dataSize = p.payload.length := by
  obtain ⟨hvars, hdata⟩ := p.sizes []
  rw [List.append_nil] at hvars hdata
  have hframed := (decode_framed h).1
  refine ⟨?_, hframed.dataSize.trans hdata⟩
  rw [hframed.payload, hvars, hdata, ← List.drop_drop, ← List.append_nil p.bytes, p.drop_bytes,
    List.append_nil, List.drop_left, List.take_length]

theorem orUnknown_eq_some_iff {header : Option (Option CStr)} :
    (∃ value, orUnknown header = some value) ↔ header ≠ some none := by
  cases header with
  | none => simp [orUnknown]
  | some value => cases value <;> simp [orUnknown]

/-- A frame is printed when its packet is printable, with its payload up to a NUL. -/
theorem Packet.Accepted.print {now : Timestamp} {p : Packet} {frame : Frame}
    (h : p.Accepted now frame) :
    ((∃ report, print frame = some report) ↔ p.Printable frame) ∧ ∀ report,
      print frame = some report →
        report.dataSize = p.payload.length ∧ report.text = CStr.ofBytes p.payload := by
  obtain ⟨hpayload, hsize⟩ := h.payload
  unfold Tool.print Printable
  rw [← orUnknown_eq_some_iff, ← orUnknown_eq_some_iff, hpayload, hsize, List.take_length]
  cases orUnknown (frame.getVarHeader xFrom) with
  | none => simp
  | some sender =>
      cases orUnknown (frame.getVarHeader xTopic) with
      | none => simp
      | some topic =>
          by_cases hroom : p.payload.length ≤ maxBuffer
          · simp [hroom]
          · simp [hroom]

section Runs

variable {host : Host}

/-- Receiving a packet. -/
theorem recv_packet (hkernel : host.kernel.Receives) (n : Nat) {conn : Conn} {p : Packet}
    {rest : List Byte} (hinbox : conn.inbox = p.bytes ++ rest) :
    ∃ k, recv host.big host.kernel (host.received n) conn =
      (decode (host.received n) p.bytes).map fun r =>
        (r.1, r.2.1, { conn with inbox := r.2.2 ++ rest, recvs := k }) := by
  obtain ⟨k, hrun⟩ := recv_eq hkernel host.big (host.received n) conn
  refine ⟨k, ?_⟩
  rw [hrun, hinbox, p.decode_append, Option.map_map]
  rfl

/-- Receiving on a connection that was closed. -/
theorem recv_closed (hkernel : host.kernel.Receives) (n : Nat) {conn : Conn}
    (hinbox : conn.inbox = []) : ∃ conn', recv host.big host.kernel (host.received n) conn =
      some (.connectionClosed, new, conn') := by
  obtain ⟨k, hrun⟩ := recv_eq hkernel host.big (host.received n) conn
  refine ⟨{ conn with inbox := [], recvs := k }, ?_⟩
  rw [hrun, hinbox]
  rfl

/-- What a loop of the tool makes of the first packet: it goes on with the rest when the packet is
accepted, and else it ends. -/
theorem recv_cases (hkernel : host.kernel.Receives) (n : Nat) {conn : Conn} {p : Packet}
    {rest : List Byte} (hinbox : conn.inbox = p.bytes ++ rest) :
    (∃ frame conn', p.Accepted (host.received n) frame ∧ conn'.inbox = rest ∧
      recv host.big host.kernel (host.received n) conn = some (.ok, frame, conn')) ∨
    ((¬ ∃ frame, p.Accepted (host.received n) frame) ∧
      ∀ frame conn', recv host.big host.kernel (host.received n) conn ≠ some (.ok, frame, conn')) := by
  obtain ⟨k, hrun⟩ := recv_packet hkernel n hinbox
  by_cases haccepted : ∃ frame, p.Accepted (host.received n) frame
  · obtain ⟨frame, h⟩ := haccepted
    refine Or.inl ⟨frame, { conn with inbox := rest, recvs := k }, h, rfl, ?_⟩
    rw [hrun, show decode _ _ = _ from h]
    rfl
  · refine Or.inr ⟨haccepted, fun frame conn' heq => haccepted ?_⟩
    rw [hrun] at heq
    obtain ⟨⟨s, frame', rest'⟩, hdecode, hr⟩ := Option.map_eq_some_iff.mp heq
    obtain ⟨rfl, -⟩ := Prod.mk.inj hr
    exact ⟨frame', Packet.accepted_of_ok hdecode⟩

theorem receive_loop_stops {fuel n : Nat} {conn : Conn}
    (h : ∀ frame conn', recv host.big host.kernel (host.received n) conn ≠ some (.ok, frame, conn')) :
    (receiveLoop host (fuel + 1) conn n).1 = [] := by
  unfold receiveLoop
  cases hrecv : recv host.big host.kernel (host.received n) conn with
  | none => rfl
  | some r =>
      obtain ⟨s, frame, conn'⟩ := r
      have hs : s ≠ .ok := by
        rintro rfl
        exact h frame conn' hrecv
      dsimp only
      rw [if_pos hs]

/-- The packets before the `i`-th are all printed. -/
def PrintedBefore (host : Host) (packets : List Packet) (n i : Nat) : Prop :=
  ∀ (j : Nat) (q : Packet), j < i → packets[j]? = some q →
    ∃ frame, q.Accepted (host.received (n + j)) frame ∧ q.Printable frame

theorem printed_before_succ {p : Packet} {packets : List Packet} {n i : Nat} :
    PrintedBefore host (p :: packets) n (i + 1) ↔
      (∃ frame, p.Accepted (host.received n) frame ∧ p.Printable frame) ∧
        PrintedBefore host packets (n + 1) i := by
  constructor
  · intro h
    refine ⟨h 0 p (Nat.succ_pos i) rfl, fun j q hj hq => ?_⟩
    rw [Nat.add_assoc, Nat.add_comm 1 j]
    exact h (j + 1) q (Nat.succ_lt_succ hj) hq
  · rintro ⟨hfirst, hrest⟩ j q hj hq
    cases j with
    | zero =>
        obtain rfl := Option.some.inj hq
        exact hfirst
    | succ j =>
        have := hrest j q (Nat.lt_of_succ_lt_succ hj) hq
        rwa [Nat.add_assoc, Nat.add_comm 1 j] at this

/-- The second loop prints a packet when it and all before it are accepted and printable. -/
theorem receive_loop_log (hkernel : host.kernel.Receives) (packets : List Packet) :
    ∀ {conn : Conn} {n fuel : Nat}, conn.inbox = packets.flatMap Packet.bytes →
      packets.length < fuel → ∀ (i : Nat) (frame : Frame) (report : Report),
        (receiveLoop host fuel conn n).1[i]? = some (.message frame report) ↔
          (∃ q, packets[i]? = some q ∧ q.Accepted (host.received (n + i)) frame ∧
            print frame = some report) ∧ PrintedBefore host packets n i := by
  induction packets with
  | nil =>
      intro conn n fuel hinbox hfuel i frame report
      obtain ⟨fuel, rfl⟩ := Nat.exists_eq_succ_of_ne_zero (Nat.pos_iff_ne_zero.mp hfuel)
      obtain ⟨conn', hclosed⟩ := recv_closed hkernel n hinbox
      rw [receive_loop_stops fun frame conn' h => by rw [hclosed] at h; cases h]
      simp
  | cons p packets ih =>
      intro conn n fuel hinbox hfuel i frame report
      obtain ⟨fuel, rfl⟩ := Nat.exists_eq_succ_of_ne_zero (show fuel ≠ 0 by omega)
      rw [List.flatMap_cons] at hinbox
      rw [List.length_cons] at hfuel
      -- whatever is handled, the first packet was printed
      have hfirst : (∃ q, (p :: packets)[i]? = some q ∧
          q.Accepted (host.received (n + i)) frame ∧ print frame = some report) ∧
          PrintedBefore host (p :: packets) n i →
            ∃ frame, p.Accepted (host.received n) frame ∧ p.Printable frame := by
        rintro ⟨⟨q, hq, haccepted, hprint⟩, hbefore⟩
        cases i with
        | zero =>
            obtain rfl := Option.some.inj hq
            exact ⟨frame, haccepted, haccepted.print.1.mp ⟨report, hprint⟩⟩
        | succ i => exact (printed_before_succ.mp hbefore).1
      rcases recv_cases hkernel n hinbox with ⟨first, conn', haccepted, hrest, hrecv⟩ | ⟨hnot, hstop⟩
      · cases hprint : print first with
        | none =>
            have hlog : (receiveLoop host (fuel + 1) conn n).1 = [] := by
              unfold receiveLoop
              simp only [hrecv, hprint, ne_eq, not_true_eq_false, if_false]
            rw [hlog]
            refine iff_of_false (by simp) fun h => ?_
            obtain ⟨frame', haccepted', hprintable⟩ := hfirst h
            obtain rfl := haccepted.unique haccepted'
            obtain ⟨report', hreport⟩ := haccepted.print.1.mpr hprintable
            rw [hprint] at hreport
            cases hreport
        | some r =>
            have hlog : (receiveLoop host (fuel + 1) conn n).1 =
                .message first r :: (receiveLoop host fuel conn' (n + 1)).1 := by
              conv_lhs => unfold receiveLoop
              simp only [hrecv, hprint, ne_eq, not_true_eq_false, if_false]
            rw [hlog]
            cases i with
            | zero =>
                simp only [List.getElem?_cons_zero, Option.some.injEq, Handled.message.injEq]
                constructor
                · rintro ⟨rfl, rfl⟩
                  exact ⟨⟨p, rfl, haccepted, hprint⟩, fun j q hj => absurd hj (Nat.not_lt_zero j)⟩
                · rintro ⟨⟨q, rfl, haccepted', hprint'⟩, -⟩
                  obtain rfl := haccepted.unique haccepted'
                  exact ⟨rfl, Option.some.inj (hprint.symm.trans hprint')⟩
            | succ i =>
                have hi := ih hrest (n := n + 1) (show packets.length < fuel by omega) i frame report
                rw [List.getElem?_cons_succ, List.getElem?_cons_succ, hi, printed_before_succ,
                  Nat.add_assoc, Nat.add_comm 1 i]
                have hprinted := haccepted.print.1.mp ⟨r, hprint⟩
                constructor
                · rintro ⟨hq, hbefore⟩
                  exact ⟨hq, ⟨first, haccepted, hprinted⟩, hbefore⟩
                · rintro ⟨hq, -, hbefore⟩
                  exact ⟨hq, hbefore⟩
      · rw [receive_loop_stops hstop]
        refine iff_of_false (by simp) fun h => ?_
        obtain ⟨frame', haccepted, -⟩ := hfirst h
        exact hnot ⟨frame', haccepted⟩

/-- What the headers of a request come to: the topic, the tag and the time. -/
def requested (topic : CStr) (now : Timestamp) : Table :=
  [(xTopic, topic), (xSubTag, .ofString "_99"), (xTime, now.text)]

/-- A header that is set in a request: it is added when there is room for it. -/
theorem set_counts {fr : Frame} {t : Table} (h : Counts fr t) {k v : CStr} (hk : k.length ≠ 0)
    (hv : v.length ≠ 0) : ∃ s fr', fr.setVarHeader k (some v) = some (s, fr') ∧
      (s = .ok ↔ writtenSize (put t k v) ≤ 65535) ∧ (s = .ok → Counts fr' (put t k v)) ∧
      fr'.opcode = fr.opcode := by
  obtain ⟨fr', hset, -⟩ := set_var_header_counts h hk hv
  refine ⟨_, fr', hset, ?_, fun hok => ?_, ?_⟩
  · split_ifs with hroom
    · exact iff_of_true rfl hroom
    · exact iff_of_false (by decide) hroom
  · rw [hok] at hset
    exact h.set hv hset
  · have hframe := set_var_header_frame hset
    dsimp only at hframe
    rw [hframe]

/-- `frame__SUB` for a topic that is not empty. -/
theorem sub_counts (now : Timestamp) {topic : CStr} (htopic : topic.length ≠ 0) :
    ∃ s out, Frame.sub now (some topic) (some (.ofString "_99")) flAck [] = some (s, out) ∧
      (s = .ok ↔ topic.length % 65536 + 67 ≤ 65535) ∧
      (s = .ok → Counts out (requested topic now) ∧ out.isCompleted = true) := by
  have hkey : xTopic.length = 7 := by decide
  have htag : xSubTag.length = 9 := by decide
  have hvalue : (CStr.ofString "_99").length = 3 := by decide
  have htime := now.length_eq
  have hput₁ : put [] xTopic topic = [(xTopic, topic)] := rfl
  have hput₂ : put [(xTopic, topic)] xSubTag (.ofString "_99") =
      [(xTopic, topic), (xSubTag, .ofString "_99")] :=
    put_of_not_mem _ (show xSubTag ∉ [xTopic] by decide)
  have hput₃ : put [(xTopic, topic), (xSubTag, .ofString "_99")] xTime now.text =
      requested topic now := put_of_not_mem _ (show xTime ∉ [xTopic, xSubTag] by decide)
  have hsize₁ : writtenSize [(xTopic, topic)] = topic.length % 65536 + 12 := by
    simp [writtenSize, hkey]
    omega
  have hsize₂ : writtenSize [(xTopic, topic), (xSubTag, CStr.ofString "_99")] =
      topic.length % 65536 + 29 := by
    simp [writtenSize, hkey, htag, hvalue]
    omega
  have hsize₃ : writtenSize (requested topic now) = topic.length % 65536 + 67 := by
    simp [writtenSize, requested, hkey, htag, hvalue, xTime_length, htime]
    omega
  have hnew : Counts { new with opcode := opSub, flag := flAck } [] :=
    ⟨rfl, rfl, by decide, List.nodup_nil⟩
  obtain ⟨s₁, fr₁, h₁, hs₁, hc₁, hop₁⟩ := set_counts hnew (show xTopic.length ≠ 0 by omega) htopic
  rw [hput₁, hsize₁] at hs₁
  unfold Frame.sub
  rw [set_frame_control_eq new flAck (show opSub ≠ 0 by decide), assert_ok]
  simp only [setVarHeaders, assert_ok]
  rw [h₁]
  by_cases hok₁ : s₁ = .ok
  swap
  · rw [assert_fail _ _ hok₁]
    have := mt hs₁.mpr hok₁
    exact ⟨s₁, fr₁, rfl, iff_of_false hok₁ (by omega), fun h => absurd h hok₁⟩
  subst hok₁
  obtain ⟨s₂, fr₂, h₂, hs₂, hc₂, hop₂⟩ := set_counts (hc₁ rfl) (show xSubTag.length ≠ 0 by omega)
    (show (CStr.ofString "_99").length ≠ 0 by omega)
  rw [hput₁, hput₂, hsize₂] at hs₂
  rw [assert_ok, h₂]
  by_cases hok₂ : s₂ = .ok
  swap
  · rw [assert_fail _ _ hok₂]
    have := mt hs₂.mpr hok₂
    exact ⟨s₂, fr₂, rfl, iff_of_false hok₂ (by omega), fun h => absurd h hok₂⟩
  subst hok₂
  obtain ⟨s₃, fr₃, h₃, hs₃, hc₃, hop₃⟩ := set_counts (hc₂ rfl) (show xTime.length ≠ 0 by decide)
    (Timestamp.length_ne now)
  rw [hput₁, hput₂, hput₃, hsize₃] at hs₃
  rw [hput₁, hput₂, hput₃] at hc₃
  rw [assert_ok, build, h₃]
  by_cases hok₃ : s₃ = .ok
  swap
  · rw [assert_fail _ _ hok₃]
    exact ⟨s₃, fr₃, rfl, hs₃, fun h => absurd h hok₃⟩
  subst hok₃
  have hopcode : fr₃.opcode = opSub := hop₃.trans (hop₂.trans hop₁)
  rw [assert_ok, hopcode]
  obtain ⟨hheaders, hsize, hfits, hnodup⟩ := hc₃ rfl
  exact ⟨.ok, _, rfl, iff_of_true rfl (hs₃.mp rfl), fun _ => ⟨⟨hheaders, hsize, hfits, hnodup⟩, rfl⟩⟩

/-- The request for an empty topic: its header has no value. -/
def unset (now : Timestamp) : Frame where
  varsSize := 67
  opcode := opSub
  flag := flAck
  dataSize := 0
  varHeaders := [(xTopic, none), (xSubTag, some (.ofString "_99")), (xTime, some now.text)]
  payload := []
  payloadSize := 0
  pos := 0
  isCompleted := true

theorem sub_empty (now : Timestamp) {topic : CStr} (htopic : topic.length = 0) :
    Frame.sub now (some topic) (some (.ofString "_99")) flAck [] = some (.ok, unset now) := by
  obtain rfl : topic = default := CStr.ext (CStr.length_eq_zero_iff.mp htopic)
  have h₁ : ({ new with opcode := opSub, flag := flAck } : Frame).setVarHeader xTopic
      (some default) = some (.ok, { new with
        opcode := opSub, flag := flAck, varsSize := 12, varHeaders := [(xTopic, none)] }) := by
    decide
  have h₂ : ({ new with
      opcode := opSub, flag := flAck, varsSize := 12, varHeaders := [(xTopic, none)] } :
        Frame).setVarHeader xSubTag (some (.ofString "_99")) = some (.ok, { new with
          opcode := opSub, flag := flAck, varsSize := 29
          varHeaders := [(xTopic, none), (xSubTag, some (.ofString "_99"))] }) := by
    decide
  have hnone : HashTable.find ([(xTopic, none), (xSubTag, some (.ofString "_99"))] : Headers)
      xTime = none := by decide
  unfold Frame.sub
  rw [set_frame_control_eq new flAck (show opSub ≠ 0 by decide), assert_ok]
  simp only [setVarHeaders, assert_ok]
  rw [h₁, assert_ok, h₂, assert_ok, build, setVarHeader, if_neg (by decide)]
  simp only [bind, Option.bind_some, hnone, now.length_eq, xTime_length]
  rfl

/-- A request is sent exactly when its topic can be requested, and what is to be received stays. -/
theorem request_spec (hkernel : host.kernel.Reliable) (conn : Conn) (n : Nat) (topic : CStr) :
    (Requestable topic → ∃ conn', request host conn n topic = some (.ok, conn') ∧
      conn'.inbox = conn.inbox) ∧
    (¬ Requestable topic → ∀ conn', request host conn n topic ≠ some (.ok, conn')) := by
  by_cases htopic : topic.length = 0
  · refine ⟨fun h => absurd htopic h.1, fun _ conn' hrun => ?_⟩
    -- the header block of the request is undefined
    obtain ⟨k, hwrite⟩ := write_spec hkernel conn (fixedHeader host.big (unset (host.built n)))
    have hsize : 0 < (unset (host.built n)).varsSize := Nat.succ_pos 66
    have hnone : (unset (host.built n)).headerBuffer = none := rfl
    have hsend : send host.big host.kernel conn (unset (host.built n)) = none := by
      rw [send, if_pos (show (unset (host.built n)).isCompleted = true from rfl), hwrite, assert_ok,
        if_pos hsize, hnone]
      rfl
    unfold request at hrun
    rw [sub_empty (host.built n) htopic, Option.bind_eq_bind, Option.bind_some] at hrun
    exact absurd (hsend.symm.trans hrun) (by simp)
  · obtain ⟨s, out, hsub, hs, hout⟩ := sub_counts (host.built n) htopic
    have hrequest : request host conn n topic =
        if s ≠ .ok then some (s, conn) else send host.big host.kernel conn out := by
      unfold request
      rw [hsub]
      rfl
    constructor
    · rintro ⟨-, hroom⟩
      obtain rfl := hs.mpr hroom
      obtain ⟨hcounts, hdone⟩ := hout rfl
      obtain ⟨bytes, hbytes, hlen⟩ := to_bytes_length (requested topic (host.built n))
      have hbuf : out.headerBuffer = some bytes := by
        unfold headerBuffer
        rw [hcounts.headers, hbytes, Option.bind_eq_bind, Option.bind_some, hcounts.size,
          if_pos (Nat.le_of_eq hlen), hlen, Nat.sub_self]
        simp
      obtain ⟨k, hsend⟩ := send_frame hkernel host.big hdone hbuf conn
      rw [if_neg (not_not.mpr rfl), hsend] at hrequest
      exact ⟨_, hrequest, rfl⟩
    · intro hnot conn' hrun
      rw [hrequest] at hrun
      have hok : s = .ok := by
        by_contra hfail
        rw [if_pos hfail] at hrun
        exact hfail (Prod.mk.inj (Option.some.inj hrun)).1
      exact hnot ⟨htopic, hs.mp hok⟩

/-- The first loop goes on when the request is sent and a frame is received, and else it ends. -/
theorem subscribe_loop_cons (topic : CStr) (topics : List CStr) (conn : Conn) (n : Nat) :
    (∃ conn₁ frame conn₂, request host conn n topic = some (.ok, conn₁) ∧
      recv host.big host.kernel (host.received n) conn₁ = some (.ok, frame, conn₂) ∧
      (subscribeLoop host (topic :: topics) conn n).1 =
        .reply frame :: (subscribeLoop host topics conn₂ (n + 1)).1) ∨
    ((∀ conn₁ frame conn₂, request host conn n topic = some (.ok, conn₁) →
        recv host.big host.kernel (host.received n) conn₁ ≠ some (.ok, frame, conn₂)) ∧
      (subscribeLoop host (topic :: topics) conn n).1 = []) := by
  rw [subscribeLoop]
  cases hrequest : request host conn n topic with
  | none => exact Or.inr ⟨fun _ _ _ h => (Option.some_ne_none _ h.symm).elim, rfl⟩
  | some r =>
      obtain ⟨s, conn₁⟩ := r
      by_cases hs : s = .ok
      · subst hs
        dsimp only
        rw [if_neg (not_not.mpr rfl)]
        cases hrecv : recv host.big host.kernel (host.received n) conn₁ with
        | none =>
            refine Or.inr ⟨fun conn' frame conn₂ h h' => ?_, rfl⟩
            obtain ⟨-, rfl⟩ := Prod.mk.inj (Option.some.inj h)
            rw [hrecv] at h'
            cases h'
        | some r =>
            obtain ⟨s, frame, conn₂⟩ := r
            by_cases hs : s = .ok
            · subst hs
              exact Or.inl ⟨conn₁, frame, conn₂, rfl, hrecv, by simp⟩
            · refine Or.inr ⟨fun conn' frame' conn₂' h h' => ?_, by simp [hs]⟩
              obtain ⟨-, rfl⟩ := Prod.mk.inj (Option.some.inj h)
              rw [hrecv] at h'
              exact hs (Prod.mk.inj (Option.some.inj h')).1
      · refine Or.inr ⟨fun conn' frame conn₂ h => ?_, by simp [hs]⟩
        exact absurd (Prod.mk.inj (Option.some.inj h)).1 hs

/-- The frames that the first loop handles are taken for replies. -/
theorem subscribe_loop_replies (topics : List CStr) : ∀ {conn : Conn} {n i : Nat} {frame : Frame}
    {report : Report}, i < topics.length →
      (subscribeLoop host topics conn n).1[i]? ≠ some (.message frame report) := by
  induction topics with
  | nil => exact fun h => absurd h (Nat.not_lt_zero _)
  | cons topic topics ih =>
      intro conn n i frame report hi
      rcases subscribe_loop_cons topic topics conn n with ⟨_, _, _, -, -, hlog⟩ | ⟨-, hlog⟩
      · rw [hlog]
        cases i with
        | zero => simp
        | succ i =>
            rw [List.getElem?_cons_succ]
            exact ih (Nat.lt_of_succ_lt_succ hi)
      · rw [hlog]
        simp

/-- The first packets are all accepted. -/
def AcceptedFirst (host : Host) (packets : List Packet) (n count : Nat) : Prop :=
  ∀ j, j < count → ∃ (q : Packet) (frame : Frame), packets[j]? = some q ∧
    q.Accepted (host.received (n + j)) frame

theorem accepted_first_succ {p : Packet} {packets : List Packet} {n count : Nat} :
    AcceptedFirst host (p :: packets) n (count + 1) ↔
      (∃ frame, p.Accepted (host.received n) frame) ∧
        AcceptedFirst host packets (n + 1) count := by
  constructor
  · intro h
    obtain ⟨q, frame, hq, hfirst⟩ := h 0 (Nat.succ_pos count)
    obtain rfl := Option.some.inj hq
    refine ⟨⟨frame, hfirst⟩, fun j hj => ?_⟩
    rw [Nat.add_assoc, Nat.add_comm 1 j]
    exact h (j + 1) (Nat.succ_lt_succ hj)
  · rintro ⟨⟨frame, hfirst⟩, hrest⟩ j hj
    cases j with
    | zero => exact ⟨p, frame, rfl, hfirst⟩
    | succ j =>
        have := hrest j (Nat.lt_of_succ_lt_succ hj)
        rwa [Nat.add_assoc, Nat.add_comm 1 j] at this

theorem length_packets (packets : List Packet) :
    packets.length ≤ (packets.flatMap Packet.bytes).length := by
  induction packets with
  | nil => exact Nat.zero_le _
  | cons p packets ih =>
      have := p.length_bytes
      rw [List.flatMap_cons, List.length_append, List.length_cons]
      omega

/-- What is printed of the packets after the replies. -/
theorem subscribe_loop_log (hkernel : host.kernel.Reliable) (topics : List CStr) :
    ∀ {packets : List Packet} {conn : Conn} {n : Nat},
      conn.inbox = packets.flatMap Packet.bytes → ∀ (i : Nat) (frame : Frame) (report : Report),
        (subscribeLoop host topics conn n).1[topics.length + i]? = some (.message frame report) ↔
          (∀ topic ∈ topics, Requestable topic) ∧ AcceptedFirst host packets n topics.length ∧
            (∃ q, (packets.drop topics.length)[i]? = some q ∧
              q.Accepted (host.received (n + topics.length + i)) frame ∧
              print frame = some report) ∧
            PrintedBefore host (packets.drop topics.length) (n + topics.length) i := by
  induction topics with
  | nil =>
      intro packets conn n hinbox i frame report
      have hlen := length_packets packets
      rw [subscribeLoop, List.length_nil, Nat.zero_add, receive_loop_log hkernel.recv packets hinbox
        (by rw [hinbox]; omega)]
      constructor
      · intro h
        exact ⟨fun topic h => absurd h List.not_mem_nil, fun j hj => absurd hj (Nat.not_lt_zero j), h⟩
      · exact fun h => h.2.2
  | cons topic topics ih =>
      intro packets conn n hinbox i frame report
      obtain ⟨hsent, hnotSent⟩ := request_spec hkernel conn n topic
      rw [List.forall_mem_cons, List.length_cons]
      rcases subscribe_loop_cons topic topics conn n with
        ⟨conn₁, first, conn₂, hrequest, hrecv, hlog⟩ | ⟨hstop, hlog⟩
      · have htopic : Requestable topic := by
          by_contra h
          exact hnotSent h conn₁ hrequest
        obtain ⟨conn', hrequest', hinbox'⟩ := hsent htopic
        obtain ⟨-, rfl⟩ := Prod.mk.inj (Option.some.inj (hrequest.symm.trans hrequest'))
        rw [hinbox] at hinbox'
        cases packets with
        | nil =>
            obtain ⟨conn', hclosed⟩ := recv_closed hkernel.recv n hinbox'
            rw [hrecv] at hclosed
            cases hclosed
        | cons p packets =>
            rw [List.flatMap_cons] at hinbox'
            rcases recv_cases hkernel.recv n hinbox' with ⟨frame', conn', haccepted, hrest, hrecv'⟩ |
              ⟨-, hnever⟩
            · rw [hrecv] at hrecv'
              obtain ⟨-, heq⟩ := Prod.mk.inj (Option.some.inj hrecv')
              obtain ⟨rfl, rfl⟩ := Prod.mk.inj heq
              rw [hlog, Nat.add_right_comm, List.getElem?_cons_succ, ih hrest, accepted_first_succ,
                List.drop_succ_cons, Nat.add_assoc n 1, Nat.add_comm 1 topics.length]
              constructor
              · rintro ⟨hrequests, hfirst, hlast⟩
                exact ⟨⟨htopic, hrequests⟩, ⟨⟨first, haccepted⟩, hfirst⟩, hlast⟩
              · rintro ⟨⟨-, hrequests⟩, ⟨-, hfirst⟩, hlast⟩
                exact ⟨hrequests, hfirst, hlast⟩
            · exact absurd hrecv (hnever _ _)
      · rw [hlog]
        refine iff_of_false (by simp) ?_
        rintro ⟨⟨htopic, -⟩, hfirst, -⟩
        obtain ⟨conn', hrequest, hinbox'⟩ := hsent htopic
        obtain ⟨q, frame', hq, haccepted⟩ := hfirst 0 (Nat.succ_pos _)
        cases packets with
        | nil => cases hq
        | cons p packets =>
            obtain rfl := Option.some.inj hq
            rw [hinbox, List.flatMap_cons] at hinbox'
            rcases recv_cases hkernel.recv n hinbox' with ⟨frame'', conn'', -, -, hrecv⟩ | ⟨hnot, -⟩
            · exact hstop conn' frame'' conn'' hrequest hrecv
            · exact hnot ⟨frame', haccepted⟩

end Runs

/-- A reply without headers. -/
def okPacket : Packet := ⟨opOk, 0, [], [79, 75], by decide, by decide⟩

/-- The message `hi` with the topic `a`. -/
def msgPacket : Packet where
  opcode := opMsg
  flag := 0
  block := [34, 120, 45, 116, 111, 112, 105, 99, 34, 34, 97, 34, 59]
  payload := [104, 105]
  block_lt := by decide
  payload_lt := hello.payload_lt

/-- A machine that moves three bytes at a time. -/
def someHost : Host := ⟨false, ⟨fun _ => some 3, fun _ => some 3⟩, fun _ => newYear, fun _ => newYear⟩

end Bpsp.Tool
