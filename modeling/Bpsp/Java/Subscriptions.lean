import Bpsp.CLib.Toggles
import Bpsp.Java.Routing

/-!
# The subscriptions of the Java client over time

The requests of a client switch its subscribers on and off. The map `subs` shows the requests whose
calls have returned, and the flags `running` those whose replies were processed; `Follows` says so,
and is kept while every request is answered by an OK, `unsub` is called for the subscriber that is in
the map, and replies are processed in time. `Follows.quiet` is what this comes to when nothing is
under way: the flags and the map agree.
-/

namespace Bpsp.Java

open CLib JLib

/-- The requests whose call has not recorded its subscription. -/
def Caller.unrecorded : Caller → Nat
  | .idle => 0
  | _ => 1

/-- The call makes the `n`-th request: it subscribes what is off, or unsubscribes what is on. -/
inductive Issued (toggles : List Nat) (n : Nat) : Call → Prop
  | sub {s : Nat} (h : toggles[n]? = some s) (hoff : isOn (toggles.take n) s = false) :
      Issued toggles n (.sub s)
  | unsub {s : Nat} (h : toggles[n]? = some s) (hon : isOn (toggles.take n) s = true) :
      Issued toggles n (.unsub s)

/-- The map has just these subscribers, each under its identifier. -/
structure MapOf (objects : Objects) (subs : HashTable JString Nat) (held : Nat → Prop) : Prop where
  keys : subs.keys.Nodup
  mem_iff : ∀ e, e ∈ subs ↔ e.1 = objects.identifier e.2 ∧ held e.2

/-- What holds while everything goes well: the requests toggle subscribers, the map and the flags show
what is on, the requests under way are the last ones, and no reply is an ERR. -/
structure Follows (objects : Objects) (st : System) (toggles : List Nat) : Prop where
  inStep : InStep st
  sent : st.sent = toggles.map Handler.subscriber
  subs : ∃ held, MapOf objects st.client.subs held ∧
    Shows held toggles (toggles.length - st.caller.unrecorded)
  running : Shows (fun s => st.client.running (.subscriber s) = true) toggles st.log.length
  separated : Separated objects.identifier toggles
  calling : ∀ c, st.caller.call = some c → Issued toggles (toggles.length - 1) c
  requests : ∀ r ∈ st.toBroker, Issued toggles r.number r.call
  replies : ∀ x ∈ st.arriving, isReply x.frame = true → x.frame.opcode = Operation.ok.getCode

namespace MapOf

variable {objects : Objects} {subs : HashTable JString Nat} {held : Nat → Prop} {s : Nat}

theorem find_iff (h : MapOf objects subs held) :
    subs.find (objects.identifier s) = some s ↔ held s := by
  rw [HashTable.find_eq_some_iff h.keys, h.mem_iff]
  exact and_iff_right rfl

theorem put (h : MapOf objects subs held)
    (hfree : ∀ x, held x → objects.identifier x ≠ objects.identifier s) :
    MapOf objects (HashMap.put subs (objects.identifier s) s) fun x => held x ∨ x = s := by
  have hnew : objects.identifier s ∉ subs.keys := by
    intro hmem
    obtain ⟨x, hx⟩ := HashTable.mem_keys_iff.mp hmem
    obtain ⟨hkey, hheld⟩ := (h.mem_iff _).mp hx
    exact hfree x hheld hkey.symm
  refine ⟨HashMap.nodup_put h.keys _ _, fun e => ?_⟩
  rw [HashMap.put, if_neg hnew, HashTable.add, List.mem_append, List.mem_singleton, h.mem_iff]
  constructor
  · rintro (⟨hkey, hheld⟩ | rfl)
    · exact ⟨hkey, .inl hheld⟩
    · exact ⟨rfl, .inr rfl⟩
  · rintro ⟨hkey, hheld | heq⟩
    · exact .inl ⟨hkey, hheld⟩
    · exact .inr (Prod.ext (hkey.trans (congrArg objects.identifier heq)) heq)

theorem del (h : MapOf objects subs held)
    (hsame : ∀ x, held x → objects.identifier x = objects.identifier s → x = s) :
    MapOf objects (subs.del (objects.identifier s)) fun x => held x ∧ x ≠ s := by
  refine ⟨HashTable.nodup_del h.keys _, fun e => ?_⟩
  rw [HashTable.mem_del_iff h.keys, h.mem_iff, and_assoc]
  refine and_congr_right fun hkey => and_congr_right fun hheld => not_congr ?_
  rw [hkey]
  exact ⟨hsame e.2 hheld, fun heq => congrArg objects.identifier heq⟩

end MapOf

section Issued

variable {toggles : List Nat} {n : Nat} {c : Call}

theorem Issued.lt (h : Issued toggles n c) : n < toggles.length := by
  cases h with
  | sub h _ => exact (List.getElem?_eq_some_iff.mp h).1
  | unsub h _ => exact (List.getElem?_eq_some_iff.mp h).1

theorem Issued.append (h : Issued toggles n c) (more : List Nat) : Issued (toggles ++ more) n c := by
  have hlt := h.lt
  have htake : (toggles ++ more).take n = toggles.take n :=
    List.take_append_of_le_length (Nat.le_of_lt hlt)
  cases h with
  | sub h hoff => exact .sub (by rw [List.getElem?_append_left hlt, h]) (by rw [htake, hoff])
  | unsub h hon => exact .unsub (by rw [List.getElem?_append_left hlt, h]) (by rw [htake, hon])

/-- The handler of the request is the subscriber that it toggles. -/
theorem Issued.handler (h : Issued toggles n c) :
    (toggles.map Handler.subscriber)[n]? = some c.handler := by
  rw [List.getElem?_map]
  cases h with
  | sub h _ => exact congrArg (Option.map Handler.subscriber) h
  | unsub h _ => exact congrArg (Option.map Handler.subscriber) h

end Issued

/-- The oldest request at the broker has the number of the first one that was not served. -/
theorem InStep.number_eq {st : System} (h : InStep st) {r : Request} {rest : List Request}
    (hbroker : st.toBroker = r :: rest) : r.number = st.sent.length - st.toBroker.length := by
  have horder := h.order
  have hlen := congrArg List.length horder
  rw [hbroker, List.map_cons] at horder
  rw [List.length_append, List.length_map, List.length_drop, List.length_range, hbroker] at hlen
  -- the replies under way come before it in the order of the requests
  have hat : ((List.range st.sent.length).drop st.log.length)[
      (st.arriving.filterMap Incoming.answers).length]? = some r.number := by
    rw [← horder, List.getElem?_append_right (Nat.le_refl _), Nat.sub_self]
    rfl
  rw [List.getElem?_drop] at hat
  obtain ⟨hlt, hget⟩ := List.getElem?_eq_some_iff.mp hat
  rw [List.getElem_range] at hget
  rw [List.length_range] at hlt
  rw [hbroker]
  simp only [List.length_cons] at hlen ⊢
  omega

/-- A reply that is processed is handed to the handler of the oldest request without one. -/
theorem InStep.delivered {st : System} (h : InStep st) {x : Incoming} (hx : st.recvFrame = some x)
    (hreply : isReply x.frame = true) (htimely : timely st .process = true) :
    ∃ n handler, st.process x = { st with
        client := (st.client.deliveryReply x.frame).1
        recvFrame := none
        log := st.log ++ [(n, some handler)] } ∧
      st.sent[st.log.length]? = some handler ∧ (st.client.deliveryReply x.frame).2 = some handler := by
  have htag := h.tagged x (by simp [System.arriving, hx])
  rw [hreply] at htag
  obtain ⟨n, hn⟩ := Option.isSome_iff_exists.mp htag
  have hprocess := @process_reply st x n hn hreply
  have h' := h.process hx htimely
  rw [hprocess] at h'
  have hentry := h'.log st.log.length _ List.getElem?_concat_length
  have hlt : st.log.length < st.sent.length := by
    have := h'.answered
    simp only [List.length_append, List.length_singleton] at this
    omega
  have hdelivered : (st.client.deliveryReply x.frame).2 = st.sent[st.log.length]? :=
    (Prod.mk.inj hentry).2
  rw [List.getElem?_eq_getElem hlt] at hdelivered
  exact ⟨n, _, by rw [hprocess, hdelivered], List.getElem?_eq_getElem hlt, hdelivered⟩

/-- An OK flips the flag of the subscriber that it is handed to and no other. -/
theorem running_delivered {client : Client} {reply : Frame} {s : Nat}
    (hok : reply.opcode = Operation.ok.getCode)
    (hhandler : (client.deliveryReply reply).2 = some (.subscriber s)) (s' : Nat) :
    (client.deliveryReply reply).1.running (.subscriber s') =
      if s = s' then !client.running (.subscriber s') else client.running (.subscriber s') := by
  unfold Client.deliveryReply at hhandler ⊢
  cases hpending : client.pendingReply with
  | nil =>
      rw [hpending] at hhandler
      cases hhandler
  | cons handler rest =>
      rw [hpending] at hhandler
      obtain rfl : handler = .subscriber s := Option.some.inj hhandler
      dsimp only
      rw [if_pos hok]
      show (if Handler.subscriber s' = Handler.subscriber s then !client.running (.subscriber s)
        else client.running (.subscriber s')) = _
      by_cases heq : s = s'
      · rw [heq, if_pos rfl, if_pos rfl]
      · rw [if_neg fun h => heq (Handler.subscriber.inj h).symm, if_neg heq]

theorem subs_delivered (client : Client) (reply : Frame) :
    (client.deliveryReply reply).1.subs = client.subs := by
  unfold Client.deliveryReply
  cases client.pendingReply with
  | nil => rfl
  | cons handler rest =>
      dsimp only
      split_ifs
      · cases handler <;> rfl
      · rfl

section Steps

variable {objects : Objects} {st st' : System} {toggles : List Nat} {s : Nat}

theorem Follows.init : Follows objects .init [] where
  inStep := InStep.init
  sent := rfl
  subs := ⟨fun _ => False, ⟨List.nodup_nil, fun e => by simp [System.init, Client.init]⟩,
    fun x => by simp⟩
  running x := by simp [System.init, Client.init]
  separated := Separated.nil _
  calling c hc := by cases hc
  requests r hr := by cases hr
  replies x hx := by cases hx

/-- While no call is made, the map shows all requests. -/
theorem Follows.idle (h : Follows objects st toggles) (hidle : st.caller = .idle) :
    ∃ held, MapOf objects st.client.subs held ∧ ∀ s, held s ↔ isOn toggles s = true := by
  obtain ⟨held, hmap, hshown⟩ := h.subs
  rw [hidle, show Caller.idle.unrecorded = 0 from rfl, Nat.sub_zero] at hshown
  refine ⟨held, hmap, fun s => ?_⟩
  rw [hshown s, List.take_length]

/-- A request that was sent is one more toggle. -/
theorem Follows.request (h : Follows objects st toggles) (hidle : st.caller = .idle) {c : Call}
    (hprepare : st.client.prepare objects c = .sends)
    (hissued : Issued (toggles ++ [s]) toggles.length c)
    (hfree : isOn toggles s = false → ∀ x, isOn toggles x = true →
      objects.identifier x ≠ objects.identifier s) :
    Follows objects (st.call objects c true) (toggles ++ [s]) := by
  have hcall : st.call objects c true = { st with
      caller := .sent c
      toBroker := st.toBroker ++ [⟨st.sent.length, c⟩]
      sent := st.sent ++ [c.handler] } := by
    simp [System.call, hprepare]
  have hlen : st.sent.length = toggles.length := by
    rw [h.sent, List.length_map]
  have hin := @InStep.call objects _ h.inStep hidle c true
  have hhandler := hissued.handler
  rw [List.map_append, List.map_singleton, ← List.length_map (f := Handler.subscriber),
    List.getElem?_concat_length] at hhandler
  rw [hcall] at hin ⊢
  refine ⟨hin, ?_, ?_, ?_, h.separated.concat hfree, ?_, ?_, h.replies⟩
  · show st.sent ++ [c.handler] = _
    rw [h.sent, List.map_append, List.map_singleton, ← Option.some.inj hhandler]
  · obtain ⟨held, hmap, hshown⟩ := h.subs
    rw [hidle, show Caller.idle.unrecorded = 0 from rfl, Nat.sub_zero] at hshown
    have hcount : (toggles ++ [s]).length - (Caller.sent c).unrecorded = toggles.length := by
      rw [List.length_append]
      rfl
    refine ⟨held, hmap, ?_⟩
    rw [hcount]
    exact hshown.append (Nat.le_refl _) [s]
  · refine h.running.append ?_ [s]
    rw [← hlen]
    exact h.inStep.answered
  · intro c' hc'
    obtain rfl : c = c' := Option.some.inj hc'
    rw [List.length_append, List.length_singleton, Nat.add_sub_cancel]
    exact hissued
  · intro r hr
    rcases List.mem_append.mp hr with hr | hr
    · exact (h.requests r hr).append [s]
    · rw [List.mem_singleton.mp hr]
      show Issued (toggles ++ [s]) st.sent.length c
      rw [hlen]
      exact hissued

/-- `sub` sends for what is off and shares its identifier with nothing that is on. -/
theorem Follows.sub (h : Follows objects st toggles) (hidle : st.caller = .idle)
    (hprepare : st.client.prepare objects (.sub s) = .sends) :
    Follows objects (st.call objects (.sub s) true) (toggles ++ [s]) := by
  obtain ⟨held, hmap, hheld⟩ := h.idle hidle
  have hnone : st.client.subs.find (objects.identifier s) = none := by
    unfold Client.prepare at hprepare
    cases hfind : st.client.subs.find (objects.identifier s) with
    | none => rfl
    | some s' => simp [hfind] at hprepare
  have hfree : ∀ x, isOn toggles x = true → objects.identifier x ≠ objects.identifier s := by
    intro x hx heq
    have hfind := hmap.find_iff.mpr ((hheld x).mpr hx)
    rw [heq, hnone] at hfind
    cases hfind
  refine h.request hidle hprepare (.sub List.getElem?_concat_length ?_) fun _ => hfree
  rw [List.take_left, ← Bool.not_eq_true]
  exact fun hon => hfree s hon rfl

/-- A subscriber that `unsub` finds in the map is on. -/
theorem Follows.unsub_on (h : Follows objects st toggles) (hidle : st.caller = .idle)
    (hprepare : st.client.prepare objects (.unsub s) = .sends)
    (hown : ∀ s', st.client.subs.find (objects.identifier s) = some s' → s' = s) :
    isOn toggles s = true := by
  obtain ⟨held, hmap, hheld⟩ := h.idle hidle
  unfold Client.prepare at hprepare
  cases hfind : st.client.subs.find (objects.identifier s) with
  | none => simp [hfind] at hprepare
  | some s' =>
      obtain rfl := hown s' hfind
      exact (hheld s').mp (hmap.find_iff.mp hfind)

/-- `unsub` sends for what is on. -/
theorem Follows.unsub (h : Follows objects st toggles) (hidle : st.caller = .idle)
    (hprepare : st.client.prepare objects (.unsub s) = .sends) (hon : isOn toggles s = true) :
    Follows objects (st.call objects (.unsub s) true) (toggles ++ [s]) := by
  refine h.request hidle hprepare (.unsub List.getElem?_concat_length ?_) fun hoff => ?_
  · rw [List.take_left, hon]
  · rw [hon] at hoff
    cases hoff

theorem Follows.enqueue (h : Follows objects st toggles) {c : Call} (hcaller : st.caller = .sent c) :
    Follows objects { st with
      client := st.client.enqueuePendingReply c.handler, caller := .enqueued c } toggles := by
  have hstep : st.step objects .enqueue = some { st with
      client := st.client.enqueuePendingReply c.handler, caller := .enqueued c } := by
    simp [System.step, hcaller]
  have hsubs := h.subs
  have hcalling := h.calling
  rw [hcaller] at hsubs hcalling
  exact ⟨h.inStep.step rfl hstep, h.sent, hsubs, h.running, h.separated, hcalling, h.requests,
    h.replies⟩

/-- What `sub` and `unsub` record is what their request toggles. -/
theorem Follows.record (h : Follows objects st toggles) {c : Call}
    (hcaller : st.caller = .enqueued c) :
    Follows objects { st with client := st.client.recordSub objects c, caller := .idle } toggles := by
  have hstep : st.step objects .record = some { st with
      client := st.client.recordSub objects c, caller := .idle } := by
    simp [System.step, hcaller]
  have hissued := h.calling c (by rw [hcaller]; rfl)
  obtain ⟨held, hmap, hshown⟩ := h.subs
  rw [hcaller, show (Caller.enqueued c).unrecorded = 1 from rfl] at hshown
  have hlen : toggles.length - 1 + 1 = toggles.length - Caller.idle.unrecorded := by
    have := hissued.lt
    rw [show Caller.idle.unrecorded = 0 from rfl]
    omega
  have hin := h.inStep.step (show timely st .record = true from rfl) hstep
  have hidle : ∀ c', Caller.idle.call = some c' → Issued toggles (toggles.length - 1) c' :=
    fun c' hc' => by cases hc'
  cases hissued with
  | @sub s hs hoff =>
      have hfree : ∀ x, held x → objects.identifier x ≠ objects.identifier s :=
        fun x hx => h.separated.ne hs hoff ((hshown x).mp hx)
      exact ⟨hin, h.sent, ⟨_, hmap.put hfree, hlen ▸ hshown.switch_on hs hoff⟩, h.running,
        h.separated, hidle, h.requests, h.replies⟩
  | @unsub s hs hon =>
      have hsame : ∀ x, held x → objects.identifier x = objects.identifier s → x = s :=
        fun x hx => h.separated _ x s ((hshown x).mp hx) hon
      exact ⟨hin, h.sent, ⟨_, hmap.del hsame, hlen ▸ hshown.switch_off hs hon⟩, h.running,
        h.separated, hidle, h.requests, h.replies⟩

theorem Follows.receive (h : Follows objects st toggles) {x : Incoming} {rest : List Incoming}
    (hnone : st.recvFrame = none) (hclient : st.toClient = x :: rest) :
    Follows objects { st with recvFrame := some x, toClient := rest } toggles := by
  have hstep : st.step objects .receive = some { st with recvFrame := some x, toClient := rest } := by
    simp [System.step, hnone, hclient]
  have hsame : System.arriving { st with recvFrame := some x, toClient := rest } = st.arriving := by
    unfold System.arriving
    rw [hnone, hclient]
    rfl
  exact ⟨h.inStep.step rfl hstep, h.sent, h.subs, h.running, h.separated, h.calling, h.requests,
    hsame ▸ h.replies⟩

/-- One more frame on its way to the client. -/
theorem replies_append {xs ys : List Incoming} {frame : Frame} {n : Option Nat}
    (h : ∀ x ∈ xs, isReply x.frame = true → x.frame.opcode = Operation.ok.getCode)
    (hys : ys = xs ++ [⟨frame, n⟩])
    (hframe : isReply frame = true → frame.opcode = Operation.ok.getCode) :
    ∀ x ∈ ys, isReply x.frame = true → x.frame.opcode = Operation.ok.getCode := by
  intro x hx
  rw [hys, List.mem_append, List.mem_singleton] at hx
  rcases hx with hx | rfl
  · exact h x hx
  · exact hframe

theorem Follows.push (h : Follows objects st toggles) {frame : Frame}
    (hreply : isReply frame = false) :
    Follows objects { st with toClient := st.toClient ++ [⟨frame, none⟩] } toggles := by
  have hstep : st.step objects (.push frame) = some { st with
      toClient := st.toClient ++ [⟨frame, none⟩] } := by
    simp [System.step, hreply]
  have harriving : System.arriving { st with toClient := st.toClient ++ [⟨frame, none⟩] } =
      st.arriving ++ [⟨frame, none⟩] := (List.append_assoc _ _ _).symm
  refine ⟨h.inStep.step rfl hstep, h.sent, h.subs, h.running, h.separated, h.calling, h.requests,
    replies_append h.replies harriving fun hyes => ?_⟩
  rw [hreply] at hyes
  cases hyes

/-- The broker answers the oldest request by an OK. -/
theorem Follows.answer (h : Follows objects st toggles) {r : Request} {rest : List Request}
    (hbroker : st.toBroker = r :: rest) {frame : Frame}
    (hok : frame.opcode = Operation.ok.getCode) :
    ∃ st', st.step objects (.answer frame) = some st' ∧ st'.toBroker = rest ∧
      Follows objects st' toggles := by
  have hreply : isReply frame = true := by simp [isReply, hok]
  have hstep : st.step objects (.answer frame) = some { st with
      toBroker := rest, toClient := st.toClient ++ [⟨frame, some r.number⟩] } := by
    simp [System.step, hbroker, hreply]
  have harriving : System.arriving { st with
      toBroker := rest, toClient := st.toClient ++ [⟨frame, some r.number⟩] } =
      st.arriving ++ [⟨frame, some r.number⟩] := (List.append_assoc _ _ _).symm
  refine ⟨_, hstep, rfl, h.inStep.step rfl hstep, h.sent, h.subs, h.running, h.separated, h.calling,
    fun r' hr' => ?_, replies_append h.replies harriving fun _ => hok⟩
  refine h.requests r' ?_
  rw [hbroker]
  exact List.mem_cons_of_mem _ hr'

/-- An OK that is processed in time flips the flag that its request toggles. -/
theorem Follows.process (h : Follows objects st toggles) {x : Incoming} (hx : st.recvFrame = some x)
    (htimely : timely st .process = true) : Follows objects (st.process x) toggles := by
  have hin := h.inStep.process hx htimely
  have harriving : ∀ y ∈ st.toClient, y ∈ st.arriving := by
    intro y hy
    exact List.mem_append_right _ hy
  have hreplies : ∀ y ∈ st.toClient, isReply y.frame = true →
      y.frame.opcode = Operation.ok.getCode := fun y hy => h.replies y (harriving y hy)
  cases hreply : isReply x.frame with
  | false =>
      rw [process_other hreply] at hin ⊢
      exact ⟨hin, h.sent, h.subs, h.running, h.separated, h.calling, h.requests, hreplies⟩
  | true =>
      -- the handler that waits longest is the subscriber of the next toggle
      obtain ⟨n, handler, hprocess, hsent, hdelivered⟩ := h.inStep.delivered hx hreply htimely
      have hok := h.replies x (by simp [System.arriving, hx]) hreply
      rw [h.sent, List.getElem?_map] at hsent
      obtain ⟨s, hs, rfl⟩ := Option.map_eq_some_iff.mp hsent
      rw [hprocess] at hin ⊢
      refine ⟨hin, h.sent, ?_, ?_, h.separated, h.calling, h.requests, hreplies⟩
      · obtain ⟨held, hmap, hshown⟩ := h.subs
        refine ⟨held, ?_, hshown⟩
        show MapOf objects (st.client.deliveryReply x.frame).1.subs held
        rw [subs_delivered]
        exact hmap
      · rw [List.length_append, List.length_singleton]
        refine h.running.toggle hs fun s' => ?_
        rw [running_delivered hok hdelivered]
        split_ifs
        · rw [Bool.not_eq_true', Bool.not_eq_true]
        · rfl

/-- A step other than a call and an answer leaves the requests alone. -/
theorem Follows.act (h : Follows objects st toggles) {a : Action}
    (hcall : ∀ c sends, a ≠ .call c sends) (hanswer : ∀ frame, a ≠ .answer frame)
    (hstep : st.step objects a = some st') (htimely : timely st a = true) :
    Follows objects st' toggles ∧ st'.toBroker = st.toBroker := by
  cases step_cases hstep with
  | call c sends => exact absurd rfl (hcall c sends)
  | enqueue c hc => exact ⟨h.enqueue hc, rfl⟩
  | record c hc => exact ⟨h.record hc, rfl⟩
  | answer frame => exact absurd rfl (hanswer frame)
  | push frame hreply => exact ⟨h.push hreply, rfl⟩
  | receive x rest hnone hx => exact ⟨h.receive hnone hx, rfl⟩
  | process x hx => exact ⟨h.process hx htimely, rfl⟩

/-- When nothing is under way, the map and the flags show all requests. -/
theorem Follows.quiet (h : Follows objects st toggles) (hcaller : st.caller = .idle)
    (hbroker : st.toBroker = []) (harriving : ∀ x ∈ st.arriving, isReply x.frame = false) :
    MapOf objects st.client.subs (fun s => isOn toggles s = true) ∧
      ∀ s, st.client.running (.subscriber s) = true ↔ isOn toggles s = true := by
  have hnone : st.arriving.filterMap Incoming.answers = [] := by
    refine List.filterMap_eq_nil_iff.mpr fun x hx => ?_
    have htag := h.inStep.tagged x hx
    rw [harriving x hx] at htag
    exact Option.isNone_iff_eq_none.mp (by rw [← Option.not_isSome, htag]; rfl)
  have horder := h.inStep.order
  rw [hnone, hbroker, List.map_nil, List.nil_append, eq_comm, List.drop_eq_nil_iff,
    List.length_range] at horder
  have hall : st.log.length = toggles.length := by
    have hanswered := h.inStep.answered
    rw [h.sent, List.length_map] at hanswered horder
    omega
  obtain ⟨held, hmap, hheld⟩ := h.idle hcaller
  refine ⟨⟨hmap.keys, fun e => ?_⟩, fun s => ?_⟩
  · rw [hmap.mem_iff, hheld]
  · have hrunning := h.running s
    rwa [hall, List.take_length] at hrunning

end Steps

end Bpsp.Java
