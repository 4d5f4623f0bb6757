import Bpsp.Java.Client

/-!
# The subscribers of the Java client

`subs` has each live `Subscriber` under its topic and its tag, joined by a slash. A topic has slashes
of its own, and a tag may have them, so that two pairs can give one text: the second is refused as a
duplicate, and messages for it are handed to the first. `routing_iff` says that nothing else goes
wrong, and `routing_plain` that nothing does while no tag has a slash.
-/

namespace Bpsp.Java

open CLib JLib

/-- The topic and the tag of a `Subscriber`. -/
def Objects.pair (objects : Objects) (s : Nat) : JString × JString :=
  (objects.subTopicOf s, objects.subTagOf s)

/-- The topic and the tag of a message. One without a tag is for the tag that the broker gives to a
subscription without one. -/
def address (msg : Frame) : JString × JString :=
  (match msg.getVarHeader (ascii Bpsp.Frame.xTopic.bytes) with
    | some topicHdr => topicHdr.value
    | none => [],
   match msg.getVarHeader (ascii Bpsp.Frame.xSubTag.bytes) with
    | some subTagHdr => subTagHdr.value
    | none => ascii (CStr.ofString "_0").bytes)

/-- The call whose request was sent and that has not returned. -/
def Caller.call : Caller → Option Call
  | .idle => none
  | .sent c => some c
  | .enqueued c => some c

section Calls

variable (objects : Objects)

/-- The live subscribers when a call has returned: `sub` adds its own, and `unsub` ends the one of
the same topic and tag. -/
def live (subscribers : List Nat) : Call → List Nat
  | .pub _ => subscribers
  | .sub s => subscribers ++ [s]
  | .unsub s => subscribers.filter fun s' => objects.pair s' ≠ objects.pair s

/-- The live subscribers after a step. -/
def liveAfter (st : System) (subscribers : List Nat) : Action → List Nat
  | .record =>
      match st.caller with
      | .enqueued c => live objects subscribers c
      | _ => subscribers
  | _ => subscribers

/-- A step does what its `Subscriber` or its message asks for. `sub` goes on exactly when no live
subscriber has the same topic and tag, `unsub` exactly when one has, and a message is handed to the
live subscriber of its topic and tag and to no other. -/
def Routes (st : System) (subscribers : List Nat) : Action → Prop
  | .call (.sub s) _ => st.client.prepare objects (.sub s) = .sends ↔
      ∀ s' ∈ subscribers, objects.pair s' ≠ objects.pair s
  | .call (.unsub s) _ => st.client.prepare objects (.unsub s) = .sends ↔
      ∃ s' ∈ subscribers, objects.pair s' = objects.pair s
  | .process => ∀ x, st.recvFrame = some x → x.frame.opcode = Operation.msg.getCode →
      ∃ target, (st.client.processFrame x.frame).2 = .message target ∧
        ∀ s, target = some s ↔ s ∈ subscribers ∧ objects.pair s = address x.frame
  | _ => True

/-- No live subscriber with another topic or tag has the same identifier. -/
def Separate (subscribers : List Nat) (pair : JString × JString) : Prop :=
  ∀ s ∈ subscribers, objects.identifier s = getIdentifier pair.1 pair.2 → objects.pair s = pair

/-- What a step is about is separate from the live subscribers. -/
def Distinct (st : System) (subscribers : List Nat) : Action → Prop
  | .call (.sub s) _ => Separate objects subscribers (objects.pair s)
  | .call (.unsub s) _ => Separate objects subscribers (objects.pair s)
  | .process => ∀ x, st.recvFrame = some x → x.frame.opcode = Operation.msg.getCode →
      Separate objects subscribers (address x.frame)
  | _ => True

/-- A property of every step of a run. -/
def Throughout (property : System → List Nat → Action → Prop) (st : System)
    (subscribers : List Nat) : List Action → Prop
  | [] => True
  | a :: rest => property st subscribers a ∧
      ∀ st', st.step objects a = some st' →
        Throughout property st' (liveAfter objects st subscribers a) rest

/-- What holds while every step was routed: the map has the live subscribers under their
identifiers, and the request of a call that has not returned was rightly sent. -/
structure Routed (st : System) (subscribers : List Nat) : Prop where
  subs : st.client.subs = HashMap.indexed objects.identifier subscribers
  nodup : (subscribers.map objects.identifier).Nodup
  subbing : ∀ s, st.caller.call = some (.sub s) →
    ∀ s' ∈ subscribers, objects.identifier s' ≠ objects.identifier s
  unsubbing : ∀ s, st.caller.call = some (.unsub s) →
    Separate objects subscribers (objects.pair s)

end Calls

section Runs

variable {objects : Objects} {st st' : System} {subscribers : List Nat}

/-- An identifier is found exactly when it is that of a live subscriber. -/
theorem Routed.find_iff (h : Routed objects st subscribers) (pair : JString × JString) (s : Nat) :
    st.client.subs.find (getIdentifier pair.1 pair.2) = some s ↔
      s ∈ subscribers ∧ objects.identifier s = getIdentifier pair.1 pair.2 := by
  rw [h.subs, HashMap.find_indexed_eq_some_iff h.nodup]

/-- A lookup by identifier is one by topic and tag exactly for what is separate. -/
theorem Routed.separate_iff (h : Routed objects st subscribers) (pair : JString × JString) :
    (∀ s, st.client.subs.find (getIdentifier pair.1 pair.2) = some s ↔
      s ∈ subscribers ∧ objects.pair s = pair) ↔ Separate objects subscribers pair := by
  constructor
  · intro hfind s hs hidentifier
    exact ((hfind s).mp ((h.find_iff pair s).mpr ⟨hs, hidentifier⟩)).2
  · intro hseparate s
    rw [h.find_iff]
    constructor
    · exact fun ⟨hs, hidentifier⟩ => ⟨hs, hseparate s hs hidentifier⟩
    · rintro ⟨hs, rfl⟩
      exact ⟨hs, rfl⟩

/-- Whether one is found, for a pair that is separate. -/
theorem Routed.isSome_iff (h : Routed objects st subscribers) (pair : JString × JString) :
    ((∃ s, st.client.subs.find (getIdentifier pair.1 pair.2) = some s) ↔
      ∃ s ∈ subscribers, objects.pair s = pair) ↔ Separate objects subscribers pair := by
  constructor
  · intro hsome s hs hidentifier
    obtain ⟨s', hs', rfl⟩ := hsome.mp ⟨s, (h.find_iff pair s).mpr ⟨hs, hidentifier⟩⟩
    -- both have the identifier, and the identifiers of live subscribers differ
    rw [List.inj_on_of_nodup_map h.nodup hs hs' hidentifier]
  · intro hseparate
    have hfind := (h.separate_iff pair).mpr hseparate
    exact ⟨fun ⟨s, hs⟩ => ⟨s, (hfind s).mp hs⟩, fun ⟨s, hs⟩ => ⟨s, (hfind s).mpr hs⟩⟩

theorem prepare_sub_iff (htopic : ∀ s, objects.subTopicOf s ≠ []) (client : Client) (s : Nat) :
    client.prepare objects (.sub s) = .sends ↔
      ¬ ∃ s', client.subs.find (objects.identifier s) = some s' := by
  cases hfind : client.subs.find (objects.identifier s) with
  | none => simp [Client.prepare, hfind, htopic s]
  | some s' => simp [Client.prepare, hfind]

theorem prepare_unsub_iff (htopic : ∀ s, objects.subTopicOf s ≠ []) (client : Client) (s : Nat) :
    client.prepare objects (.unsub s) = .sends ↔
      ∃ s', client.subs.find (objects.identifier s) = some s' := by
  cases hfind : client.subs.find (objects.identifier s) with
  | none => simp [Client.prepare, hfind]
  | some s' => simp [Client.prepare, hfind, htopic s]

theorem process_msg {msg : Frame} (h : msg.opcode = Operation.msg.getCode) (client : Client) :
    (client.processFrame msg).2 =
      .message (client.subs.find (getIdentifier (address msg).1 (address msg).2)) := by
  have hreply : isReply msg = false := by
    unfold isReply
    rw [h]
    decide
  unfold Client.processFrame
  rw [hreply, if_neg (by decide), if_pos h]
  rfl

/-- In a state that was routed so far, the next step is exactly when it is about what is separate. -/
theorem Routed.routes_iff (htopic : ∀ s, objects.subTopicOf s ≠ [])
    (h : Routed objects st subscribers) (a : Action) :
    Routes objects st subscribers a ↔ Distinct objects st subscribers a := by
  cases a with
  | call c sends =>
      cases c with
      | pub p => exact Iff.rfl
      | sub s =>
          have hnone : (∀ s' ∈ subscribers, objects.pair s' ≠ objects.pair s) ↔
              ¬ ∃ s' ∈ subscribers, objects.pair s' = objects.pair s := by
            push Not
            rfl
          show (_ ↔ _) ↔ _
          rw [prepare_sub_iff htopic, hnone, not_iff_not]
          exact h.isSome_iff (objects.pair s)
      | unsub s =>
          show (_ ↔ _) ↔ _
          rw [prepare_unsub_iff htopic]
          exact h.isSome_iff (objects.pair s)
  | process =>
      refine forall_congr' fun x => imp_congr_right fun _ => imp_congr_right fun hmsg => ?_
      rw [process_msg hmsg, ← h.separate_iff]
      constructor
      · rintro ⟨target, htarget, hs⟩
        cases htarget
        exact hs
      · exact fun hs => ⟨_, rfl, hs⟩
  | _ => exact Iff.rfl

/-- Outside of a call only the map matters. -/
theorem Routed.of_idle (hcaller : st.caller = .idle)
    (hsubs : st.client.subs = HashMap.indexed objects.identifier subscribers)
    (hnodup : (subscribers.map objects.identifier).Nodup) : Routed objects st subscribers := by
  have hcall : st.caller.call = none := by
    rw [hcaller]
    rfl
  refine ⟨hsubs, hnodup, fun s hs => ?_, fun s hs => ?_⟩ <;> (rw [hcall] at hs; cases hs)

theorem Routed.init : Routed objects .init [] := .of_idle rfl rfl List.nodup_nil

/-- Processing a frame changes no subscription. -/
theorem process_subs (x : Incoming) : (st.process x).client.subs = st.client.subs := by
  have hreply : ∀ reply, (st.client.deliveryReply reply).1.subs = st.client.subs := by
    intro reply
    unfold Client.deliveryReply
    cases st.client.pendingReply with
    | nil => rfl
    | cons handler rest =>
        dsimp only
        split
        · cases handler <;> rfl
        · rfl
  show (st.client.processFrame x.frame).1.subs = _
  unfold Client.processFrame
  split_ifs
  · exact hreply x.frame
  · rfl
  · rfl

/-- A call up to `sendFrame` that was routed. -/
theorem Routed.call (htopic : ∀ s, objects.subTopicOf s ≠ []) (h : Routed objects st subscribers)
    (c : Call) (sends : Bool)
    (hdistinct : Distinct objects st subscribers (.call c sends)) :
    Routed objects (st.call objects c sends) subscribers := by
  unfold System.call
  split
  · next hsends =>
    split_ifs
    · refine ⟨h.subs, h.nodup, fun s hs => ?_, fun s hs => ?_⟩
      · obtain rfl : c = .sub s := Option.some.inj hs
        intro s' hs' heq
        exact (prepare_sub_iff htopic _ s).mp hsends ⟨s', (h.find_iff (objects.pair s) s').mpr ⟨hs', heq⟩⟩
      · obtain rfl : c = .unsub s := Option.some.inj hs
        exact hdistinct
    · exact h
  · exact h

/-- A call that returns leaves the live subscribers in the map. -/
theorem Routed.record (h : Routed objects st subscribers) {c : Call}
    (hcaller : st.caller = .enqueued c) :
    Routed objects { st with client := st.client.recordSub objects c, caller := .idle }
      (live objects subscribers c) := by
  have hcall : st.caller.call = some c := by
    rw [hcaller]
    rfl
  cases c with
  | pub p => exact .of_idle rfl h.subs h.nodup
  | sub s =>
      have hnew := h.subbing s hcall
      refine .of_idle rfl ?_ ?_
      · show HashMap.put st.client.subs _ _ = _
        rw [h.subs, HashMap.put_indexed hnew]
        rfl
      · show ((subscribers ++ [s]).map _).Nodup
        rw [List.map_append, List.map_singleton, List.nodup_append]
        refine ⟨h.nodup, List.nodup_singleton _, ?_⟩
        rintro _ hmem _ hlast rfl
        obtain ⟨s', hs', heq⟩ := List.mem_map.mp hmem
        exact hnew s' hs' (heq.trans (List.mem_singleton.mp hlast))
  | unsub s =>
      have hseparate := h.unsubbing s hcall
      -- the entry under the identifier is the one of the pair
      have hsame : (subscribers.filter fun s' => objects.identifier s' ≠ objects.identifier s) =
          subscribers.filter fun s' => objects.pair s' ≠ objects.pair s := by
        refine List.filter_congr fun s' hs' => decide_eq_decide.mpr (not_congr ⟨hseparate s' hs', ?_⟩)
        intro heq
        unfold Objects.identifier
        obtain ⟨htopic, htag⟩ := Prod.mk.inj heq
        rw [htopic, htag]
      refine .of_idle rfl ?_ ?_
      · show HashTable.del st.client.subs _ = _
        rw [h.subs, HashMap.del_indexed h.nodup, hsame]
        rfl
      · exact h.nodup.sublist (List.filter_sublist.map _)

/-- A step about what is separate keeps the map in agreement with the live subscribers. -/
theorem Routed.step (htopic : ∀ s, objects.subTopicOf s ≠ []) (h : Routed objects st subscribers)
    {a : Action} (hdistinct : Distinct objects st subscribers a)
    (hstep : st.step objects a = some st') :
    Routed objects st' (liveAfter objects st subscribers a) := by
  cases step_cases hstep with
  | call c sends hidle => exact h.call htopic c sends hdistinct
  | enqueue c hcaller =>
      have hcall : st.caller.call = some c := by
        rw [hcaller]
        rfl
      exact ⟨h.subs, h.nodup, fun s hs => h.subbing s (hcall.trans hs),
        fun s hs => h.unsubbing s (hcall.trans hs)⟩
  | record c hcaller =>
      have hlive : liveAfter objects st subscribers .record = live objects subscribers c := by
        unfold liveAfter
        rw [hcaller]
      rw [hlive]
      exact h.record hcaller
  | process x hx => exact ⟨(process_subs x).trans h.subs, h.nodup, h.subbing, h.unsubbing⟩
  | _ => exact ⟨h.subs, h.nodup, h.subbing, h.unsubbing⟩

theorem Routed.run_iff (htopic : ∀ s, objects.subTopicOf s ≠ []) (acts : List Action) :
    ∀ {st : System} {subscribers : List Nat}, Routed objects st subscribers →
      (Throughout objects (Routes objects) st subscribers acts ↔
        Throughout objects (Distinct objects) st subscribers acts) := by
  induction acts with
  | nil => exact fun _ => Iff.rfl
  | cons a rest ih =>
      intro st subscribers h
      refine (and_congr_left' (h.routes_iff htopic a)).trans (and_congr_right fun hdistinct => ?_)
      exact forall_congr' fun st' => imp_congr_right fun hstep => ih (h.step htopic hdistinct hstep)

theorem Throughout.mono {property property' : System → List Nat → Action → Prop}
    (himp : ∀ st subscribers a, property st subscribers a → property' st subscribers a)
    (acts : List Action) : ∀ {st : System} {subscribers : List Nat},
      Throughout objects property st subscribers acts →
        Throughout objects property' st subscribers acts := by
  induction acts with
  | nil => exact fun _ => trivial
  | cons a rest ih => exact fun h => ⟨himp _ _ a h.1, fun st' hstep => ih (h.2 st' hstep)⟩

/-- The last slash of an identifier is the one before a tag that has none. -/
theorem identifier_injective {topic topic' subTag subTag' : JString} (h : 47 ∉ subTag)
    (h' : 47 ∉ subTag') (heq : getIdentifier topic subTag = getIdentifier topic' subTag') :
    topic = topic' ∧ subTag = subTag' := by
  have hlast : ∀ {e s s' : JString}, 47 ∉ s → 47 :: s = e ++ 47 :: s' → e = [] := by
    intro e s s' hs heq
    cases e with
    | nil => rfl
    | cons c e =>
        obtain ⟨-, rfl⟩ := List.cons.inj heq
        exact absurd (List.mem_append_right e List.mem_cons_self) hs
  rw [getIdentifier, getIdentifier, List.append_assoc, List.append_assoc] at heq
  rcases List.append_eq_append_iff.mp heq with ⟨e, rfl, hrest⟩ | ⟨e, rfl, hrest⟩
  · obtain rfl := hlast h hrest
    exact ⟨(List.append_nil _).symm, (List.cons.inj hrest).2⟩
  · obtain rfl := hlast h' hrest
    exact ⟨List.append_nil _, (List.cons.inj hrest).2.symm⟩

/-- What has no slash in its tag is separate from subscribers without one. -/
theorem separate_of_plain (hplain : ∀ s, 47 ∉ objects.subTagOf s) (pair : JString × JString)
    (h : 47 ∉ pair.2) : Separate objects subscribers pair := by
  intro s _ heq
  obtain ⟨htopic, htag⟩ := identifier_injective (hplain s) h heq
  exact Prod.ext htopic htag

end Runs

/-- In every run of the client, for every order of the steps of its threads and the broker: `sub`
accepts a `Subscriber` exactly when no live one has the same topic and tag, and a message goes to the
live one of its topic and tag and to no other, in every step exactly when in every step no live
subscriber with another topic or tag has the identifier in question. -/
theorem routing_iff {objects : Objects} (htopic : ∀ s, objects.subTopicOf s ≠ [])
    (acts : List Action) :
    Throughout objects (Routes objects) .init [] acts ↔
      Throughout objects (Distinct objects) .init [] acts :=
  Routed.init.run_iff htopic acts

/-- The topic `a` with the tag `b/c`, and the topic `a/b` with the tag `c`. -/
def slashObjects : Objects where
  topicOf _ := [97]
  subTopicOf s := if s = 0 then [97] else [97, 47, 98]
  subTagOf s := if s = 0 then [98, 47, 99] else [99]

theorem slash_topics (s : Nat) : slashObjects.subTopicOf s ≠ [] := by
  unfold slashObjects
  dsimp only
  split_ifs <;> exact List.cons_ne_nil _ _

/-- One of the two can be subscribed, and subscribed again after it was unsubscribed. -/
theorem routing_slash_alone : Throughout slashObjects (Routes slashObjects) .init []
    [.call (.sub 1) true, .enqueue, .record, .call (.unsub 1) true, .enqueue, .record,
      .call (.sub 1) true] := by
  have hempty : Separate slashObjects [] (slashObjects.pair 1) := fun s hs => by cases hs
  have hsame : Separate slashObjects [1] (slashObjects.pair 1) := by
    intro s hs _
    rw [List.mem_singleton.mp hs]
  refine (routing_iff slash_topics _).mpr ⟨hempty, fun _ h => ?_⟩
  cases h
  refine ⟨trivial, fun _ h => ?_⟩
  cases h
  refine ⟨trivial, fun _ h => ?_⟩
  cases h
  refine ⟨hsame, fun _ h => ?_⟩
  cases h
  refine ⟨trivial, fun _ h => ?_⟩
  cases h
  refine ⟨trivial, fun _ h => ?_⟩
  cases h
  exact ⟨hempty, fun _ _ => trivial⟩

/-- The other is refused as a duplicate. -/
theorem routing_slash_refused : ¬ Throughout slashObjects (Routes slashObjects) .init []
    [.call (.sub 0) true, .enqueue, .record, .call (.sub 1) true] := by
  intro h
  have hsub := (((h.2 _ rfl).2 _ rfl).2 _ rfl).1
  have hdiffer : slashObjects.pair 0 ≠ slashObjects.pair 1 := by decide
  have hsends := hsub.mpr fun s' hs' => by
    rw [List.mem_singleton.mp hs']
    exact hdiffer
  revert hsends
  decide

/-- The tag of a message that is processed has no slash. -/
def PlainMessage (st : System) (_ : List Nat) : Action → Prop
  | .process => ∀ x, st.recvFrame = some x → 47 ∉ (address x.frame).2
  | _ => True

/-- Without slashes in tags every step is routed. -/
theorem routing_plain {objects : Objects} (htopic : ∀ s, objects.subTopicOf s ≠ [])
    (hplain : ∀ s, 47 ∉ objects.subTagOf s) {acts : List Action}
    (hmessages : Throughout objects PlainMessage .init [] acts) :
    Throughout objects (Routes objects) .init [] acts := by
  refine (Routed.init.run_iff htopic acts).mpr (Throughout.mono (fun st subscribers a h => ?_) acts
    hmessages)
  cases a with
  | call c sends =>
      cases c with
      | pub p => trivial
      | sub s => exact separate_of_plain hplain _ (hplain s)
      | unsub s => exact separate_of_plain hplain _ (hplain s)
  | process => exact fun x hx _ => separate_of_plain hplain _ (h x hx)
  | _ => trivial

end Bpsp.Java
