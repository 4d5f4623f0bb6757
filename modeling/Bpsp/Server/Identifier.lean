import Bpsp.Server.Consistency

/-!
# Identifiers of subscriptions

A client's table holds its subscriptions under the identifier `sub_tag/topic`. The identifier is cut
from the `_id` of the subscriber when it is added and made from the arguments when it is removed;
the two agree for every subscriber object that is ever made (`Reachable.named`). An identifier does
not determine the tag and the topic, though: a tag may have a `/` in it. `identified_iff` says when
this matters.
-/

namespace Bpsp

open CLib Topic

/-- The `_id` of a subscriber is made of its client, its tag and its topic. -/
def Named (s : Subscriber) : Prop :=
  s.id = s.clientId ++ subscriberMakeIdentifier s.getTopic s.subTag

theorem Named.node {s : Subscriber} (h : Named s) (n : Option Addr) : Named { s with node := n } := h

theorem new_sub_named (topic : CStr) (subTag : Option CStr) (a : Addr) (c : Client) :
    Named (subscriberNew topic subTag a c) := by
  unfold Named
  rw [new_sub_topic, new_sub_id]
  rfl

/-- All subscriber objects of the broker are named. -/
abbrev AllNamed : Broker → Prop := AllObjects Named

theorem makes_named (ev : Event) : MakesOnly Named ev := by
  cases ev with
  | request env a req => exact fun c topic _ => new_sub_named topic _ a c
  | _ => trivial

theorem Reachable.named {b : Broker} (h : Reachable b) : AllNamed b :=
  Run.objects (fun _ n hs => hs.node n) (fun _ => makes_named _) h

/-- The client at `a` holds a subscription with this topic and this tag. -/
def HoldsPair (b : Broker) (a : Addr) (topic subTag : CStr) : Prop :=
  ∃ identifier p s, Holds b a identifier p ∧ b.store.subs.get p = some s ∧ s.getTopic = topic ∧
    s.subTag = subTag

/-- Subscribing is refused as a duplicate exactly when the client holds the subscription already,
and unsubscribing removes that subscription and no other. -/
structure Identified (b : Broker) (a : Addr) (c : Client) (topic subTag : CStr) : Prop where
  sub : ∃ s b', clientSub0 (b.allocSub (subscriberNew topic (some subTag) a c)).1 a
      b.store.subs.next = some (s, b') ∧
    (s = .treeDupSubscriber ↔ HoldsPair b a topic subTag)
  unsub : ∃ s b', clientUnsub0 b a topic (some subTag) = some (s, b') ∧
    (s = .invalidSubscriber ↔ ¬ HoldsPair b a topic subTag) ∧
    ∀ t g, HoldsPair b' a t g ↔ HoldsPair b a t g ∧ ¬ (t = topic ∧ g = subTag)

section Pairs

variable {b : Broker} {R : List Registration} {a : Addr} {c : Client}

/-- An entry stands under the identifier of its subscriber. -/
theorem entry_identifier (h : Inv b R) (hnamed : AllNamed b) (hc : b.heap.get a = some c)
    {identifier : CStr} {p : Addr} {s : Subscriber} (hmem : (identifier, p) ∈ c.subs)
    (hs : b.store.subs.get p = some s) :
    identifier = subscriberMakeIdentifier s.getTopic s.subTag := by
  obtain ⟨s', hs', -, hcid, hid, -⟩ := h.entries hc hmem
  obtain rfl : s = s' := Option.some.inj (hs.symm.trans hs')
  have hname : s.id = s.clientId ++ subscriberMakeIdentifier s.getTopic s.subTag := hnamed _ _ hs
  rw [hid, hcid] at hname
  exact (CStr.append_inj hname rfl).2

/-- A subscription that is held is found under its identifier. -/
theorem holds_pair_iff (h : Inv b R) (hnamed : AllNamed b) (hc : b.heap.get a = some c)
    {topic subTag : CStr} : HoldsPair b a topic subTag ↔
      ∃ p s, c.subs.find (subscriberMakeIdentifier topic subTag) = some p ∧
        b.store.subs.get p = some s ∧ s.getTopic = topic ∧ s.subTag = subTag := by
  constructor
  · rintro ⟨i, p, s, ⟨c', hc', hmem⟩, hs, rfl, rfl⟩
    obtain rfl : c = c' := Option.some.inj (hc.symm.trans hc')
    refine ⟨p, s, ?_, hs, rfl, rfl⟩
    rw [← entry_identifier h hnamed hc hmem hs]
    exact (HashTable.find_eq_some_iff (h.keys hc)).mpr hmem
  · rintro ⟨p, s, hfind, hs, htopic, htag⟩
    exact ⟨_, p, s, ⟨c, hc, HashTable.mem_of_find hfind⟩, hs, htopic, htag⟩

/-- What is found under an identifier is a subscription with this identifier. -/
theorem found_pair (h : Inv b R) (hnamed : AllNamed b) (hc : b.heap.get a = some c)
    {identifier : CStr} {p : Addr} (hfind : c.subs.find identifier = some p) :
    ∃ t g, HoldsPair b a t g ∧ subscriberMakeIdentifier t g = identifier := by
  have hmem := HashTable.mem_of_find hfind
  obtain ⟨s, hs, -⟩ := h.entries hc hmem
  exact ⟨s.getTopic, s.subTag, ⟨identifier, p, s, ⟨c, hc, hmem⟩, hs, rfl, rfl⟩,
    (entry_identifier h hnamed hc hmem hs).symm⟩

/-- Unsubscribing removes one entry and one object. -/
theorem unsub0_objects (h : Inv b R) (hc : b.heap.get a = some c) {topic tag : CStr} {p : Addr}
    (hfind : c.subs.find (subscriberMakeIdentifier topic tag) = some p) :
    ∃ b', clientUnsub0 b a topic (some tag) = some (.ok, b') ∧
      b'.heap = delEntry b.heap a (subscriberMakeIdentifier topic tag) ∧
      ∀ q, q ≠ p → b'.store.subs.get q = b.store.subs.get q := by
  obtain ⟨s, hs, -⟩ := h.entries hc (HashTable.mem_of_find hfind)
  obtain ⟨store, hdel, -, hkeep, -⟩ := del_free_spec h.topic hs
  refine ⟨(⟨b.clients, delEntry b.heap a (subscriberMakeIdentifier topic tag), store⟩ :
    Broker).freeSub p, ?_, rfl, fun q hq => hkeep hq⟩
  simp [clientUnsub0, hc, hfind, hdel]

/-- What the client holds after unsubscribing: the subscriptions with other identifiers. -/
theorem unsub0_pairs (h : Inv b R) (hnamed : AllNamed b) (hc : b.heap.get a = some c)
    {topic tag : CStr} {p : Addr}
    (hfind : c.subs.find (subscriberMakeIdentifier topic tag) = some p) :
    ∃ b', clientUnsub0 b a topic (some tag) = some (.ok, b') ∧
      ∀ t g, HoldsPair b' a t g ↔ HoldsPair b a t g ∧
        subscriberMakeIdentifier t g ≠ subscriberMakeIdentifier topic tag := by
  obtain ⟨b', hrun, hheap, hobjects⟩ := unsub0_objects h hc hfind
  refine ⟨b', hrun, fun t g => ?_⟩
  have hkeys := h.keys hc
  have hentry : ∀ {i q}, Holds b' a i q ↔
      (i, q) ∈ c.subs ∧ i ≠ subscriberMakeIdentifier topic tag := by
    intro i q
    unfold Holds
    rw [hheap, get_del_entry hc, if_pos rfl]
    simp only [Option.some.injEq, exists_eq_left']
    exact HashTable.mem_del_iff hkeys
  -- the object that was freed stands under the removed identifier only
  have hother : ∀ {i q}, (i, q) ∈ c.subs → i ≠ subscriberMakeIdentifier topic tag → q ≠ p := by
    rintro i q hmem hne rfl
    exact hne (h.holder_unique hc hmem hc (HashTable.mem_of_find hfind)).2
  constructor
  · rintro ⟨i, q, s, hholds, hs, rfl, rfl⟩
    obtain ⟨hmem, hne⟩ := hentry.mp hholds
    rw [hobjects q (hother hmem hne)] at hs
    refine ⟨⟨i, q, s, ⟨c, hc, hmem⟩, hs, rfl, rfl⟩, ?_⟩
    rwa [← entry_identifier h hnamed hc hmem hs]
  · rintro ⟨⟨i, q, s, ⟨c', hc', hmem⟩, hs, rfl, rfl⟩, hne⟩
    obtain rfl : c = c' := Option.some.inj (hc.symm.trans hc')
    rw [← entry_identifier h hnamed hc hmem hs] at hne
    refine ⟨i, q, s, hentry.mpr ⟨hmem, hne⟩, ?_, rfl, rfl⟩
    rw [hobjects q (hother hmem hne), hs]

end Pairs

/-- In every broker that the server can come to, a client's subscriptions are told apart by topic
and tag exactly when it holds no other one with the same identifier. -/
theorem identified_iff {b : Broker} (hb : Reachable b) {a : Addr} {c : Client}
    (hc : b.heap.get a = some c) (topic subTag : CStr) :
    Identified b a c topic subTag ↔ ∀ t g, HoldsPair b a t g →
      subscriberMakeIdentifier t g = subscriberMakeIdentifier topic subTag →
      t = topic ∧ g = subTag := by
  obtain ⟨R, h⟩ := hb.inv
  have hnamed := hb.named
  cases hfind : c.subs.find (subscriberMakeIdentifier topic subTag) with
  | none =>
      have hnot : ∀ {t g}, HoldsPair b a t g →
          subscriberMakeIdentifier t g ≠ subscriberMakeIdentifier topic subTag := by
        intro t g hpair heq
        obtain ⟨p, s, hp, -⟩ := (holds_pair_iff h hnamed hc).mp hpair
        rw [heq, hfind] at hp
        cases hp
      refine iff_of_true ⟨?_, ?_⟩ fun t g hpair heq => absurd heq (hnot hpair)
      · have hfind' : c.subs.find (subscriberMakeIdentifier topic
            ((some subTag).getD defaultTag)) = none := hfind
        have hsub : ∃ s b', clientSub0 (b.allocSub (subscriberNew topic (some subTag) a c)).1 a
            b.store.subs.next = some (s, b') ∧ s ≠ .treeDupSubscriber := by
          cases hlevels : levels topic with
          | none =>
              obtain ⟨b', hrun, -⟩ := sub0_invalid h hc hfind' hlevels
              exact ⟨_, b', hrun, by decide⟩
          | some toks =>
              obtain ⟨b', hrun, -⟩ := sub0_ok h hc hfind' hlevels
              exact ⟨_, b', hrun, by decide⟩
        obtain ⟨s, b', hrun, hne⟩ := hsub
        exact ⟨s, b', hrun, fun hs => absurd hs hne, fun hpair => absurd rfl (hnot hpair)⟩
      · refine ⟨.invalidSubscriber, b, by simp [clientUnsub0, hc, hfind], ?_, fun t g => ?_⟩
        · exact iff_of_true rfl fun hpair => hnot hpair rfl
        · refine ⟨fun hpair => ⟨hpair, ?_⟩, fun hpair => hpair.1⟩
          rintro ⟨rfl, rfl⟩
          exact hnot hpair rfl
  | some p =>
      have hfind' : c.subs.find (subscriberMakeIdentifier topic ((some subTag).getD defaultTag)) =
          some p := hfind
      have hdup := sub0_dup h hc hfind'
      obtain ⟨b', hrun, hpairs⟩ := unsub0_pairs h hnamed hc hfind
      obtain ⟨t₀, g₀, hpair₀, hident₀⟩ := found_pair h hnamed hc hfind
      constructor
      · rintro ⟨⟨s, b₁, hsub, hiff⟩, -⟩ t g hpair heq
        obtain ⟨rfl, -⟩ := Prod.mk.inj (Option.some.inj (hdup.symm.trans hsub))
        -- both stand under one identifier, so they are one object
        obtain ⟨p₁, s₁, hp₁, hs₁, rfl, rfl⟩ := (holds_pair_iff h hnamed hc).mp (hiff.mp rfl)
        obtain ⟨p₂, s₂, hp₂, hs₂, rfl, rfl⟩ := (holds_pair_iff h hnamed hc).mp hpair
        rw [heq] at hp₂
        obtain rfl : p₁ = p₂ := Option.some.inj (hp₁.symm.trans hp₂)
        obtain rfl : s₁ = s₂ := Option.some.inj (hs₁.symm.trans hs₂)
        exact ⟨rfl, rfl⟩
      · intro hcond
        obtain ⟨rfl, rfl⟩ := hcond t₀ g₀ hpair₀ hident₀
        refine ⟨⟨_, _, hdup, iff_of_true rfl hpair₀⟩, .ok, b', hrun, ?_, fun t g => ?_⟩
        · exact iff_of_false (by decide) fun hnot => hnot hpair₀
        · rw [hpairs]
          refine and_congr_right fun hpair => not_congr ⟨hcond t g hpair, ?_⟩
          rintro ⟨rfl, rfl⟩
          rfl

/-- A client that holds one subscription has that one only. -/
theorem holds_single {b : Broker} {a : Addr} {c : Client} (hc : b.heap.get a = some c)
    {identifier : CStr} {p : Addr} {s : Subscriber} (hsubs : c.subs = [(identifier, p)])
    (hs : b.store.subs.get p = some s) {t g : CStr} (h : HoldsPair b a t g) :
    s.getTopic = t ∧ s.subTag = g := by
  obtain ⟨i, q, s', ⟨c', hc', hmem⟩, hs', htopic, htag⟩ := h
  obtain rfl : c = c' := Option.some.inj (hc.symm.trans hc')
  rw [hsubs] at hmem
  obtain ⟨-, rfl⟩ := Prod.mk.inj (List.mem_singleton.mp hmem)
  obtain rfl : s = s' := Option.some.inj (hs.symm.trans hs')
  exact ⟨htopic, htag⟩

/-- A subscription is recognised by its topic and its tag. -/
theorem identified_after_sub : ∃ b₁ b₂ c,
    step Broker.init (.accept [firstId] firstAddr) = some b₁ ∧
    step b₁ (.request calm 0 (subRequest 0 "a/b" "t")) = some b₂ ∧ b₂.heap.get 0 = some c ∧
    Identified b₂ 0 c (.ofString "a/b") (.ofString "t") := by
  have hall : ∀ {b₁ b₂ c s}, step Broker.init (.accept [firstId] firstAddr) = some b₁ →
      step b₁ (.request calm 0 (subRequest 0 "a/b" "t")) = some b₂ → b₂.heap.get 0 = some c →
      c.subs = [(.ofString "t/a/b", 0)] → b₂.store.subs.get 0 = some s →
      s.getTopic = .ofString "a/b" → s.subTag = .ofString "t" →
      Identified b₂ 0 c (.ofString "a/b") (.ofString "t") := by
    intro b₁ b₂ c s h₁ h₂ hc hsubs hs htopic htag
    refine (identified_iff (Run.step (Run.step Run.refl trivial h₁) trivial h₂) hc _ _).mpr ?_
    intro t g hpair _
    obtain ⟨rfl, rfl⟩ := holds_single hc hsubs hs hpair
    exact ⟨htopic, htag⟩
  exact ⟨_, _, _, rfl, rfl, rfl, hall rfl rfl rfl rfl rfl rfl rfl⟩

/-- With the tag `a` and the topic `b/c` held, the tag `a/b` and the topic `c` are a duplicate. -/
theorem identified_slash_fails : ∃ b₁ b₂ c,
    step Broker.init (.accept [firstId] firstAddr) = some b₁ ∧
    step b₁ (.request calm 0 (subRequest 0 "b/c" "a")) = some b₂ ∧ b₂.heap.get 0 = some c ∧
    ¬ Identified b₂ 0 c (.ofString "c") (.ofString "a/b") := by
  have hall : ∀ {b : Broker} {c s b'}, b.heap.get 0 = some c →
      c.subs = [(.ofString "a/b/c", 0)] → b.store.subs.get 0 = some s →
      s.subTag = .ofString "a" →
      clientSub0 (b.allocSub (subscriberNew (.ofString "c") (some (.ofString "a/b")) 0 c)).1 0
        b.store.subs.next = some (.treeDupSubscriber, b') →
      ¬ Identified b 0 c (.ofString "c") (.ofString "a/b") := by
    rintro b c s b' hc hsubs hs htag hdup ⟨⟨s', b₁, hsub, hiff⟩, -⟩
    obtain ⟨rfl, -⟩ := Prod.mk.inj (Option.some.inj (hdup.symm.trans hsub))
    obtain ⟨-, heq⟩ := holds_single hc hsubs hs (hiff.mp rfl)
    exact absurd (htag.symm.trans heq) (by decide)
  exact ⟨_, _, _, rfl, rfl, rfl, hall rfl rfl rfl rfl rfl⟩

end Bpsp
