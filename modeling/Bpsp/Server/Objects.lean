import Bpsp.Server.Step

/-!
# The subscriber objects

Between `subscriber__new` and `subscriber__free` only the link of a subscriber object into the tree
changes. So a property that does not look at the link and holds of every object that is made holds
of all objects of the brokers along a run (`Run.objects`).
-/

namespace Bpsp

open CLib Topic

/-- The property does not depend on the link into the tree. -/
def LinkFree (P : Subscriber → Prop) : Prop := ∀ s n, P s → P { s with node := n }

/-- All subscriber objects of the broker have the property. -/
def AllObjects (P : Subscriber → Prop) (b : Broker) : Prop := b.store.subs.All P

/-- The object that an event can make has the property. -/
def MakesOnly (P : Subscriber → Prop) : Event → Prop
  | .request _ a req => ∀ c topic, headerValue req Frame.xTopic = some topic →
      P (subscriberNew topic (headerValue req Frame.xSubTag) a c)
  | _ => True

variable {P : Subscriber → Prop} (hP : LinkFree P)

include hP

section Tree

variable {st st' : Store} {s : Status}

theorem node_add_sub_objects {mem : Bool} {n p : Addr} (h : st.subs.All P)
    (hrun : nodeAddSub mem st n p = some (s, st')) : st'.subs.All P := by
  have hmod := h.modify p (f := fun t => { t with node := some n }) fun t ht => hP t _ ht
  simp only [nodeAddSub, bind, Option.bind_eq_some_iff] at hrun
  obtain ⟨node, -, sub, -, hrun⟩ := hrun
  split_ifs at hrun <;> rw [← (Prod.mk.inj (Option.some.inj hrun)).2] <;> exact hmod

theorem add_loop_objects {p : Addr} (toks : List CStr) :
    ∀ {mem : Nat → Bool} {st : Store} {cur : Addr}, st.subs.All P →
      addLoop mem st cur p toks = some (s, st') → st'.subs.All P := by
  induction toks with
  | nil =>
      intro mem st cur h hrun
      rw [← (Prod.mk.inj (Option.some.inj hrun)).2]
      exact h
  | cons tok rest ih =>
      intro mem st cur h hrun
      simp only [addLoop, bind, Option.bind_eq_some_iff] at hrun
      obtain ⟨child, -, hrun⟩ := hrun
      cases child with
      | none =>
          rw [← (Prod.mk.inj (Option.some.inj hrun)).2]
          exact h
      | some child =>
          dsimp only at hrun
          split_ifs at hrun
          · refine node_add_sub_objects hP ?_ hrun
            exact h
          · refine ih ?_ hrun
            exact h

theorem add_subscriber_objects {mem : Nat → Bool} {p : Addr} (h : st.subs.All P)
    (hrun : addSubscriber mem st p = some (s, st')) : st'.subs.All P := by
  simp only [addSubscriber, bind, Option.bind_eq_some_iff] at hrun
  obtain ⟨sub, -, hrun⟩ := hrun
  cases hlevels : levels sub.getTopic with
  | none =>
      simp only [hlevels] at hrun
      rw [← (Prod.mk.inj (Option.some.inj hrun)).2]
      exact h
  | some toks =>
      simp only [hlevels] at hrun
      exact add_loop_objects hP toks h hrun

theorem del_subscriber_objects {p : Addr} (h : st.subs.All P)
    (hrun : delSubscriber st p = some (s, st')) : st'.subs.All P := by
  have hmod := h.modify p (f := fun t => { t with node := none }) fun t ht => hP t _ ht
  simp only [delSubscriber, bind, Option.bind_eq_some_iff] at hrun
  obtain ⟨sub, -, hrun⟩ := hrun
  cases hnode : sub.node with
  | none =>
      simp only [hnode] at hrun
      rw [← (Prod.mk.inj (Option.some.inj hrun)).2]
      exact h
  | some n =>
      simp only [hnode, Option.bind_eq_some_iff] at hrun
      obtain ⟨toks, -, node, -, hrun⟩ := hrun
      cases hfind : node.subs.find sub.id with
      | none =>
          simp only [hfind] at hrun
          rw [← (Prod.mk.inj (Option.some.inj hrun)).2]
          exact h
      | some q =>
          simp only [hfind, Option.bind_eq_some_iff] at hrun
          obtain ⟨tree, -, hrun⟩ := hrun
          rw [← (Prod.mk.inj (Option.some.inj hrun)).2]
          exact hmod

end Tree

section Steps

variable {b b' : Broker} {a p : Addr} {s : Status}

theorem sub0_keeps_objects (h : AllObjects P b) (hrun : clientSub0 b a p = some (s, b')) :
    AllObjects P b' := by
  simp only [clientSub0, bind, Option.bind_eq_some_iff] at hrun
  obtain ⟨c, -, sub, -, hrun⟩ := hrun
  cases hfind : c.subs.find sub.getIdentifier with
  | none =>
      simp only [hfind, Option.bind_eq_some_iff] at hrun
      obtain ⟨⟨s', store⟩, hadd, hrun⟩ := hrun
      rw [← (Prod.mk.inj (Option.some.inj hrun)).2]
      exact add_subscriber_objects hP h hadd
  | some q =>
      simp only [hfind] at hrun
      rw [← (Prod.mk.inj (Option.some.inj hrun)).2]
      exact h

theorem unsub0_keeps_objects {topic : CStr} {subTag : Option CStr} (h : AllObjects P b)
    (hrun : clientUnsub0 b a topic subTag = some (s, b')) : AllObjects P b' := by
  simp only [clientUnsub0, bind, Option.bind_eq_some_iff] at hrun
  obtain ⟨c, -, hrun⟩ := hrun
  cases subTag with
  | none =>
      rw [← (Prod.mk.inj (Option.some.inj hrun)).2]
      exact h
  | some tag =>
      cases hfind : c.subs.find (subscriberMakeIdentifier topic tag) with
      | none =>
          simp only [hfind] at hrun
          rw [← (Prod.mk.inj (Option.some.inj hrun)).2]
          exact h
      | some q =>
          simp only [hfind, Option.bind_eq_some_iff] at hrun
          obtain ⟨⟨s', store⟩, hdel, hrun⟩ := hrun
          rw [← (Prod.mk.inj (Option.some.inj hrun)).2]
          exact (del_subscriber_objects hP h hdel).free q

theorem unsub_all_keeps_objects (entries : List (CStr × Addr)) : ∀ {b : Broker}, AllObjects P b →
    unsubAllLoop a entries b = some b' → AllObjects P b' := by
  induction entries with
  | nil =>
      intro b h hrun
      rw [← Option.some.inj hrun]
      exact h
  | cons e entries ih =>
      intro b h hrun
      simp only [unsubAllLoop, bind, Option.bind_eq_some_iff] at hrun
      obtain ⟨⟨s', store⟩, hdel, hrun⟩ := hrun
      refine ih ?_ hrun
      exact (del_subscriber_objects hP h hdel).free e.2

theorem destroy_keeps_objects (h : AllObjects P b) (hrun : brokerDestroyClient b a = some b') :
    AllObjects P b' := by
  simp only [brokerDestroyClient, clientDestroy, clientUnsubAll, bind,
    Option.bind_eq_some_iff] at hrun
  obtain ⟨c, -, b₁, ⟨c', -, hloop⟩, hrun⟩ := hrun
  rw [← Option.some.inj hrun]
  have hloop' : AllObjects P b₁ := by
    refine unsub_all_keeps_objects hP _ ?_ hloop
    exact h
  exact hloop'

theorem handle_keeps_objects {env : Env} {req : Frame} {out : Outcome} (h : AllObjects P b)
    (hmakes : MakesOnly P (.request env a req)) (hrun : handleInFrame env b a req = some out) :
    AllObjects P out.broker := by
  rcases handle_in_frame_cases hrun with heq | ⟨-, hsub⟩ | hunsub
  · rw [heq]
    exact h
  · rcases handle_sub_cases hsub with ⟨-, heq⟩ | ⟨topic, subTag, c, s, htopic, rfl, -, hsub0⟩
    · rw [heq]
      exact h
    · refine sub0_keeps_objects hP ?_ hsub0
      exact h.alloc (hmakes c topic htopic)
  · rcases handle_unsub_cases hunsub with ⟨-, heq⟩ | ⟨topic, subTag, s, -, -, hunsub0⟩
    · rw [heq]
      exact h
    · exact unsub0_keeps_objects hP h hunsub0

theorem step_keeps_objects {ev : Event} (h : AllObjects P b) (hmakes : MakesOnly P ev)
    (hstep : step b ev = some b') : AllObjects P b' := by
  cases ev with
  | accept draws addr =>
      obtain ⟨⟨b₁, a⟩, hacc, rfl⟩ := Option.map_eq_some_iff.mp hstep
      unfold brokerAccept at hacc
      split at hacc
      · cases hacc
      · obtain ⟨rfl, -⟩ := Prod.mk.inj (Option.some.inj hacc)
        exact h
  | request env a req =>
      obtain ⟨c, out, -, hout, ⟨-, rfl⟩ | ⟨-, hrun⟩⟩ := request_cases hstep
      · exact handle_keeps_objects hP h hmakes hout
      · exact destroy_keeps_objects hP (handle_keeps_objects hP h hmakes hout) hrun
  | disconnect a => exact destroy_keeps_objects hP h hstep

/-- The objects along a run in which only objects with the property are made. -/
theorem Run.objects {Q : Broker → Event → Prop} (hQ : ∀ {b ev}, Q b ev → MakesOnly P ev)
    (hrun : Run Q Broker.init b) : AllObjects P b :=
  hrun.invariant (Q := AllObjects P) (fun _ _ hget => by cases hget)
    fun hb hmeets hstep => step_keeps_objects hP hb (hQ hmeets) hstep

end Steps

omit hP

/-- The objects belong to client objects that were there before. -/
theorem Reachable.below {b : Broker} (hb : Reachable b) :
    AllObjects (fun s => s.client < b.heap.next) b := by
  refine (hb.invariant (Q := fun b => (∃ R, Inv b R) ∧
    AllObjects (fun s => s.client < b.heap.next) b) ⟨⟨[], inv_init⟩, fun _ _ hget => by cases hget⟩
    ?_).2
  rintro b b' ev ⟨⟨R, h⟩, hbelow⟩ - hstep
  obtain ⟨R', h', hothers⟩ := step_spec h hstep
  refine ⟨⟨R', h'⟩, ?_⟩
  have hnext := hothers.next
  refine step_keeps_objects (fun _ _ hs => hs) (b := b)
    (fun p s hs => Nat.lt_of_lt_of_le (hbelow p s hs) hnext) ?_ hstep
  cases ev with
  | request env a req =>
      intro c topic _
      obtain ⟨c', -, hc', -⟩ := request_cases hstep
      exact Nat.lt_of_lt_of_le (Heap.lt_next_of_get hc') hnext
  | _ => trivial

end Bpsp
