import Bpsp.Server.Interleaving

/-!
# A publication among other threads

Between two turns of the loop of `handle__PUB` other threads subscribe, unsubscribe, connect and
leave. `Local` is the frame rule of the moves: a move changes what belongs to one client. With it,
`Progress` holds from the search to the end of the loop: what was sent went to subscribers that the
search found, each served once and in order, and those that were passed over have lost their client.
Nothing that other threads do gets into a message.
-/

namespace Bpsp

open CLib Topic Bpsp.Frame

namespace Frame

theorem mem_put {t : Table} (hnodup : t.keys.Nodup) {k v : CStr} {e : CStr × CStr}
    (he : e ∈ put t k v) : e = (k, v) ∨ e ∈ t ∧ e.1 ≠ k := by
  have hfind := (HashTable.find_eq_some_iff (nodup_put hnodup k v)).mpr he
  rw [find_put hnodup] at hfind
  split_ifs at hfind with hk
  · exact Or.inl (Prod.ext hk.symm (Option.some.inj hfind).symm)
  · exact Or.inr ⟨HashTable.mem_of_find hfind, fun heq => hk heq.symm⟩

theorem encSize_erase {t : Table} {e : CStr × CStr} (he : e ∈ t) :
    encSize t = e.1.length + e.2.length + 5 + encSize (t.erase e) := by
  unfold encSize
  rw [((List.perm_cons_erase he).map _).sum_eq, List.map_cons, List.sum_cons]

/-- Headers with distinct keys that are taken from two tables are no larger than both. -/
theorem encSize_le_add {u : Table} (hnodup : u.keys.Nodup) : ∀ {t s : Table},
    (∀ e ∈ u, e ∈ t ∨ e ∈ s) → encSize u ≤ encSize t + encSize s := by
  induction u with
  | nil => exact fun _ => Nat.zero_le _
  | cons e u ih =>
      intro t s hmem
      simp only [HashTable.keys, List.map_cons, List.nodup_cons] at hnodup
      have hne : ∀ {e'}, e' ∈ u → e' ≠ e := by
        rintro e' he' rfl
        exact hnodup.1 (List.mem_map_of_mem he')
      rw [encSize_cons]
      rcases hmem e List.mem_cons_self with he | he
      · have hrest := ih hnodup.2 (t := t.erase e) (s := s) fun e' he' =>
          (hmem e' (List.mem_cons_of_mem _ he')).imp_left
            (List.mem_erase_of_ne (hne he')).mpr
        have := encSize_erase he
        omega
      · have hrest := ih hnodup.2 (t := t) (s := s.erase e) fun e' he' =>
          (hmem e' (List.mem_cons_of_mem _ he')).imp_right
            (List.mem_erase_of_ne (hne he')).mpr
        have := encSize_erase he
        omega

/-- Setting the first ones of some headers, and then all of them, leaves no trace of the first
time. -/
theorem putAll_begun {t hs : Table} (first last : Table) (hnodup : t.keys.Nodup)
    (hkeys : hs.keys = first.keys) :
    putAll (putAll t hs) (first ++ last) = putAll t (first ++ last) := by
  have happend : ∀ u : Table, putAll u (first ++ last) = putAll (putAll u first) last :=
    fun u => List.foldl_append
  rw [happend, happend, putAll_putAll hnodup hkeys]

end Frame

/-- The headers of the delivery frame after a subscriber whose client is gone. -/
def skipped (topic : CStr) (t : Table) (p : Subscriber) : Table :=
  putAll t [(xSubTag, p.subTag), (xOriginTopic, topic), (xTopic, p.getTopic)]

/-- The longest headers that can come together on the way fit. -/
def Roomy (topic addr : CStr) (t : Table) (subs : List Subscriber) : Prop :=
  ∀ p ∈ subs, ∀ q ∈ subs, encSize t + encSize [(xSubTag, p.subTag), (xOriginTopic, topic),
    (xTopic, q.getTopic), (xFrom, addr)] ≤ 65535

/-- Headers of the delivery frame between two turns of the loop, when it began with `t`: what they
are set to for a subscriber does not depend on the turns before. -/
structure Loaded (topic addr : CStr) (t : Table) (subs : List Subscriber) (u : Table) : Prop where
  nodup : u.keys.Nodup
  same : ∀ q, addressed topic addr u q = addressed topic addr t q
  origin : ∃ p ∈ subs, ∀ e ∈ u, e ∈ t ∨ e ∈ subscriberHeaders topic addr p

section Tables

variable {topic addr : CStr} {t u : Table} {subs : List Subscriber} {p : Subscriber}

theorem loaded_start (hnodup : t.keys.Nodup) (hp : p ∈ subs) : Loaded topic addr t subs t :=
  ⟨hnodup, fun _ => rfl, p, hp, fun _ he => Or.inl he⟩

theorem Loaded.size (h : Loaded topic addr t subs u) (hroom : Roomy topic addr t subs) :
    encSize u ≤ 65535 := by
  obtain ⟨q, hq, hmem⟩ := h.origin
  exact Nat.le_trans (encSize_le_add h.nodup hmem) (hroom q hq q hq)

/-- The headers for any of the subscribers fit, whichever was the last one before. -/
theorem Loaded.fits (h : Loaded topic addr t subs u) (hroom : Roomy topic addr t subs)
    (hp : p ∈ subs) : Fits topic addr u p := by
  obtain ⟨q, hq, hmem⟩ := h.origin
  have hn₁ := nodup_put h.nodup xSubTag p.subTag
  have hn₂ := nodup_put hn₁ xOriginTopic topic
  have hn₃ := nodup_put hn₂ xTopic p.getTopic
  have hn₄ := nodup_put hn₃ xFrom addr
  have h₁ : ∀ e ∈ put u xSubTag p.subTag, e ∈ t ∨ e ∈ [(xSubTag, p.subTag),
      (xOriginTopic, topic), (xTopic, q.getTopic), (xFrom, addr)] := by
    intro e he
    rcases mem_put h.nodup he with rfl | ⟨he, hne⟩
    · exact Or.inr List.mem_cons_self
    · rcases hmem e he with het | heq
      · exact Or.inl het
      · rcases List.mem_cons.mp heq with rfl | hrest
        · exact absurd rfl hne
        · exact Or.inr (List.mem_cons_of_mem _ hrest)
  have h₂ : ∀ e ∈ put (put u xSubTag p.subTag) xOriginTopic topic, e ∈ t ∨
      e ∈ [(xSubTag, p.subTag), (xOriginTopic, topic), (xTopic, q.getTopic), (xFrom, addr)] := by
    intro e he
    rcases mem_put hn₁ he with rfl | ⟨he, -⟩
    · exact Or.inr (by simp)
    · exact h₁ e he
  have h₃ : ∀ e ∈ put (put (put u xSubTag p.subTag) xOriginTopic topic) xTopic p.getTopic,
      e ∈ t ∨ e ∈ subscriberHeaders topic addr p := by
    intro e he
    rcases mem_put hn₂ he with rfl | ⟨he, hne⟩
    · exact Or.inr (by simp [subscriberHeaders])
    · refine (h₂ e he).imp_right fun heq => ?_
      simp only [List.mem_cons, List.not_mem_nil, or_false] at heq
      rcases heq with rfl | rfl | rfl | rfl
      · simp [subscriberHeaders]
      · simp [subscriberHeaders]
      · exact absurd rfl hne
      · simp [subscriberHeaders]
  have h₄ : ∀ e ∈ addressed topic addr u p, e ∈ t ∨ e ∈ subscriberHeaders topic addr p := by
    intro e he
    rcases mem_put hn₃ he with rfl | ⟨he, -⟩
    · exact Or.inr (by simp [subscriberHeaders])
    · exact h₃ e he
  exact ⟨Nat.le_trans (encSize_le_add hn₁ h₁) (hroom p hp q hq),
    Nat.le_trans (encSize_le_add hn₂ h₂) (hroom p hp q hq),
    Nat.le_trans (encSize_le_add hn₃ h₃) (hroom p hp p hp),
    Nat.le_trans (encSize_le_add hn₄ h₄) (hroom p hp p hp)⟩

theorem mem_putAll {hs : Table} : ∀ {t : Table}, t.keys.Nodup → ∀ {e : CStr × CStr},
    e ∈ putAll t hs → e ∈ hs ∨ e ∈ t ∧ e.1 ∉ hs.keys := by
  induction hs with
  | nil => exact fun _ _ he => Or.inr ⟨he, List.not_mem_nil⟩
  | cons x hs ih =>
      intro t hnodup e he
      rcases ih (nodup_put hnodup x.1 x.2) he with he | ⟨he, hkey⟩
      · exact Or.inl (List.mem_cons_of_mem _ he)
      · rcases mem_put hnodup he with rfl | ⟨he, hne⟩
        · exact Or.inl List.mem_cons_self
        · exact Or.inr ⟨he, fun hmem => (List.mem_cons.mp hmem).elim hne hkey⟩

theorem Loaded.served (h : Loaded topic addr t subs u) (hp : p ∈ subs) :
    Loaded topic addr t subs (addressed topic addr u p) := by
  refine ⟨nodup_putAll h.nodup _, fun q => ?_, p, hp, fun e he => ?_⟩
  · rw [addressed_addressed h.nodup, h.same]
  · rcases mem_putAll h.nodup he with he | ⟨he, hkey⟩
    · exact Or.inr he
    · obtain ⟨q, -, hmem⟩ := h.origin
      refine (hmem e he).imp_right fun heq => absurd ?_ hkey
      exact show e.1 ∈ (subscriberHeaders topic addr q).keys from List.mem_map_of_mem heq

theorem Loaded.passed (h : Loaded topic addr t subs u) (hp : p ∈ subs) :
    Loaded topic addr t subs (skipped topic u p) := by
  refine ⟨nodup_putAll h.nodup _, fun q => ?_, p, hp, fun e he => ?_⟩
  · rw [← h.same q]
    exact putAll_begun [(xSubTag, q.subTag), (xOriginTopic, topic), (xTopic, q.getTopic)]
      [(xFrom, addr)] h.nodup rfl
  · rcases mem_putAll h.nodup he with he | ⟨he, hkey⟩
    · exact Or.inr (List.mem_append_left [(xFrom, addr)] he)
    · obtain ⟨q, -, hmem⟩ := h.origin
      refine (hmem e he).imp_right fun heq => ?_
      simp only [subscriberHeaders, List.mem_cons, List.not_mem_nil, or_false] at heq
      rcases heq with rfl | rfl | rfl | rfl
      · exact absurd (show xSubTag ∈ [xSubTag, xOriginTopic, xTopic] by simp) hkey
      · exact absurd (show xOriginTopic ∈ [xSubTag, xOriginTopic, xTopic] by simp) hkey
      · exact absurd (show xTopic ∈ [xSubTag, xOriginTopic, xTopic] by simp) hkey
      · simp [subscriberHeaders]

end Tables

/-- A subscriber whose client is gone is passed over, with its headers set. -/
theorem deliver_to_gone {env : Env} {b : Broker} {a : Addr} {fr : Frame} {topic addr : CStr}
    {t : Table} {p : Subscriber} {sent : Sent} (h : Accounts fr t)
    (hgone : b.clients.find p.clientId ≠ some p.client) (htag : p.subTag.length ≠ 0)
    (hpattern : p.getTopic.length ≠ 0) (htopic : topic.length ≠ 0) (hfits : Fits topic addr t p) :
    deliverTo env b a topic p fr sent = some (.ok, fr.withHeaders (skipped topic t p), sent) := by
  have h₁ := accounts_withHeaders fr hfits.tag (nodup_put h.nodup _ _)
  have h₂ := accounts_withHeaders fr hfits.origin (nodup_put h₁.nodup _ _)
  have hset₁ := set_var_header_accounts h (by decide) (Or.inl htag) hfits.tag
  have hset₂ := set_var_header_accounts h₁ (by decide) (Or.inl htopic) hfits.origin
  have hset₃ := set_var_header_accounts h₂ (by decide) (Or.inl hpattern) hfits.pattern
  unfold deliverTo brokerDeliverMsg
  simp only [hset₁, hset₂, hset₃, withHeaders_withHeaders, bind, Option.bind_some, ne_eq,
    not_true_eq_false, if_false]
  cases hfind : b.clients.find p.clientId with
  | none => rfl
  | some target =>
      have hne : target ≠ p.client := fun heq => hgone (hfind.trans (congrArg some heq))
      simp only [if_neg hne]
      rfl

/-- A move that changes what belongs to the client `a` at most: its thread, its object and its entry
in the table of clients. -/
structure Local (a : Addr) (w w' : World) : Prop where
  threads : ∀ x, x ≠ a → w'.threads x = w.threads x
  heap : ∀ x, x ≠ a → w'.broker.heap.get x = w.broker.heap.get x
  next : w.broker.heap.next ≤ w'.broker.heap.next
  clients : ∀ e ∈ w'.broker.clients, e ∈ w.broker.clients ∨ e.2 = w.broker.heap.next

/-- The thread is in the loop of `handle__PUB`. -/
def publishing : Option Thread → Bool
  | some (.delivering _ _ _ _ _ _ _) => true
  | _ => false

/-- A move after which the thread of the client is not in the loop of `handle__PUB`. -/
structure Passes (a : Addr) (w w' : World) : Prop extends Local a w w' where
  outside : publishing (w'.threads a) = false

section Moves

variable {w w' : World} {a : Addr} {env : Env} {req : Frame}

theorem local_goto (thread : Thread) : Local a w (w.goto a thread) :=
  ⟨fun _ hx => if_neg hx, fun _ _ => rfl, Nat.le_refl _, fun _ he => Or.inl he⟩

theorem passes_goto {thread : Thread} (h : publishing (some thread) = false) :
    Passes a w (w.goto a thread) :=
  ⟨local_goto thread, (congrArg publishing (goto_self a thread)).trans h⟩

/-- A move that changes the tree, the subscriber objects and the client's own object. -/
theorem passes_at {brk : Broker} {thread : Thread} (hclients : brk.clients = w.broker.clients)
    (hheap : ∀ x, x ≠ a → brk.heap.get x = w.broker.heap.get x)
    (hnext : brk.heap.next = w.broker.heap.next) (h : publishing (some thread) = false) :
    Passes a w ({ w with broker := brk }.goto a thread) :=
  ⟨⟨fun _ hx => if_neg hx, hheap, Nat.le_of_eq hnext.symm, fun _ he => Or.inl (hclients ▸ he)⟩,
    (congrArg publishing (goto_self a thread)).trans h⟩

theorem publishing_after (s : Status) : publishing (some (World.after s)) = false := by
  unfold World.after
  split_ifs <;> rfl

/-- What follows the sending of a frame to the own client. -/
theorem passes_send {x : Exec (Status × Sent)} (h : (do
    let (s, _) ← x
    some (w.goto a (World.after s))) = some w') : Passes a w w' := by
  simp only [bind, Option.bind_eq_some_iff, Option.some.injEq] at h
  obtain ⟨r, -, rfl⟩ := h
  exact passes_goto (publishing_after r.1)

theorem passes_answer {x : Exec (Status × Frame)} {sent : Sent} (h : (do
    let (s, out) ← x
    if s ≠ .ok then some (w.goto a .leaving)
    else do
      let (s, _) ← w.send env a out sent
      some (w.goto a (World.after s))) = some w') : Passes a w w' := by
  simp only [bind, Option.bind_eq_some_iff] at h
  obtain ⟨⟨s, out⟩, -, h⟩ := h
  split_ifs at h
  · obtain rfl := Option.some.inj h
    exact passes_goto rfl
  · exact passes_send h

/-- The search of `handle__PUB` moves its own thread and nothing else. -/
theorem publish_goes (h : w.publish a env req = some w') : ∃ thread, w' = w.goto a thread := by
  unfold World.publish at h
  split at h
  · exact ⟨_, (Option.some.inj h).symm⟩
  · exact ⟨_, (Option.some.inj h).symm⟩
  · simp only [bind, Option.bind_eq_some_iff] at h
    obtain ⟨subs, -, h⟩ := h
    split at h
    · exact ⟨_, (Option.some.inj h).symm⟩
    · exact ⟨_, (Option.some.inj h).symm⟩
    · simp only [Option.bind_eq_some_iff] at h
      obtain ⟨⟨s, frame⟩, -, h⟩ := h
      split_ifs at h <;> exact ⟨_, (Option.some.inj h).symm⟩

theorem passes_subscribe (h : w.subscribe a env req = some w') : Passes a w w' := by
  unfold World.subscribe at h
  split at h
  · exact Option.some.inj h ▸ passes_goto rfl
  · simp only [bind, Option.bind_eq_some_iff] at h
    obtain ⟨c, hc, s, -, h⟩ := h
    split at h
    · obtain rfl := Option.some.inj h
      exact passes_at rfl (fun _ hx => (get_add_entry hc).trans (if_neg hx)) rfl rfl
    · obtain rfl := Option.some.inj h
      exact passes_at rfl (fun _ _ => rfl) rfl rfl

theorem passes_unsubscribe (h : w.unsubscribe a env req = some w') : Passes a w w' := by
  unfold World.unsubscribe at h
  split at h
  · exact Option.some.inj h ▸ passes_goto rfl
  · simp only [bind, Option.bind_eq_some_iff] at h
    obtain ⟨c, hc, h⟩ := h
    split at h
    · exact Option.some.inj h ▸ passes_goto rfl
    · split at h
      · exact Option.some.inj h ▸ passes_goto rfl
      · obtain rfl := Option.some.inj h
        exact passes_at rfl (fun _ hx => (get_del_entry hc).trans (if_neg hx)) rfl rfl

/-- A request leads into the loop of `handle__PUB` through `World.publish` only. -/
theorem handle_cases (h : w.handle a env req = some w') :
    w.publish a env req = some w' ∨ Passes a w w' := by
  unfold World.handle World.inform World.echo at h
  split_ifs at h
  · exact Or.inr (Option.some.inj h ▸ passes_goto rfl)
  · exact Or.inr (passes_answer h)
  · exact Or.inl h
  · exact Or.inr (passes_subscribe h)
  · exact Or.inr (passes_unsubscribe h)
  · exact Or.inr (passes_send h)

/-- So does a turn of its loop, which ends it or takes it to the next subscriber. -/
theorem deliver_goes {topic : CStr} {subs rest : List Subscriber} {frame : Frame} {sent : Sent}
    (h : w.deliver a env req topic subs rest frame sent = some w') :
    (∃ thread, publishing (some thread) = false ∧ w' = w.goto a thread) ∨
    ∃ p more frame' sent', rest = p :: more ∧
      w' = w.goto a (.delivering env req topic subs more frame' sent') := by
  cases rest with
  | nil => exact Or.inl ⟨_, rfl, (Option.some.inj h).symm⟩
  | cons p more =>
      by_cases hout : leftOut a req p = true
      · rw [World.deliver, if_pos hout] at h
        exact Or.inr ⟨p, more, frame, sent, rfl, (Option.some.inj h).symm⟩
      · rw [World.deliver, if_neg hout, Option.bind_eq_bind] at h
        obtain ⟨⟨s, frame', sent'⟩, -, h⟩ := Option.bind_eq_some_iff.mp h
        exact Or.inr ⟨p, more, frame', sent', rfl, (Option.some.inj h).symm⟩

theorem local_deliver {topic : CStr} {subs rest : List Subscriber} {frame : Frame} {sent : Sent}
    (h : w.deliver a env req topic subs rest frame sent = some w') : Local a w w' := by
  rcases deliver_goes h with ⟨thread, -, rfl⟩ | ⟨p, more, frame', sent', -, rfl⟩ <;>
    exact local_goto _

theorem passes_leave (h : w.leave a = some w') : Passes a w w' := by
  simp only [World.leave, bind, Option.bind_eq_some_iff] at h
  obtain ⟨-, -, c, -, h⟩ := h
  obtain rfl := Option.some.inj h
  refine ⟨⟨fun _ hx => if_neg hx, fun _ _ => rfl, Nat.le_refl _, fun e he => Or.inl ?_⟩,
    congrArg publishing (goto_self a .departed)⟩
  simp only [World.goto] at he
  split at he
  · exact he
  · exact List.mem_reverse.mp (List.mem_of_mem_eraseP (List.mem_reverse.mp he))

theorem passes_unsub_all (h : w.unsubAll a = some w') : Passes a w w' := by
  simp only [World.unsubAll, bind, Option.bind_eq_some_iff] at h
  obtain ⟨c, -, h⟩ := h
  have hrest : ∀ {b : Broker}, unsubAllLoop a c.subs w.broker = some b →
      Passes a w ({ w with broker := b }.goto a .closing) := by
    intro b hloop
    rw [unsub_all_eq, Option.map_eq_some_iff] at hloop
    obtain ⟨st, -, rfl⟩ := hloop
    exact passes_at rfl (fun _ hx => get_unsub_heap_ne _ hx _) (unsub_heap_next a c.subs _) rfl
  split_ifs at h
  all_goals
    obtain ⟨-, -, h⟩ := Option.bind_eq_some_iff.mp h
    obtain ⟨b, hloop, h⟩ := Option.bind_eq_some_iff.mp h
    exact Option.some.inj h ▸ hrest hloop

theorem passes_add {p : Addr} (h : w.add a env req p = some w') : Passes a w w' := by
  simp only [World.add, bind, Option.bind_eq_some_iff] at h
  obtain ⟨s, -, h⟩ := h
  split_ifs at h
  all_goals
    obtain ⟨-, -, h⟩ := Option.bind_eq_some_iff.mp h
    obtain ⟨r, -, h⟩ := Option.bind_eq_some_iff.mp h
    obtain rfl := Option.some.inj h
    exact passes_at rfl (fun _ _ => rfl) rfl rfl

theorem passes_delete {p : Addr} (h : w.delete a env req p = some w') : Passes a w w' := by
  simp only [World.delete, bind, Option.bind_eq_some_iff] at h
  obtain ⟨s, -, h⟩ := h
  split_ifs at h
  all_goals
    obtain ⟨-, -, h⟩ := Option.bind_eq_some_iff.mp h
    obtain ⟨r, -, h⟩ := Option.bind_eq_some_iff.mp h
    obtain rfl := Option.some.inj h
    exact passes_at rfl (fun _ _ => rfl) rfl rfl

/-- The client that a move is about. -/
def World.actor (w : World) : Move → Addr
  | .connect _ => w.broker.heap.next
  | .accept _ => w.broker.heap.next
  | .receive a _ => a
  | .run a => a

/-- What a move can be: a turn of a thread in the loop of `handle__PUB`, one that may lead into it,
or one that leaves the thread of its client outside. -/
inductive Turn (w : World) : Move → World → Prop
  | delivers {a : Addr} {env : Env} {req : Frame} {topic : CStr} {subs rest : List Subscriber}
      {frame : Frame} {sent : Sent} {w' : World}
      (hat : w.threads a = some (.delivering env req topic subs rest frame sent))
      (hrun : w.deliver a env req topic subs rest frame sent = some w') : Turn w (.run a) w'
  | publishes {a : Addr} {env : Env} {req : Frame} {w' : World}
      (hat : w.threads a = some (.handling env req)) (hrun : w.publish a env req = some w') :
      Turn w (.run a) w'
  | connects (addr : SockAddr) : Turn w (.connect addr) { w with accepting := some addr }
  | passes {m : Move} {w' : World} (h : Passes (w.actor m) w w') : Turn w m w'

theorem step_turn {m : Move} (h : w.step m = some w') : Turn w m w' := by
  cases m with
  | connect addr => exact Option.some.inj h ▸ .connects addr
  | accept draws =>
      refine .passes ?_
      simp only [World.step] at h
      split at h
      · cases h
      · simp only [World.accepted, bind, Option.bind_eq_some_iff] at h
        obtain ⟨-, -, ⟨b, x⟩, hacc, h⟩ := h
        obtain rfl := Option.some.inj h
        unfold brokerAccept at hacc
        split at hacc
        · cases hacc
        · obtain ⟨rfl, rfl⟩ := Prod.mk.inj (Option.some.inj hacc)
          refine ⟨⟨fun _ hx => if_neg hx, fun _ hx => (Heap.get_alloc _ _ _).trans (if_neg hx),
            Nat.le_succ _, fun e he => ?_⟩, congrArg publishing (goto_self _ .reading)⟩
          exact (List.mem_append.mp he).imp_right fun he => by rw [List.mem_singleton.mp he]
  | receive a input =>
      refine .passes ?_
      simp only [World.step] at h
      split at h
      · obtain rfl := Option.some.inj h
        cases input <;> exact passes_goto rfl
      · cases h
  | run a =>
      simp only [World.step, World.turn] at h
      split at h
      · cases h
      · cases h
      case h_3 env req hat =>
        rcases handle_cases h with hpub | h
        · exact .publishes hat hpub
        · exact .passes h
      · exact .passes (passes_add h)
      · exact .passes (passes_delete h)
      case h_6 env req topic subs rest frame sent hat =>
        exact .delivers hat h
      · unfold World.reply at h
        split_ifs at h
        · exact .passes (passes_answer h)
        · exact .passes (Option.some.inj h ▸ passes_goto rfl)
      · exact .passes (passes_leave h)
      · exact .passes (passes_unsub_all h)
      · simp only [World.close, bind, Option.bind_eq_some_iff] at h
        obtain ⟨c, -, h⟩ := h
        obtain rfl := Option.some.inj h
        exact .passes ⟨⟨fun _ hx => if_neg hx, fun _ _ => rfl, Nat.le_refl _,
            fun _ he => Or.inl he⟩,
          congrArg publishing (goto_self a .freeing)⟩
      · simp only [World.free, bind, Option.bind_eq_some_iff] at h
        obtain ⟨c, -, h⟩ := h
        obtain rfl := Option.some.inj h
        exact .passes (passes_at rfl (fun _ hx => (Heap.get_free _ _ _).trans (if_neg hx)) rfl rfl)
      · obtain rfl := Option.some.inj h
        exact .passes ⟨⟨fun _ hx => if_neg hx, fun _ _ => rfl, Nat.le_refl _,
            fun _ he => Or.inl he⟩,
          congrArg publishing (goto_self a .printing)⟩
      · simp only [World.print, bind, Option.bind_eq_some_iff] at h
        obtain ⟨lines, -, h⟩ := h
        obtain rfl := Option.some.inj h
        exact .passes ⟨⟨fun _ hx => if_neg hx, fun _ _ => rfl, Nat.le_refl _,
            fun _ he => Or.inl he⟩,
          congrArg publishing (if_pos rfl)⟩

end Moves

/-- The client of the subscriber is gone, and it does not come back. -/
structure Gone (w : World) (p : Subscriber) : Prop where
  absent : (p.clientId, p.client) ∉ w.broker.clients
  old : p.client < w.broker.heap.next

/-- How far the loop of `handle__PUB` has come for a request of the client `c`, when it has been
through `done`. -/
structure Progress (a : Addr) (c : Client) (env : Env) (req : Frame) (t : Table) (topic : CStr)
    (subs : List Subscriber) (w : World) (done : List Subscriber) (frame : Frame) (sent : Sent) :
    Prop where
  client : w.broker.heap.get a = some c
  known : ∀ p ∈ subs, p.client < w.broker.heap.next
  headers : ∃ u, Loaded topic c.addr.text (put t xTime env.msgTime.text) subs u ∧
    frame = (messageOf req).withHeaders u
  sent : ∃ served : List Subscriber, served.Sublist (done.filter fun p => !leftOut a req p) ∧
    sent = served.map (fun p => (p.client, delivered env.msgTime c req t topic p)) ∧
    ∀ p ∈ done, leftOut a req p = false → p ∈ served ∨ Gone w p

section Publication

variable {w w' : World} {b : Broker} {a : Addr} {c : Client} {env : Env} {req frame : Frame}
  {t : Table} {topic : CStr} {subs rest done : List Subscriber} {p : Subscriber} {sent : Sent}

theorem Gone.kept (h : Gone w p) {x : Addr} (hlocal : Local x w w') : Gone w' p where
  absent hmem := by
    rcases hlocal.clients _ hmem with hold | hnew
    · exact h.absent hold
    · exact absurd h.old (Nat.not_lt.mpr (Nat.le_of_eq hnew.symm))
  old := Nat.lt_of_lt_of_le h.old hlocal.next

/-- Other threads leave the loop where it is. -/
theorem Progress.kept (h : Progress a c env req t topic subs w done frame sent) {x : Addr}
    (hx : a ≠ x) (hlocal : Local x w w') :
    Progress a c env req t topic subs w' done frame sent where
  client := (hlocal.heap a hx).trans h.client
  known p hp := Nat.lt_of_lt_of_le (h.known p hp) hlocal.next
  headers := h.headers
  sent := by
    obtain ⟨served, hsublist, hsent, hdone⟩ := h.sent
    exact ⟨served, hsublist, hsent, fun p hp hout => (hdone p hp hout).imp_right (·.kept hlocal)⟩

/-- A turn of the loop goes through one more subscriber. -/
theorem Progress.turn (h : Progress a c env req t topic subs w done frame sent)
    (hsettled : Settled w b) (hlock : w.accepting = none)
    (hat : w.threads a = some (.delivering env req topic subs (p :: rest) frame sent))
    (hp : p ∈ subs)
    (hroom : Roomy topic c.addr.text (put t xTime env.msgTime.text) subs)
    (hrun : w.deliver a env req topic subs (p :: rest) frame sent = some w') :
    ∃ frame' sent', w'.threads a = some (.delivering env req topic subs rest frame' sent') ∧
      Progress a c env req t topic subs w' (done ++ [p]) frame' sent' := by
  obtain ⟨-, htopic, -, hrest⟩ := hsettled.ready hat
  obtain ⟨htag, hpattern⟩ := hrest p List.mem_cons_self
  obtain ⟨served, hsublist, hsent, hdone⟩ := h.sent
  obtain ⟨u, hu, hframe⟩ := h.headers
  have hlocal := local_deliver hrun
  have hkeep : ∀ q ∈ done, leftOut a req q = false → q ∈ served ∨ Gone w' q :=
    fun q hq hout => (hdone q hq hout).imp_right (·.kept hlocal)
  by_cases hout : leftOut a req p = true
  · rw [World.deliver, if_pos hout] at hrun
    obtain rfl := Option.some.inj hrun
    refine ⟨frame, sent, goto_self _ _, h.client, h.known, h.headers, served, ?_, hsent,
      fun q hq hq' => ?_⟩
    · rw [List.filter_append, List.filter_cons_of_neg (by simp [hout]), List.filter_nil,
        List.append_nil]
      exact hsublist
    · rcases List.mem_append.mp hq with hq | hq
      · exact hkeep q hq hq'
      · rw [List.mem_singleton.mp hq, hout] at hq'
        cases hq'
  · have hfits := hu.fits hroom hp
    have haccounts := accounts_withHeaders (messageOf req) (hu.size hroom) hu.nodup
    have hout' : leftOut a req p = false := by simpa using hout
    rw [World.deliver, if_neg hout, hsettled.deliver_to_eq hlock, hframe] at hrun
    have hfilter : (done ++ [p]).filter (fun p => !leftOut a req p) =
        done.filter (fun p => !leftOut a req p) ++ [p] := by
      rw [List.filter_append, List.filter_cons_of_pos (by simp [hout']), List.filter_nil]
    by_cases hconnected : w.broker.clients.find p.clientId = some p.client
    · rw [deliver_to_fits haccounts rfl h.client hconnected (Or.inl htag) hpattern htopic hfits]
        at hrun
      obtain rfl := Option.some.inj hrun
      refine ⟨_, _, goto_self _ _, h.client, h.known, ⟨_, hu.served hp, rfl⟩, served ++ [p], ?_, ?_,
        fun q hq hq' => ?_⟩
      · rw [hfilter]
        exact hsublist.append (List.Sublist.refl _)
      · rw [List.map_append, ← hsent, hu.same p]
        rfl
      · rcases List.mem_append.mp hq with hq | hq
        · exact (hkeep q hq hq').imp_left (List.mem_append_left _)
        · exact Or.inl (List.mem_append_right _ hq)
    · rw [deliver_to_gone haccounts hconnected htag hpattern htopic hfits] at hrun
      obtain rfl := Option.some.inj hrun
      refine ⟨_, _, goto_self _ _, h.client, h.known, ⟨_, hu.passed hp, rfl⟩, served, ?_, hsent,
        fun q hq hq' => ?_⟩
      · rw [hfilter]
        exact hsublist.trans (List.sublist_append_left _ _)
      · rcases List.mem_append.mp hq with hq | hq
        · exact hkeep q hq hq'
        · rw [List.mem_singleton.mp hq]
          refine Or.inr ⟨fun hmem => hconnected ?_, h.known p hp⟩
          exact (HashTable.find_eq_some_iff hsettled.names).mpr hmem

/-- What is in the tree depends on the tree and the subscriber objects only. -/
theorem Matching.of_store {b b' : Broker} (hstore : b'.store = b.store) {toks : List CStr}
    (h : Matching b toks subs) : Matching b' toks subs := by
  refine ⟨h.nodup, fun s => ?_⟩
  rw [h.mem_iff]
  unfold InTree
  rw [hstore]

/-- The loop begins with the subscribers that match at the time of the search. -/
theorem publish_begins (hsettled : Settled w b) (hc : w.broker.heap.get a = some c)
    (hat : w.threads a = some (.handling env req)) (hrun : w.publish a env req = some w')
    {env' : Env} {req' : Frame} (hheaders : req'.varHeaders = stored t)
    (hroom : Roomy topic c.addr.text (put t xTime env'.msgTime.text) subs)
    (hat' : w'.threads a = some (.delivering env' req' topic subs rest frame sent)) :
    env' = env ∧ req' = req ∧ rest = subs ∧
      (∃ toks, levels topic = some toks ∧ Matching w.broker toks subs) ∧
      Progress a c env req t topic subs w' [] frame sent := by
  -- the other outcomes leave the thread elsewhere
  have helse : ∀ {thread : Thread}, publishing (some thread) = false →
      some (w.goto a thread) = some w' → False := by
    intro thread houtside heq
    rw [← Option.some.inj heq, goto_self] at hat'
    rw [Option.some.inj hat'] at houtside
    cases houtside
  have hproper : Proper req := hsettled.ready hat
  obtain ⟨R, hinv⟩ := hsettled.inv
  unfold World.publish at hrun
  split at hrun
  · exact (helse rfl hrun).elim
  · exact (helse rfl hrun).elim
  case h_3 topic' _ =>
    simp only [bind, Option.bind_eq_some_iff] at hrun
    obtain ⟨found, hfind, hrun⟩ := hrun
    rw [hsettled.store] at hfind
    match found, hfind, hrun with
    | none, _, hrun => exact (helse rfl hrun).elim
    | some [], _, hrun => exact (helse rfl hrun).elim
    | some (p :: more), hfind, hrun =>
        simp only [Option.bind_eq_some_iff] at hrun
        obtain ⟨⟨s, fr⟩, hmsg, hrun⟩ := hrun
        by_cases hs : s = .ok
        · rw [if_pos hs] at hrun
          obtain rfl := Option.some.inj hrun
          rw [goto_self] at hat'
          obtain ⟨rfl, rfl, rfl, rfl, rfl, rfl, rfl⟩ :=
            Thread.delivering.inj (Option.some.inj hat')
          -- a search that finds something had a valid topic
          cases hlevels : levels topic' with
          | none =>
              rw [find_spec hinv, hlevels] at hfind
              cases hfind
          | some toks =>
              obtain ⟨found, hfind', hmatch⟩ := matching_found hinv hlevels
              obtain rfl : found = p :: more :=
                Option.some.inj (Option.some.inj (hfind'.symm.trans hfind))
              obtain ⟨t', hheaders', hwf, -⟩ :=
                filled_table hproper.received.keyed hproper.filled
              obtain rfl : t = t' := stored_inj (hheaders.symm.trans hheaders')
              have hwf' := hwf.put (show xTime.length ≠ 0 by decide)
                (Timestamp.length_ne env.msgTime)
              have hstart : Loaded topic' c.addr.text (put t xTime env.msgTime.text) (p :: more)
                  (put t xTime env.msgTime.text) := loaded_start hwf'.nodup List.mem_cons_self
              have hsize : encSize t ≤ 65535 := by
                obtain ⟨old, hold⟩ := hproper.received.time
                have hfindTime : t.find xTime = some old.text := by
                  rw [hheaders, find_stored] at hold
                  simpa using hold
                rw [← encSize_put_same hwf.nodup hfindTime
                  (env.msgTime.length_eq.trans old.length_eq.symm)]
                exact hstart.size hroom
              obtain ⟨hmsg', -⟩ := msg_fits hproper.received hheaders hwf hsize env.msgTime
              obtain ⟨-, rfl⟩ := Prod.mk.inj (Option.some.inj (hmsg'.symm.trans hmsg))
              refine ⟨rfl, rfl, rfl, ⟨toks, rfl, hmatch.of_store hsettled.store⟩,
                hc, fun q hq => ?_, ⟨_, hstart, rfl⟩, [], List.Sublist.refl _, rfl,
                fun q hq => absurd hq List.not_mem_nil⟩
              obtain ⟨x, -, -, hconnected, -⟩ := found_connected hinv hmatch hq
              obtain ⟨c', hc', -⟩ := hinv.clients.mp (HashTable.mem_of_find hconnected)
              show q.client < w.broker.heap.next
              rw [hsettled.next]
              exact Heap.lt_next_of_get hc'
        · rw [if_neg hs] at hrun
          exact (helse rfl hrun).elim

/-- While a thread stays in the loop of `handle__PUB`, a move is one of another client or the next
turn of the loop. -/
theorem loop_step {m : Move} (hturn : w.step m = some w')
    (hat : w.threads a = some (.delivering env req topic subs rest frame sent))
    (hstays : publishing (w'.threads a) = true) :
    (∃ x, a ≠ x ∧ Local x w w') ∨ m = .run a ∧ ∃ p more, rest = p :: more ∧
      w.deliver a env req topic subs rest frame sent = some w' := by
  cases step_turn hturn with
  | @delivers a' _ _ _ _ _ _ _ _ hat' hrun =>
      by_cases ha : a = a'
      · subst ha
        obtain ⟨rfl, rfl, rfl, rfl, rfl, rfl, rfl⟩ :=
          Thread.delivering.inj (Option.some.inj (hat.symm.trans hat'))
        rcases deliver_goes hrun with ⟨thread, houtside, rfl⟩ | ⟨p, more, -, -, hrest, -⟩
        · rw [goto_self, houtside] at hstays
          cases hstays
        · exact Or.inr ⟨rfl, p, more, hrest, hrun⟩
      · exact Or.inl ⟨a', ha, local_deliver hrun⟩
  | @publishes a' _ _ _ hat' hrun =>
      obtain ⟨thread, rfl⟩ := publish_goes hrun
      refine Or.inl ⟨a', ?_, local_goto _⟩
      rintro rfl
      cases Option.some.inj (hat.symm.trans hat')
  | connects addr =>
      exact Or.inl ⟨a + 1, (Nat.succ_ne_self a).symm, fun _ _ => rfl, fun _ _ => rfl, Nat.le_refl _,
        fun _ he => Or.inl he⟩
  | passes h =>
      refine Or.inl ⟨w.actor m, ?_, h.toLocal⟩
      rintro rfl
      rw [h.outside] at hstays
      cases hstays

/-- The loop over an array begins with the search that filled the array. -/
theorem loop_begins {m : Move} (hturn : w.step m = some w')
    (hbefore : ∀ rest frame sent,
      w.threads a ≠ some (.delivering env req topic subs rest frame sent))
    (hat : w'.threads a = some (.delivering env req topic subs rest frame sent)) :
    ∃ env' req', w.threads a = some (.handling env' req') ∧
      w.publish a env' req' = some w' := by
  have hother : ∀ {y}, a ≠ y → ¬ Local y w w' := fun hy hlocal =>
    hbefore rest frame sent ((hlocal.threads a hy).symm.trans hat)
  cases step_turn hturn with
  | @delivers a' _ _ _ _ _ _ _ _ hat' hrun =>
      by_cases ha : a = a'
      · subst ha
        rcases deliver_goes hrun with ⟨thread, houtside, rfl⟩ | ⟨p, more, frame', sent', -, rfl⟩
        · rw [goto_self] at hat
          rw [Option.some.inj hat] at houtside
          cases houtside
        · rw [goto_self] at hat
          obtain ⟨rfl, rfl, rfl, rfl, -⟩ := Thread.delivering.inj (Option.some.inj hat)
          exact absurd hat' (hbefore _ _ _)
      · exact absurd (local_deliver hrun) (hother ha)
  | @publishes a' env' req' _ hat' hrun =>
      by_cases ha : a = a'
      · subst ha
        exact ⟨env', req', hat', hrun⟩
      · obtain ⟨thread, rfl⟩ := publish_goes hrun
        exact absurd (local_goto thread) (hother ha)
  | connects addr => exact absurd hat (hbefore _ _ _)
  | passes h =>
      by_cases ha : a = w.actor m
      · have houtside := h.outside
        rw [← ha, hat] at houtside
        cases houtside
      · exact absurd h.toLocal (hother ha)

theorem proper_pub (flag : Byte) : Proper (request opPub flag (pubHeaders "a/b")) := by
  have hwf : WellFormed (pubHeaders "a/b") :=
    (WellFormed.nil.put (show xTime.length ≠ 0 by decide) (Timestamp.length_ne newYear)).put
      (show xTopic.length ≠ 0 by decide) (show (CStr.ofString "a/b").length ≠ 0 by decide)
  exact proper_request (by decide) hwf (by decide +kernel)
    (show (pubHeaders "a/b").find xTime = some newYear.text by decide +kernel)

/-- The subscriber of a publication leaves before its turn. -/
theorem left_while_publishing : ∃ w c s frame sent, Interleaved w ∧
    w.threads 1 = some (.delivering calm (request opPub 0 (pubHeaders "a/b")) (.ofString "a/b") [s]
      [] frame sent) ∧ w.broker.heap.get 1 = some c ∧ c.addr = secondAddr ∧
    s.subTag = .ofString "t" ∧ s.getTopic = .ofString "a/b" := by
  refine ⟨_, _, _, _, _, (((((((((((((Runs.refl.move (m := .connect firstAddr) ?_ rfl).move
    (m := .accept [firstId]) ?_ rfl).move (m := .connect secondAddr) ?_ rfl).move
    (m := .accept [firstId, secondId]) ?_ rfl).move
    (m := .receive 0 (some (calm, subRequest 0 "a/b" "t"))) ?_ rfl).move (m := .run 0) ?_ rfl).move
    (m := .run 0) ?_ rfl).move (m := .run 0) ?_ rfl).move
    (m := .receive 1 (some (calm, request opPub 0 (pubHeaders "a/b")))) ?_ rfl).move
    (m := .run 1) ?_ rfl).move (m := .receive 0 none) ?_ rfl).move (m := .run 0) ?_ rfl).move
    (m := .run 1) ?_ rfl), rfl, rfl, rfl, rfl, rfl⟩
  · exact ⟨rfl, trivial⟩
  · exact orderly_accept ⟨rfl, firstId, by simp, rfl⟩ fun _ => rfl
  · exact ⟨rfl, trivial⟩
  · refine orderly_accept ⟨rfl, secondId, by simp, rfl⟩ fun x => ?_
    show departed (if x = 0 then some .reading else none) = false
    split_ifs <;> rfl
  · exact orderly_receive rfl proper_sub
  · exact ⟨⟨_, rfl, by simp⟩, trivial⟩
  · exact ⟨⟨_, rfl, by simp⟩, rfl⟩
  · exact ⟨⟨_, rfl, by simp⟩, trivial⟩
  · exact orderly_receive rfl (proper_pub 0)
  · exact ⟨⟨_, rfl, by simp⟩, trivial⟩
  · exact ⟨rfl, by simp⟩
  · exact ⟨⟨_, rfl, by simp⟩, rfl⟩
  · exact ⟨⟨_, rfl, by simp⟩, rfl⟩

theorem roomy_pub {addr : CStr} {s : Subscriber} (haddr : addr = secondAddr.text)
    (htag : s.subTag = .ofString "t") (htopic : s.getTopic = .ofString "a/b") :
    Roomy (.ofString "a/b") addr (put (pubHeaders "a/b") xTime newYear.text) [s] := by
  intro p hp q hq
  rw [List.mem_singleton.mp hp, List.mem_singleton.mp hq, haddr, htag, htopic]
  decide +kernel

/-- In any interleaving, a publication for whose messages there is room reaches the subscribers that
matched at the time of its search, in their order and each at most once, with the message that the
sequential server would have sent. One that the loop has been through and that got no message has
lost its client. -/
theorem publication_delivers (hw : Interleaved w)
    (hat : w.threads a = some (.delivering env req topic subs rest frame sent))
    (hc : w.broker.heap.get a = some c) (hheaders : req.varHeaders = stored t)
    (hroom : Roomy topic c.addr.text (put t xTime env.msgTime.text) subs) :
    ∃ (w₀ : World) (toks : List CStr) (done served : List Subscriber), Interleaved w₀ ∧
      Runs World.step World.Orderly w₀ w ∧ w₀.threads a = some (.handling env req) ∧
      levels topic = some toks ∧ Matching w₀.broker toks subs ∧ subs = done ++ rest ∧
      served.Sublist (done.filter fun p => !leftOut a req p) ∧
      sent = served.map (fun p => (p.client, delivered env.msgTime c req t topic p)) ∧
      ∀ p ∈ done, leftOut a req p = false → p ∉ served →
        w.broker.clients.find p.clientId ≠ some p.client := by
  obtain ⟨x, m, x', hx, hnot, hm, hturn, ⟨rest₀, frame₀, sent₀, hbegin⟩, hafter⟩ :=
    hw.since (Q := fun x => ∃ rest frame sent,
      x.threads a = some (.delivering env req topic subs rest frame sent))
      ⟨rest, frame, sent, hat⟩ (by rintro ⟨_, _, _, h⟩; cases h)
  have hx' : Interleaved x' := hx.move hm hturn
  obtain ⟨env', req', hhandling, hpublish⟩ := loop_begins hturn
    (fun rest frame sent h => hnot ⟨rest, frame, sent, h⟩) hbegin
  obtain ⟨b, -, hsettled⟩ := Interleaved.settled hx
  obtain ⟨c', hc', -⟩ := hsettled.same hhandling trivial
  -- the client of the thread is the same all along
  have hclient : w.broker.heap.get a = some c' := by
    refine hafter.invariant (Q := fun y => y.broker.heap.get a = some c') ?_ ?_
    · obtain ⟨thread, rfl⟩ := publish_goes hpublish
      exact hc'
    · rintro y z m hy ⟨-, ⟨rest, frame, sent, haty⟩, hkeep⟩ hturn
      obtain ⟨_, _, _, hatz⟩ := hkeep z hturn
      rcases loop_step hturn haty (by rw [hatz]; rfl) with ⟨x, hx, hlocal⟩ | ⟨-, p, more, -, hrun⟩
      · exact (hlocal.heap a hx).trans hy
      · rcases deliver_goes hrun with ⟨thread, -, rfl⟩ | ⟨_, _, _, _, -, rfl⟩ <;> exact hy
  obtain rfl : c' = c := Option.some.inj (hclient.symm.trans hc)
  obtain ⟨rfl, rfl, rfl, ⟨toks, hlevels, hmatch⟩, hprogress⟩ :=
    publish_begins hsettled hc' hhandling hpublish hheaders hroom hbegin
  have hend := hafter.invariant (Q := fun y => Interleaved y ∧ ∃ done rest frame sent,
    y.threads a = some (.delivering env req topic rest₀ rest frame sent) ∧ rest₀ = done ++ rest ∧
    Progress a c' env req t topic rest₀ y done frame sent)
    ⟨hx', [], rest₀, frame₀, sent₀, hbegin, rfl, hprogress⟩ ?_
  · obtain ⟨-, done, rest', frame', sent', hat', hsplit, hprogress'⟩ := hend
    obtain ⟨-, -, -, -, rfl, rfl, rfl⟩ :=
      Thread.delivering.inj (Option.some.inj (hat'.symm.trans hat))
    obtain ⟨served, hsublist, hsent, hdone⟩ := hprogress'.sent
    refine ⟨x, toks, done, served, hx, (Runs.single hm hturn).trans (hafter.mono And.left),
      hhandling, hlevels, hmatch, hsplit, hsublist, hsent, fun p hp hout hnot hfind => ?_⟩
    rcases hdone p hp hout with hserved | hgone
    · exact hnot hserved
    · exact hgone.absent (HashTable.mem_of_find hfind)
  · rintro y z m ⟨hy, done, rest, frame, sent, haty, hsplit, hprogress⟩ ⟨hm, -, hkeep⟩ hturn
    refine ⟨hy.move hm hturn, ?_⟩
    obtain ⟨rest', frame', sent', hatz⟩ := hkeep z hturn
    rcases loop_step hturn haty (by rw [hatz]; rfl) with ⟨x, hx, hlocal⟩ | ⟨rfl, p, more, rfl, hrun⟩
    · exact ⟨done, rest, frame, sent, (hlocal.threads a hx).trans haty, hsplit,
        hprogress.kept hx hlocal⟩
    · obtain ⟨b, -, hsettled⟩ := hy.settled
      have hlock : y.accepting = none := by
        have horderly := hm.2
        simp only [haty] at horderly
        exact horderly
      have hp : p ∈ rest₀ := by
        rw [hsplit]
        exact List.mem_append_right _ List.mem_cons_self
      obtain ⟨frame', sent', hatz', hprogress'⟩ :=
        hprogress.turn hsettled hlock haty hp hroom hrun
      exact ⟨done ++ [p], more, frame', sent', hatz', by rw [hsplit, List.append_assoc]; rfl,
        hprogress'⟩

theorem publication_delivers_left : ∃ (w w₀ : World) (toks : List CStr) (s : Subscriber)
    (served : List Subscriber), Interleaved w₀ ∧ Runs World.step World.Orderly w₀ w ∧
    levels (.ofString "a/b") = some toks ∧ Matching w₀.broker toks [s] ∧ served.Sublist [s] := by
  obtain ⟨w, c, s, frame, sent, hw, hat, hc, haddr, htag, htopic⟩ := left_while_publishing
  obtain ⟨w₀, toks, done, served, hw₀, hruns, -, hlevels, hmatch, hsplit, hserved, -⟩ :=
    publication_delivers hw hat hc rfl (roomy_pub (congrArg SockAddr.text haddr) htag htopic)
  refine ⟨w, w₀, toks, s, served, hw₀, hruns, hlevels, hmatch, ?_⟩
  rw [List.append_nil] at hsplit
  exact hsplit ▸ hserved.trans List.filter_sublist

end Publication

end Bpsp
