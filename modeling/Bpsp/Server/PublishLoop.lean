import Bpsp.Server.Delivery

/-!
# When the delivery loop is defined

A header that is inserted with an empty value is stored without one, and neither setting it again
nor encoding it is defined then. In the loop of `handle__PUB` this can happen to `x-sub-tag` only,
for a subscriber with an empty tag. `publish_loop_defined_iff` says exactly for which subscribers the
loop runs to its end.
-/

namespace Bpsp

open CLib Topic Bpsp.Frame

namespace Frame

/-- The headers as texts, with an empty one for a header that has no value. -/
def texts (h : Headers) : Table := h.map fun e => (e.1, e.2.getD default)

theorem find_texts (h : Headers) (k : CStr) :
    (texts h).find k = (h.find k).map fun v => v.getD default := by
  unfold texts HashTable.find
  rw [← List.map_reverse, List.find?_map, Option.map_map, Option.map_map]
  rfl

theorem texts_update (h : Headers) (k v : CStr) :
    texts (h.update k (some v)) = (texts h).update k v := by
  unfold texts HashTable.update
  rw [List.map_map, List.map_map]
  refine List.map_congr_left fun e _ => ?_
  by_cases he : e.1 = k <;> simp [he]

theorem texts_add (h : Headers) (k v : CStr) :
    texts (h.add k (if v.length = 0 then none else some v)) = (texts h).add k v := by
  have hval : (if v.length = 0 then none else some v).getD default = v := by
    split_ifs with hv
    · exact (CStr.ext (CStr.length_eq_zero_iff.mp hv) : v = default).symm
    · rfl
  unfold texts HashTable.add
  rw [List.map_append, List.map_singleton, hval]

theorem texts_stored (t : Table) : texts (stored t) = t := by
  unfold texts stored
  rw [List.map_map]
  exact List.map_id' t

/-- The frame is correctly accounted when a header without a value counts as an empty one. -/
structure Measures (fr : Frame) (t : Table) : Prop where
  headers : texts fr.varHeaders = t
  size : fr.varsSize = encSize t
  fits : encSize t ≤ 65535
  nodup : t.keys.Nodup

theorem Accounts.measures {fr : Frame} {t : Table} (h : Accounts fr t) : Measures fr t :=
  ⟨by rw [h.headers, texts_stored], h.size, h.fits, h.nodup⟩

/-- Setting a header, when it is defined, succeeds exactly when it fits. -/
theorem Measures.set {fr : Frame} {t : Table} (h : Measures fr t) {k v : CStr} (hk : k.length ≠ 0)
    (hlenK : k.length < 65536) (hlenV : v.length < 65536) {r : Status × Frame}
    (hrun : fr.setVarHeader k (some v) = some r) :
    (r.1 = .ok ↔ encSize (put t k v) ≤ 65535) ∧ (r.1 = .ok → Measures r.2 (put t k v)) := by
  have hfind := find_texts fr.varHeaders k
  rw [h.headers] at hfind
  unfold setVarHeader at hrun
  rw [if_neg hk] at hrun
  simp only [bind, Option.bind_some, h.size, Nat.mod_eq_of_lt hlenK, Nat.mod_eq_of_lt hlenV] at hrun
  cases hold : fr.varHeaders.find k with
  | none =>
      rw [hold] at hfind
      have hmem : k ∉ t.keys := HashTable.find_eq_none_iff.mp hfind
      have hsize := encSize_add t k v
      rw [put_of_not_mem v hmem]
      simp only [hold] at hrun
      by_cases hroom : encSize t + k.length + v.length + 5 < 65536
      · rw [if_pos hroom] at hrun
        rw [← Option.some.inj hrun]
        refine ⟨iff_of_true rfl (by omega), fun _ => ⟨?_, ?_, by omega,
          HashTable.nodup_add h.nodup hfind⟩⟩
        · simp only [texts_add, h.headers]
        · simp only [hsize]
          omega
      · rw [if_neg hroom] at hrun
        rw [← Option.some.inj hrun]
        exact ⟨iff_of_false (by simp) (by omega), fun hok => by cases hok⟩
  | some old =>
      rw [hold] at hfind
      simp only [hold, Option.bind_eq_some_iff] at hrun
      obtain ⟨old, rfl, hrun⟩ := hrun
      have hfind' : t.find k = some old := hfind
      have hmem : k ∈ t.keys := HashTable.mem_keys_of_mem (HashTable.mem_of_find hfind')
      have hsize := encSize_update (v := v) h.nodup hfind'
      have hle := le_encSize (HashTable.mem_of_find hfind')
      have hfit := h.fits
      rw [put_of_mem v hmem]
      have hlenOld : old.length % 65536 = old.length := Nat.mod_eq_of_lt (by omega)
      have hred : (encSize t + 65536 - old.length) % 65536 = encSize t - old.length := by omega
      simp only [hlenOld, hred] at hrun
      split_ifs at hrun with hroom
      · rw [← Option.some.inj hrun]
        refine ⟨iff_of_true rfl (by omega), fun _ => ⟨?_, ?_, by omega, by simpa using h.nodup⟩⟩
        · simp only [texts_update, h.headers]
        · simp only
          omega
      · rw [← Option.some.inj hrun]
        exact ⟨iff_of_false (by simp) (by omega), fun hok => by cases hok⟩

theorem set_var_header_keys {fr : Frame} {k v : CStr} {r : Status × Frame}
    (hrun : fr.setVarHeader k (some v) = some r) : fr.varHeaders.keys ⊆ r.2.varHeaders.keys := by
  rcases set_var_header_cases hrun with ⟨-, hr⟩ | ⟨-, -, hr⟩ | ⟨_, _, -, -, -, hr⟩
  · rw [hr]
    exact List.Subset.refl _
  · rw [hr, HashTable.keys_add]
    exact List.subset_append_left _ _
  · rw [hr, HashTable.keys_update]
    exact List.Subset.refl _

end Frame

section Keeps

variable {env : Env} {b : Broker} {a : Addr} {req fr fr' : Frame} {topic : CStr} {p : Subscriber}
  {sent sent' : Sent} {s : Status} {Q : Frame → Prop}

/-- Frames were sent that all have a property. -/
def SentMore (Q : Frame → Prop) (sent sent' : Sent) : Prop :=
  ∃ more, sent' = sent ++ more ∧ ∀ x ∈ more, Q x.2

theorem SentMore.refl (sent : Sent) : SentMore Q sent sent := ⟨[], by simp, by simp⟩

theorem SentMore.trans {sent₁ sent₂ sent₃ : Sent} (h : SentMore Q sent₁ sent₂)
    (h' : SentMore Q sent₂ sent₃) : SentMore Q sent₁ sent₃ := by
  obtain ⟨more, rfl, hmore⟩ := h
  obtain ⟨more', rfl, hmore'⟩ := h'
  refine ⟨more ++ more', List.append_assoc _ _ _, fun x hx => ?_⟩
  exact (List.mem_append.mp hx).elim (hmore x) (hmore' x)

theorem client_send_more (h : Q fr) (hrun : clientSend env a fr sent = some (s, sent')) :
    SentMore Q sent sent' := by
  unfold clientSend at hrun
  by_cases hdone : fr.isCompleted = true
  · simp only [if_pos hdone, bind] at hrun
    have hsent : sent' = sent ++ [(a, fr)] := by
      split_ifs at hrun
      · obtain ⟨-, -, hrun⟩ := Option.bind_eq_some_iff.mp hrun
        exact (Prod.mk.inj (Option.some.inj hrun)).2.symm
      · exact (Prod.mk.inj (Option.some.inj hrun)).2.symm
    exact ⟨[(a, fr)], hsent, fun x hx => by rw [List.mem_singleton.mp hx]; exact h⟩
  · rw [if_neg hdone] at hrun
    obtain ⟨-, rfl⟩ := Prod.mk.inj (Option.some.inj hrun)
    exact SentMore.refl sent

/-- Setting headers keeps the property of frames. -/
def KeptBySet (Q : Frame → Prop) : Prop :=
  ∀ {fr : Frame} {k v : CStr} {r : Status × Frame}, Q fr → fr.setVarHeader k (some v) = some r → Q r.2

variable (hset : KeptBySet Q)

include hset

theorem deliver_msg_keeps (h : Q fr)
    (hrun : brokerDeliverMsg env b a p fr sent = some (s, fr', sent')) :
    Q fr' ∧ SentMore Q sent sent' := by
  simp only [brokerDeliverMsg, bind, Option.bind_eq_some_iff] at hrun
  obtain ⟨⟨s₁, fr₁⟩, hset₁, hrun⟩ := hrun
  have h₁ : Q fr₁ := hset h hset₁
  have hstop : ∀ {s₀ : Status} {fr₀ : Frame}, Q fr₀ →
      some (s₀, fr₀, sent) = some (s, fr', sent') → Q fr' ∧ SentMore Q sent sent' := by
    intro s₀ fr₀ h₀ heq
    obtain ⟨-, heq⟩ := Prod.mk.inj (Option.some.inj heq)
    obtain ⟨rfl, rfl⟩ := Prod.mk.inj heq
    exact ⟨h₀, SentMore.refl sent⟩
  dsimp only at hrun
  split_ifs at hrun
  · exact hstop h₁ hrun
  · cases hfind : b.clients.find p.clientId with
    | none =>
        rw [hfind] at hrun
        exact hstop h₁ hrun
    | some target =>
        simp only [hfind] at hrun
        split_ifs at hrun
        · simp only [Option.bind_eq_some_iff] at hrun
          obtain ⟨c, -, ⟨s₂, fr₂⟩, hset₂, hrun⟩ := hrun
          have h₂ : Q fr₂ := hset h₁ hset₂
          split_ifs at hrun
          · exact hstop h₂ hrun
          · simp only [Option.bind_eq_some_iff] at hrun
            obtain ⟨⟨s₃, sent₃⟩, hsend, hrun⟩ := hrun
            obtain ⟨-, hrun⟩ := Prod.mk.inj (Option.some.inj hrun)
            obtain ⟨rfl, rfl⟩ := Prod.mk.inj hrun
            exact ⟨h₂, client_send_more h₂ hsend⟩
        · exact hstop h₁ hrun

/-- Serving one subscriber keeps what holds after its tag was set. -/
theorem deliver_to_keeps_tagged
    (h : ∀ {r}, fr.setVarHeader xSubTag (some p.subTag) = some r → Q r.2)
    (hrun : deliverTo env b a topic p fr sent = some (s, fr', sent')) :
    Q fr' ∧ SentMore Q sent sent' := by
  simp only [deliverTo, bind, Option.bind_eq_some_iff] at hrun
  obtain ⟨⟨s₁, fr₁⟩, hset₁, hrun⟩ := hrun
  have h₁ : Q fr₁ := h hset₁
  dsimp only at hrun
  split_ifs at hrun
  · obtain ⟨-, heq⟩ := Prod.mk.inj (Option.some.inj hrun)
    obtain ⟨rfl, rfl⟩ := Prod.mk.inj heq
    exact ⟨h₁, SentMore.refl sent⟩
  · simp only [Option.bind_eq_some_iff] at hrun
    obtain ⟨⟨s₂, fr₂⟩, hset₂, hrun⟩ := hrun
    have h₂ : Q fr₂ := hset h₁ hset₂
    dsimp only at hrun
    split_ifs at hrun
    · obtain ⟨-, heq⟩ := Prod.mk.inj (Option.some.inj hrun)
      obtain ⟨rfl, rfl⟩ := Prod.mk.inj heq
      exact ⟨h₂, SentMore.refl sent⟩
    · exact deliver_msg_keeps hset h₂ hrun

/-- Serving one subscriber keeps what setting headers keeps, and the frame that it sends has it. -/
theorem deliver_to_keeps (h : Q fr)
    (hrun : deliverTo env b a topic p fr sent = some (s, fr', sent')) :
    Q fr' ∧ SentMore Q sent sent' :=
  deliver_to_keeps_tagged hset (fun hrun => hset h hrun) hrun

/-- So does the whole loop. -/
theorem publish_loop_keeps (subs : List Subscriber) : ∀ {fr : Frame} {sent : Sent}, Q fr →
    publishLoop env b a req topic subs fr sent = some sent' → SentMore Q sent sent' := by
  induction subs with
  | nil =>
      intro fr sent _ hrun
      rw [← Option.some.inj hrun]
      exact SentMore.refl sent
  | cons p rest ih =>
      intro fr sent h hrun
      unfold publishLoop at hrun
      split_ifs at hrun
      · exact ih h hrun
      · simp only [bind, Option.bind_eq_some_iff] at hrun
        obtain ⟨⟨s₁, fr₁, sent₁⟩, hdeliver, hrest⟩ := hrun
        obtain ⟨h₁, hmore⟩ := deliver_to_keeps hset h hdeliver
        exact hmore.trans (ih h₁ hrest)

end Keeps

/-- One turn of the loop for a subscriber that is not left out. -/
theorem publish_loop_step {env : Env} {b : Broker} {a : Addr} {req fr fr' : Frame} {topic : CStr}
    {p : Subscriber} {sent sent' : Sent} {s : Status} (hkept : leftOut a req p = false)
    (hdeliver : deliverTo env b a topic p fr sent = some (s, fr', sent')) (rest : List Subscriber) :
    publishLoop env b a req topic (p :: rest) fr sent =
      publishLoop env b a req topic rest fr' sent' := by
  rw [publishLoop, if_neg (by simp [hkept]), hdeliver]
  rfl

section Defined

variable {env : Env} {b : Broker} {a : Addr} {c : Client} {req fr : Frame} {topic : CStr}
  {t : Table} {p : Subscriber} {sent : Sent}

theorem client_send_valued (h : Valued fr.varHeaders) :
    ∃ r, clientSend env a fr sent = some r := by
  unfold clientSend
  by_cases hdone : fr.isCompleted = true
  · rw [if_pos hdone, eq_stored h, toBytes_stored]
    split_ifs <;> exact ⟨_, rfl⟩
  · exact ⟨_, if_neg hdone⟩

theorem deliver_msg_valued (h : Valued fr.varHeaders) (hc : b.heap.get a = some c)
    (hpattern : p.getTopic.length ≠ 0) :
    ∃ r, brokerDeliverMsg env b a p fr sent = some r ∧ Valued r.2.1.varHeaders := by
  obtain ⟨⟨s₁, fr₁⟩, hset₁, h₁⟩ := h.set xTopic (Or.inl hpattern)
  unfold brokerDeliverMsg
  simp only [hset₁, bind, Option.bind_some]
  by_cases hs₁ : s₁ = .ok
  · rw [if_neg (not_not.mpr hs₁)]
    cases hfind : b.clients.find p.clientId with
    | none => exact ⟨_, rfl, h₁⟩
    | some target =>
        dsimp only
        by_cases htarget : target = p.client
        · obtain ⟨⟨s₂, fr₂⟩, hset₂, h₂⟩ :=
            h₁.set xFrom (Or.inl (Nat.ne_of_gt c.addr.length_pos))
          simp only [if_pos htarget, hc, hset₂, Option.bind_some]
          by_cases hs₂ : s₂ = .ok
          · obtain ⟨r, hsend⟩ := @client_send_valued env target fr₂ sent h₂
            simp only [hs₂, ne_eq, not_true_eq_false, if_false, hsend, Option.bind_some]
            exact ⟨_, rfl, h₂⟩
          · exact ⟨_, if_pos hs₂, h₂⟩
        · exact ⟨_, if_neg htarget, h₁⟩
  · exact ⟨_, if_pos hs₁, h₁⟩

/-- Serving a subscriber is defined when every header has a value and no empty tag is inserted. -/
theorem deliver_to_valued (h : Valued fr.varHeaders) (hc : b.heap.get a = some c)
    (htopic : topic.length ≠ 0) (hpattern : p.getTopic.length ≠ 0)
    (htag : p.subTag.length ≠ 0 ∨ xSubTag ∈ fr.varHeaders.keys) :
    ∃ r, deliverTo env b a topic p fr sent = some r ∧ Valued r.2.1.varHeaders := by
  obtain ⟨⟨s₁, fr₁⟩, hset₁, h₁⟩ := h.set xSubTag htag
  unfold deliverTo
  simp only [hset₁, bind, Option.bind_some]
  by_cases hs₁ : s₁ = .ok
  · obtain ⟨⟨s₂, fr₂⟩, hset₂, h₂⟩ := h₁.set xOriginTopic (Or.inl htopic)
    simp only [hs₁, ne_eq, not_true_eq_false, if_false, hset₂, Option.bind_some]
    by_cases hs₂ : s₂ = .ok
    · obtain ⟨r, hdeliver, hr⟩ := @deliver_msg_valued env b a c fr₂ p sent h₂ hc hpattern
      exact ⟨r, by rw [if_neg (not_not.mpr hs₂), hdeliver], hr⟩
    · exact ⟨_, if_pos hs₂, h₂⟩
  · exact ⟨_, if_pos hs₁, h₁⟩

theorem tag_kept : KeptBySet fun fr => xSubTag ∈ fr.varHeaders.keys :=
  fun hmem hset => set_var_header_keys hset hmem

/-- With a tag header in the frame, the whole loop is defined. -/
theorem publish_loop_tagged (hc : b.heap.get a = some c) (htopic : topic.length ≠ 0)
    (subs : List Subscriber) : ∀ {fr : Frame} {sent : Sent}, Valued fr.varHeaders →
      xSubTag ∈ fr.varHeaders.keys → (∀ p ∈ subs, p.getTopic.length ≠ 0) →
      ∃ sent', publishLoop env b a req topic subs fr sent = some sent' := by
  induction subs with
  | nil => exact fun _ _ _ => ⟨_, rfl⟩
  | cons p rest ih =>
      intro fr sent h hkey hsubs
      have hrest : ∀ q ∈ rest, q.getTopic.length ≠ 0 := fun q hq => hsubs q (List.mem_cons_of_mem _ hq)
      unfold publishLoop
      split_ifs
      · exact ih h hkey hrest
      · obtain ⟨⟨s, fr', sent'⟩, hdeliver, h'⟩ := @deliver_to_valued env b a c fr topic p sent h hc
          htopic (hsubs p List.mem_cons_self) (Or.inr hkey)
        obtain ⟨sent'', hloop⟩ := @ih fr' sent' h' (deliver_to_keeps tag_kept hkey hdeliver).1 hrest
        exact ⟨sent'', by rw [hdeliver]; exact hloop⟩

end Defined

/-- A subscriber as the searches find them: its client is connected, and its tag and its topic came
in a frame. -/
structure Target (b : Broker) (p : Subscriber) : Prop where
  connected : b.clients.find p.clientId = some p.client
  topic_ne : p.getTopic.length ≠ 0
  tag_short : p.subTag.length < 65536
  topic_short : p.getTopic.length < 65536

/-- For a frame without a tag header: the first tag that fits is not empty, or it is the last one and
another header for its subscriber does not fit, so that it is not looked at again. -/
def TagsValued (topic addr : CStr) (t : Table) : List Subscriber → Prop
  | [] => True
  | p :: rest =>
      if encSize (put t xSubTag p.subTag) ≤ 65535 then
        p.subTag.length ≠ 0 ∨ rest = [] ∧ ¬ Fits topic addr t p
      else TagsValued topic addr t rest

/-- The frame after an empty tag was inserted: its tag header, and no other, has no value. -/
structure TagUnset (fr : Frame) (t : Table) : Prop where
  unset : UnsetAt fr.varHeaders xSubTag
  others : ∀ k, k ≠ xSubTag → fr.varHeaders.find k ≠ some none
  measures : Measures fr t
  done : fr.isCompleted = true

/-- Setting another header of such a frame. -/
theorem TagUnset.set {fr : Frame} {t : Table} (h : TagUnset fr t) {k v : CStr} (hne : k ≠ xSubTag)
    (hk : k.length ≠ 0) (hlenK : k.length < 65536) (hv : v.length ≠ 0) (hlenV : v.length < 65536) :
    ∃ s fr', fr.setVarHeader k (some v) = some (s, fr') ∧ UnsetAt fr'.varHeaders xSubTag ∧
      (s = .ok ↔ encSize (put t k v) ≤ 65535) ∧ (s = .ok → TagUnset fr' (put t k v)) := by
  obtain ⟨⟨s, fr'⟩, hset⟩ := set_var_header_defined (h.others k hne) v
  obtain ⟨hiff, hsized⟩ := h.measures.set hk hlenK hlenV hset
  refine ⟨s, fr', hset, h.unset.set hset, hiff, fun hok => ⟨h.unset.set hset, ?_, hsized hok, ?_⟩⟩
  · intro k' hk' hnone
    rcases set_var_header_cases hset with ⟨-, hr⟩ | ⟨-, -, hr⟩ | ⟨old, size, -, hfind, -, hr⟩
    · rw [show fr' = fr from hr] at hnone
      exact h.others k' hk' hnone
    · rw [(Prod.mk.inj hr).2] at hnone
      simp only [if_neg hv, HashTable.find_add] at hnone
      split_ifs at hnone
      · cases hnone
      · exact h.others k' hk' hnone
    · rw [show fr' = _ from hr] at hnone
      simp only [HashTable.find_update h.unset.nodup
        (HashTable.mem_keys_of_mem (HashTable.mem_of_find hfind))] at hnone
      split_ifs at hnone
      · cases hnone
      · exact h.others k' hk' hnone
  · rw [show fr' = _ from set_var_header_frame hset]
    exact h.done

section Untagged

variable {env : Env} {b : Broker} {a : Addr} {c : Client} {req fr : Frame} {topic : CStr}
  {t : Table} {p : Subscriber} {sent : Sent}

/-- A new tag that does not fit changes nothing. -/
theorem deliver_to_refused (h : Accounts fr t) (hnew : xSubTag ∉ t.keys)
    (hshort : p.subTag.length < 65536) (hfull : 65535 < encSize (put t xSubTag p.subTag)) :
    deliverTo env b a topic p fr sent = some (.maxVarHeaders, fr, sent) := by
  unfold deliverTo
  rw [set_var_header_full_new h (by decide) (by decide) hshort hnew hfull]
  rfl

/-- Inserting an empty tag. -/
theorem set_empty_tag (h : Accounts fr t) (hdone : fr.isCompleted = true) (hnew : xSubTag ∉ t.keys)
    (hempty : p.subTag.length = 0) (hfits : encSize (put t xSubTag p.subTag) ≤ 65535) :
    ∃ fr₁, fr.setVarHeader xSubTag (some p.subTag) = some (.ok, fr₁) ∧
      TagUnset fr₁ (put t xSubTag p.subTag) := by
  have hfind : fr.varHeaders.find xSubTag = none := by
    rw [h.headers, find_stored, HashTable.find_eq_none_iff.mpr hnew]
    rfl
  obtain ⟨⟨s, fr₁⟩, hset⟩ := set_var_header_defined (by rw [hfind]; simp) p.subTag
  obtain ⟨hiff, hsized⟩ := h.measures.set (by decide) (by decide) (by omega) hset
  obtain rfl : s = .ok := hiff.mpr hfits
  refine ⟨fr₁, hset, ?_⟩
  have hnodup : fr.varHeaders.keys.Nodup := by
    rw [h.headers, keys_stored]
    exact h.nodup
  rcases set_var_header_cases hset with ⟨hne, -⟩ | ⟨-, -, hr⟩ | ⟨old, size, -, hold, -, -⟩
  · exact absurd rfl hne
  · have hheaders : fr₁.varHeaders = fr.varHeaders.add xSubTag none := by
      rw [(Prod.mk.inj hr).2, if_pos hempty]
    refine ⟨⟨?_, ?_⟩, fun k hk hnone => ?_, hsized rfl, ?_⟩
    · rw [hheaders]
      exact HashTable.nodup_add hnodup hfind
    · rw [hheaders]
      exact List.mem_append_right _ (List.mem_singleton.mpr rfl)
    · rw [hheaders, HashTable.find_add, if_neg fun heq => hk heq.symm, h.headers, find_stored] at hnone
      simp at hnone
    · rw [(Prod.mk.inj hr).2]
      exact hdone
  · rw [hfind] at hold
    cases hold

/-- Serving a subscriber with an empty tag in a frame without a tag header: when its other headers
fit as well, the frame cannot be encoded. -/
theorem deliver_to_empty (h : Accounts fr t) (hdone : fr.isCompleted = true)
    (hc : b.heap.get a = some c) (hp : Target b p) (htopic : topic.length ≠ 0)
    (hshort : topic.length < 65536) (hnew : xSubTag ∉ t.keys) (hempty : p.subTag.length = 0)
    (hfits : encSize (put t xSubTag p.subTag) ≤ 65535) :
    (Fits topic c.addr.text t p → deliverTo env b a topic p fr sent = none) ∧
    (¬ Fits topic c.addr.text t p → ∃ s fr', s ≠ .ok ∧
      deliverTo env b a topic p fr sent = some (s, fr', sent) ∧ UnsetAt fr'.varHeaders xSubTag) := by
  have haddr : c.addr.text.length < 65536 := by
    have := c.addr.length_le
    omega
  obtain ⟨fr₁, hset₁, h₁⟩ := set_empty_tag h hdone hnew hempty hfits
  obtain ⟨s₂, fr₂, hset₂, hu₂, hok₂, h₂⟩ := h₁.set (show xOriginTopic ≠ xSubTag by decide)
    (by decide) (by decide) htopic hshort
  unfold deliverTo
  simp only [hset₁, bind, Option.bind_some, ne_eq, not_true_eq_false, if_false, hset₂]
  by_cases hs₂ : s₂ = .ok
  swap
  · rw [if_pos hs₂]
    exact ⟨fun hall => absurd (hok₂.mpr hall.origin) hs₂, fun _ => ⟨s₂, fr₂, hs₂, rfl, hu₂⟩⟩
  obtain ⟨s₃, fr₃, hset₃, hu₃, hok₃, h₃⟩ := (h₂ hs₂).set (show xTopic ≠ xSubTag by decide)
    (by decide) (by decide) hp.topic_ne hp.topic_short
  simp only [hs₂, not_true_eq_false, if_false]
  unfold brokerDeliverMsg
  simp only [hset₃, bind, Option.bind_some, ne_eq]
  by_cases hs₃ : s₃ = .ok
  swap
  · rw [if_pos hs₃]
    exact ⟨fun hall => absurd (hok₃.mpr hall.pattern) hs₃, fun _ => ⟨s₃, fr₃, hs₃, rfl, hu₃⟩⟩
  obtain ⟨s₄, fr₄, hset₄, hu₄, hok₄, h₄⟩ := (h₃ hs₃).set (show xFrom ≠ xSubTag by decide)
    (by decide) (by decide) (Nat.ne_of_gt c.addr.length_pos) haddr
  simp only [hs₃, not_true_eq_false, if_false, hp.connected, if_true, hc, hset₄, Option.bind_some]
  by_cases hs₄ : s₄ = .ok
  · have hdone₄ := (h₄ hs₄).done
    have hpos : 0 < fr₄.varsSize := by
      have hfind := find_put (h₃ hs₃).measures.nodup xFrom xFrom c.addr.text
      rw [if_pos rfl] at hfind
      have := le_encSize (HashTable.mem_of_find hfind)
      rw [(h₄ hs₄).measures.size]
      omega
    have hundefined : clientSend env p.client fr₄ sent = none := by
      unfold clientSend
      rw [if_pos hdone₄, if_pos hpos, toBytes_unset ⟨_, hu₄.missing⟩]
      rfl
    rw [if_neg (not_not.mpr hs₄), hundefined]
    refine ⟨fun _ => rfl, fun hnot => absurd ⟨hfits, hok₂.mp hs₂, hok₃.mp hs₃, hok₄.mp hs₄⟩ hnot⟩
  · rw [if_pos hs₄]
    exact ⟨fun hall => absurd (hok₄.mpr hall.source) hs₄, fun _ => ⟨s₄, fr₄, hs₄, rfl, hu₄⟩⟩

/-- The loop does nothing for the subscribers that are left out. -/
theorem publish_loop_filter (subs : List Subscriber) : ∀ (fr : Frame) (sent : Sent),
    publishLoop env b a req topic subs fr sent =
      publishLoop env b a req topic (subs.filter fun p => !leftOut a req p) fr sent := by
  induction subs with
  | nil => exact fun _ _ => rfl
  | cons p rest ih =>
      intro fr sent
      cases hout : leftOut a req p with
      | true =>
          rw [List.filter_cons_of_neg (by simp [hout]), publishLoop, if_pos hout]
          exact ih fr sent
      | false =>
          rw [List.filter_cons_of_pos (by simp [hout]), publishLoop, publishLoop]
          simp only [ih]

/-- For subscribers that are not left out and a frame without a tag header. -/
theorem publish_loop_untagged_iff (hc : b.heap.get a = some c) (htopic : topic.length ≠ 0)
    (hshort : topic.length < 65536) (h : Carries fr t) (hdone : fr.isCompleted = true)
    (hnew : xSubTag ∉ t.keys) (sent : Sent) (subs : List Subscriber)
    (htargets : ∀ p ∈ subs, Target b p ∧ leftOut a req p = false) :
    (∃ sent', publishLoop env b a req topic subs fr sent = some sent') ↔
      TagsValued topic c.addr.text t subs := by
  induction subs with
  | nil => exact iff_of_true ⟨_, rfl⟩ trivial
  | cons p rest ih =>
      obtain ⟨hp, hkept⟩ := htargets p List.mem_cons_self
      have hrest : ∀ q ∈ rest, Target b q ∧ leftOut a req q = false :=
        fun q hq => htargets q (List.mem_cons_of_mem _ hq)
      unfold publishLoop TagsValued
      rw [if_neg (by simp [hkept])]
      by_cases hfits : encSize (put t xSubTag p.subTag) ≤ 65535
      · rw [if_pos hfits]
        by_cases hempty : p.subTag.length = 0
        · obtain ⟨hundefined, hdefined⟩ := @deliver_to_empty env b a c fr topic t p sent h.accounts hdone hc
            hp htopic hshort hnew hempty hfits
          by_cases hall : Fits topic c.addr.text t p
          · rw [hundefined hall]
            refine iff_of_false ?_ ?_
            · rintro ⟨_, hrun⟩
              cases hrun
            · rintro (hne | ⟨-, hnot⟩)
              · exact hne hempty
              · exact hnot hall
          · obtain ⟨s, fr', -, hdeliver, hunset⟩ := hdefined hall
            rw [hdeliver, Option.bind_eq_bind, Option.bind_some]
            cases rest with
            | nil => exact iff_of_true ⟨_, rfl⟩ (Or.inr ⟨rfl, hall⟩)
            | cons q rest =>
                -- the next subscriber sets the tag again
                have hnext : publishLoop env b a req topic (q :: rest) fr' sent = none := by
                  unfold publishLoop deliverTo
                  rw [if_neg (by simp [(hrest q List.mem_cons_self).2]),
                    hunset.set_eq_none (by decide)]
                  rfl
                refine iff_of_false ?_ ?_
                · rintro ⟨_, hrun⟩
                  cases hnext.symm.trans hrun
                · rintro (hne | ⟨hnil, -⟩)
                  · exact hne hempty
                  · cases hnil
        · refine iff_of_true ?_ (Or.inl hempty)
          have hvalued : Valued fr.varHeaders := by
            intro e he
            rw [h.headers] at he
            obtain ⟨e', -, rfl⟩ := List.mem_map.mp he
            rfl
          obtain ⟨⟨s, fr', sent'⟩, hdeliver, hvalued'⟩ :=
            @deliver_to_valued env b a c fr topic p sent hvalued hc htopic hp.topic_ne (Or.inl hempty)
          have hkey : xSubTag ∈ fr'.varHeaders.keys := by
            refine (deliver_to_keeps_tagged tag_kept (fun {r} hset => ?_) hdeliver).1
            rw [set_var_header_fits h (by decide) hempty hfits] at hset
            rw [← Option.some.inj hset]
            show xSubTag ∈ (stored (put t xSubTag p.subTag)).keys
            rw [keys_stored]
            exact mem_keys_put.mpr (Or.inl rfl)
          obtain ⟨sent'', hloop⟩ := @publish_loop_tagged env b a c req topic hc htopic rest fr' sent'
            hvalued' hkey fun q hq => (hrest q hq).1.topic_ne
          exact ⟨sent'', by rw [hdeliver]; exact hloop⟩
      · rw [if_neg hfits, deliver_to_refused h.accounts hnew hp.tag_short (Nat.lt_of_not_le hfits),
          Option.bind_eq_bind, Option.bind_some]
        exact ih hrest

/-- The loop runs to its end exactly when the frame has a tag header, or the first tag that is inserted
is not an empty one that is looked at again. -/
theorem publish_loop_defined_iff (hc : b.heap.get a = some c) (htopic : topic.length ≠ 0)
    (hshort : topic.length < 65536) (h : Carries fr t) (hdone : fr.isCompleted = true)
    (sent : Sent) (subs : List Subscriber) (htargets : ∀ p ∈ subs, Target b p) :
    (∃ sent', publishLoop env b a req topic subs fr sent = some sent') ↔
      xSubTag ∈ t.keys ∨
        TagsValued topic c.addr.text t (subs.filter fun p => !leftOut a req p) := by
  by_cases hkey : xSubTag ∈ t.keys
  · refine iff_of_true ?_ (Or.inl hkey)
    have hvalued : Valued fr.varHeaders := by
      intro e he
      rw [h.headers] at he
      obtain ⟨e', -, rfl⟩ := List.mem_map.mp he
      rfl
    refine publish_loop_tagged hc htopic subs hvalued ?_ fun p hp => (htargets p hp).topic_ne
    rw [h.headers, keys_stored]
    exact hkey
  · rw [or_iff_right hkey, publish_loop_filter]
    refine publish_loop_untagged_iff hc htopic hshort h hdone hkey sent _ fun p hp => ?_
    obtain ⟨hmem, hkept⟩ := List.mem_filter.mp hp
    exact ⟨htargets p hmem, by simpa using hkept⟩

end Untagged

end Bpsp
