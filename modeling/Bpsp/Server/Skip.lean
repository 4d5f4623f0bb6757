import Bpsp.Server.Reply

/-!
# Subscribers that are skipped

When a header for a subscriber does not fit, the loop of `handle__PUB` goes on with the next one, with
the frame as the failed call left it. A header that is new is refused without a trace, but an update
has already replaced the value and reduced the size when it fails. `Undisturbed` says that no update
fails while subscribers are still to come, and that those who come later fit whether or not the others
were skipped; `skips_cleanly` compares the run with the one in which the skipped subscribers do not
occur.
-/

namespace Bpsp

open CLib Topic Bpsp.Frame

/-- The subscribers that the body of the loop does not fail for. -/
def servedLoop (env : Env) (b : Broker) (a : Addr) (topic : CStr) :
    List Subscriber → Frame → Sent → Exec (List Subscriber)
  | [], _, _ => some []
  | p :: rest, frame, sent => do
      let (s, frame, sent) ← deliverTo env b a topic p frame sent
      let served ← servedLoop env b a topic rest frame sent
      some (if s = .ok then p :: served else served)

/-- Everyone who is not skipped is sent what would be sent without the skipped ones, and the size of
each frame is the number of bytes that are written for its headers. -/
def SkipsCleanly (env : Env) (b : Broker) (a : Addr) (req : Frame) (topic : CStr) (fr : Frame)
    (subs : List Subscriber) : Prop :=
  ∃ sent served, publishLoop env b a req topic subs fr [] = some sent ∧
    servedLoop env b a topic (subs.filter fun p => !leftOut a req p) fr [] = some served ∧
    publishLoop env b a req topic served fr [] = some sent ∧
    ∀ x ∈ sent, ∃ bytes, toBytes x.2.varHeaders = some bytes ∧ x.2.varsSize = bytes.length

/-- The tag is stored with a value. -/
def TagStored (t : Table) (p : Subscriber) : Prop := p.subTag.length ≠ 0 ∨ xSubTag ∈ t.keys

/-- A header for `p` that is not in the frame is refused, and the frame is left with the headers
`t'`. -/
inductive Refused (topic addr : CStr) (t : Table) (p : Subscriber) : Table → Prop where
  | tag (hnew : xSubTag ∉ t.keys) (hfull : 65535 < encSize (put t xSubTag p.subTag)) :
      Refused topic addr t p t
  | origin (hstored : TagStored t p) (htag : encSize (put t xSubTag p.subTag) ≤ 65535)
      (hnew : xOriginTopic ∉ t.keys)
      (hfull : 65535 < encSize (put (put t xSubTag p.subTag) xOriginTopic topic)) :
      Refused topic addr t p (put t xSubTag p.subTag)
  | source (hstored : TagStored t p) (htag : encSize (put t xSubTag p.subTag) ≤ 65535)
      (horigin : encSize (put (put t xSubTag p.subTag) xOriginTopic topic) ≤ 65535)
      (hpattern : encSize (put (put (put t xSubTag p.subTag) xOriginTopic topic) xTopic
        p.getTopic) ≤ 65535)
      (hnew : xFrom ∉ t.keys) (hfull : 65535 < encSize (addressed topic addr t p)) :
      Refused topic addr t p (put (put (put t xSubTag p.subTag) xOriginTopic topic) xTopic p.getTopic)

/-- No update fails before the last subscriber. The frame of the run has the headers `t`, and the one
of the run without the skipped subscribers has `u`. -/
inductive Undisturbed (topic addr : CStr) : Table → Table → List Subscriber → Prop where
  | nil (t u : Table) : Undisturbed topic addr t u []
  | served {t u : Table} {p : Subscriber} {rest : List Subscriber} (hfits : Fits topic addr t p)
      (hfits' : Fits topic addr u p) (hstored : TagStored t p) (hstored' : TagStored u p)
      (hrest : Undisturbed topic addr (addressed topic addr t p) (addressed topic addr u p) rest) :
      Undisturbed topic addr t u (p :: rest)
  | refused {t u t' : Table} {p : Subscriber} {rest : List Subscriber}
      (hrefused : Refused topic addr t p t') (hrest : Undisturbed topic addr t' u rest) :
      Undisturbed topic addr t u (p :: rest)
  | last {t u : Table} {p : Subscriber} (hfull : ¬ Fits topic addr t p) :
      Undisturbed topic addr t u [p]

/-- What a skipped subscriber leaves in the frame is set again for the next one. -/
theorem addressed_refused {topic addr : CStr} {t t' : Table} (hnodup : t.keys.Nodup) {p : Subscriber}
    (h : Refused topic addr t p t') (q : Subscriber) :
    addressed topic addr t' q = addressed topic addr t q := by
  cases h with
  | tag hnew hfull => rfl
  | origin hstored htag hnew hfull =>
      have hput : put (put t xSubTag p.subTag) xSubTag q.subTag = put t xSubTag q.subTag := put_put ..
      simp only [addressed, subscriberHeaders, putAll_cons, putAll_nil, hput]
  | source hstored htag horigin hpattern hnew hfull =>
      have hput := @putAll_putAll t
        [(xSubTag, p.subTag), (xOriginTopic, topic), (xTopic, p.getTopic)]
        [(xSubTag, q.subTag), (xOriginTopic, topic), (xTopic, q.getTopic)] hnodup rfl
      simp only [putAll_cons, putAll_nil] at hput
      simp only [addressed, subscriberHeaders, putAll_cons, putAll_nil, hput]

theorem Refused.fits {topic addr : CStr} {t t' : Table} {p : Subscriber}
    (h : Refused topic addr t p t') (hnodup : t.keys.Nodup) (hfits : encSize t ≤ 65535) :
    t'.keys.Nodup ∧ encSize t' ≤ 65535 := by
  cases h with
  | tag hnew hfull => exact ⟨hnodup, hfits⟩
  | origin hstored htag hnew hfull => exact ⟨nodup_put hnodup _ _, htag⟩
  | source hstored htag horigin hpattern hnew hfull =>
      exact ⟨nodup_put (nodup_put (nodup_put hnodup _ _) _ _) _ _, hpattern⟩

section Loop

variable {env : Env} {b : Broker} {a : Addr} {c : Client} {req fr : Frame} {topic : CStr}
  {t t' u : Table} {p : Subscriber} {sent : Sent}

/-- A header that does not fit is refused. -/
theorem set_var_header_full (h : Accounts fr t) {k v : CStr} (hk : k.length ≠ 0)
    (hlenK : k.length < 65536) (hlenV : v.length < 65536) (hfull : 65535 < encSize (put t k v)) :
    ∃ fr', fr.setVarHeader k (some v) = some (.maxVarHeaders, fr') := by
  by_cases hmem : k ∈ t.keys
  · obtain ⟨old, hold⟩ := Option.isSome_iff_exists.mp (HashTable.find_isSome_iff.mpr hmem)
    exact ⟨_, set_var_header_full_update h hk hlenV hold hfull⟩
  · exact ⟨_, set_var_header_full_new h hk hlenK hlenV hmem hfull⟩

/-- Serving a subscriber whose new header is refused. -/
theorem deliver_to_skips (hnodup : t.keys.Nodup) (hfits : encSize t ≤ 65535)
    (hc : b.heap.get a = some c) (hp : Target b p) (htopic : topic.length ≠ 0)
    (hshort : topic.length < 65536) (h : Refused topic c.addr.text t p t') :
    deliverTo env b a topic p (fr.withHeaders t) sent =
      some (.maxVarHeaders, fr.withHeaders t', sent) := by
  have h₀ := accounts_withHeaders fr hfits hnodup
  cases h with
  | tag hnew hfull => exact deliver_to_refused h₀ hnew hp.tag_short hfull
  | origin hstored htag hnew hfull =>
      have h₁ := accounts_withHeaders fr htag (nodup_put hnodup _ _)
      have hnew' : xOriginTopic ∉ (put t xSubTag p.subTag).keys := by
        rw [mem_keys_put, not_or]
        exact ⟨by decide, hnew⟩
      have hset₁ := set_var_header_accounts h₀ (by decide) hstored htag
      have hset₂ := set_var_header_full_new h₁ (by decide) (by decide) hshort hnew' hfull
      unfold deliverTo
      simp only [hset₁, withHeaders_withHeaders, hset₂, bind, Option.bind_some, ne_eq,
        not_true_eq_false, if_false]
      rfl
  | source hstored htag horigin hpattern hnew hfull =>
      have h₁ := accounts_withHeaders fr htag (nodup_put hnodup _ _)
      have h₂ := accounts_withHeaders fr horigin (nodup_put h₁.nodup _ _)
      have h₃ := accounts_withHeaders fr hpattern (nodup_put h₂.nodup _ _)
      have hnew' : xFrom ∉ (put (put (put t xSubTag p.subTag) xOriginTopic topic) xTopic
          p.getTopic).keys := by
        simp only [mem_keys_put, not_or]
        exact ⟨by decide, by decide, by decide, hnew⟩
      have haddr : c.addr.text.length < 65536 := Nat.lt_of_le_of_lt c.addr.length_le (by decide)
      have hset₁ := set_var_header_accounts h₀ (by decide) hstored htag
      have hset₂ := set_var_header_accounts h₁ (by decide) (Or.inl htopic) horigin
      have hset₃ := set_var_header_accounts h₂ (by decide) (Or.inl hp.topic_ne) hpattern
      have hset₄ := set_var_header_full_new h₃ (by decide) (by decide) haddr hnew' hfull
      unfold deliverTo brokerDeliverMsg
      simp only [hset₁, withHeaders_withHeaders, hset₂, hset₃, hset₄, bind, Option.bind_some, ne_eq,
        not_true_eq_false, if_false, hp.connected, if_true, hc]
      rfl

/-- Serving a subscriber whose headers do not all fit sends nothing. -/
theorem deliver_to_full (h : Accounts fr t) (hdone : fr.isCompleted = true)
    (hc : b.heap.get a = some c) (hp : Target b p) (htopic : topic.length ≠ 0)
    (hshort : topic.length < 65536) (hfull : ¬ Fits topic c.addr.text t p) :
    ∃ s fr', s ≠ .ok ∧ deliverTo env b a topic p fr sent = some (s, fr', sent) := by
  have haddr : c.addr.text.length < 65536 := Nat.lt_of_le_of_lt c.addr.length_le (by decide)
  by_cases htag : encSize (put t xSubTag p.subTag) ≤ 65535
  swap
  · obtain ⟨fr', hset⟩ := set_var_header_full h (by decide) (by decide) hp.tag_short
      (Nat.lt_of_not_le htag)
    refine ⟨.maxVarHeaders, fr', by decide, ?_⟩
    unfold deliverTo
    rw [hset]
    rfl
  by_cases hstored : TagStored t p
  swap
  · obtain ⟨hempty, hnew⟩ := not_or.mp hstored
    obtain ⟨s, fr', hs, hrun, -⟩ := (@deliver_to_empty env b a c fr topic t p sent h hdone hc hp
      htopic hshort hnew (not_not.mp hempty) htag).2 hfull
    exact ⟨s, fr', hs, hrun⟩
  have h₁ := accounts_withHeaders fr htag (nodup_put h.nodup _ _)
  have hset₁ := set_var_header_accounts h (by decide) hstored htag
  unfold deliverTo
  simp only [hset₁, bind, Option.bind_some, ne_eq, not_true_eq_false, if_false]
  by_cases horigin : encSize (put (put t xSubTag p.subTag) xOriginTopic topic) ≤ 65535
  swap
  · obtain ⟨fr', hset⟩ := set_var_header_full h₁ (by decide) (by decide) hshort
      (Nat.lt_of_not_le horigin)
    exact ⟨.maxVarHeaders, fr', by decide, by rw [hset]; rfl⟩
  have h₂ := accounts_withHeaders fr horigin (nodup_put h₁.nodup _ _)
  have hset₂ := set_var_header_accounts h₁ (by decide) (Or.inl htopic) horigin
  unfold brokerDeliverMsg
  simp only [hset₂, withHeaders_withHeaders, bind, Option.bind_some, ne_eq, not_true_eq_false,
    if_false]
  by_cases hpattern : encSize (put (put (put t xSubTag p.subTag) xOriginTopic topic) xTopic
      p.getTopic) ≤ 65535
  swap
  · obtain ⟨fr', hset⟩ := set_var_header_full h₂ (by decide) (by decide) hp.topic_short
      (Nat.lt_of_not_le hpattern)
    exact ⟨.maxVarHeaders, fr', by decide, by rw [hset]; rfl⟩
  have h₃ := accounts_withHeaders fr hpattern (nodup_put h₂.nodup _ _)
  have hset₃ := set_var_header_accounts h₂ (by decide) (Or.inl hp.topic_ne) hpattern
  have hsource : 65535 < encSize (addressed topic c.addr.text t p) :=
    Nat.lt_of_not_le fun hle => hfull ⟨htag, horigin, hpattern, hle⟩
  obtain ⟨fr', hset₄⟩ := @set_var_header_full _ _ h₃ xFrom c.addr.text (by decide) (by decide) haddr
    hsource
  refine ⟨.maxVarHeaders, fr', by decide, ?_⟩
  simp only [hset₃, withHeaders_withHeaders, Option.bind_some, not_true_eq_false, if_false,
    hp.connected, if_true, hc, hset₄]
  rfl

theorem served_loop_step {s : Status} {fr' : Frame} {sent' : Sent} {rest served : List Subscriber}
    (hdeliver : deliverTo env b a topic p fr sent = some (s, fr', sent'))
    (hserved : servedLoop env b a topic rest fr' sent' = some served) :
    servedLoop env b a topic (p :: rest) fr sent =
      some (if s = .ok then p :: served else served) := by
  rw [servedLoop, hdeliver, Option.bind_eq_bind, Option.bind_some]
  exact congrArg (Option.bind · _) hserved

/-- The two runs send the same frames, and their sizes are right. -/
theorem undisturbed_run (hc : b.heap.get a = some c) (htopic : topic.length ≠ 0)
    (hshort : topic.length < 65536) (hdone : fr.isCompleted = true) {subs : List Subscriber}
    (h : Undisturbed topic c.addr.text t u subs) : ∀ (sent : Sent), t.keys.Nodup →
      encSize t ≤ 65535 → u.keys.Nodup → encSize u ≤ 65535 →
      (∀ q, addressed topic c.addr.text t q = addressed topic c.addr.text u q) →
      (∀ p ∈ subs, Target b p ∧ leftOut a req p = false) →
      ∃ more served, publishLoop env b a req topic subs (fr.withHeaders t) sent =
          some (sent ++ more) ∧
        servedLoop env b a topic subs (fr.withHeaders t) sent = some served ∧
        publishLoop env b a req topic served (fr.withHeaders u) sent = some (sent ++ more) ∧
        ∀ x ∈ more, ∃ v, x.2 = fr.withHeaders v ∧ encSize v ≤ 65535 := by
  induction h with
  | nil t u =>
      intro sent _ _ _ _ _ _
      exact ⟨[], [], by simp [publishLoop], rfl, by simp [publishLoop], by simp⟩
  | @served t u p rest hfits hfits' hstored hstored' hrest ih =>
      intro sent htn htf hun huf hsame htargets
      obtain ⟨hp, hkept⟩ := htargets p List.mem_cons_self
      have hdeliver : ∀ {v}, v.keys.Nodup → encSize v ≤ 65535 → TagStored v p →
          Fits topic c.addr.text v p →
          deliverTo env b a topic p (fr.withHeaders v) sent = some (.ok,
            fr.withHeaders (addressed topic c.addr.text v p),
            sent ++ [(p.client, fr.withHeaders (addressed topic c.addr.text v p))]) := by
        intro v hvn hvf hstored hv
        exact deliver_to_fits (accounts_withHeaders fr hvf hvn) hdone hc hp.connected hstored
          hp.topic_ne htopic hv
      obtain ⟨more, served, hloop, hserved, hloop', hsizes⟩ := ih
        (sent ++ [(p.client, fr.withHeaders (addressed topic c.addr.text t p))])
        (nodup_putAll htn _) hfits.source (nodup_putAll hun _) hfits'.source
        (fun q => by rw [addressed_addressed htn, addressed_addressed hun, hsame])
        fun q hq => htargets q (List.mem_cons_of_mem _ hq)
      refine ⟨(p.client, fr.withHeaders (addressed topic c.addr.text t p)) :: more, p :: served,
        ?_, ?_, ?_, ?_⟩
      · rw [publish_loop_step hkept (hdeliver htn htf hstored hfits), hloop, List.append_assoc]
        rfl
      · exact served_loop_step (hdeliver htn htf hstored hfits) hserved
      · rw [← hsame] at hloop'
        rw [publish_loop_step hkept (hdeliver hun huf hstored' hfits'), ← hsame, hloop',
          List.append_assoc]
        rfl
      · intro x hx
        rcases List.mem_cons.mp hx with rfl | hx
        · exact ⟨_, rfl, hfits.source⟩
        · exact hsizes x hx
  | @refused t u t' p rest hrefused hrest ih =>
      intro sent htn htf hun huf hsame htargets
      obtain ⟨hp, hkept⟩ := htargets p List.mem_cons_self
      obtain ⟨htn', htf'⟩ := hrefused.fits htn htf
      have hskip := @deliver_to_skips env b a c fr topic t t' p sent htn htf hc hp htopic hshort
        hrefused
      obtain ⟨more, served, hloop, hserved, hloop', hsizes⟩ := ih sent htn' htf' hun huf
        (fun q => by rw [addressed_refused htn hrefused, hsame])
        fun q hq => htargets q (List.mem_cons_of_mem _ hq)
      refine ⟨more, served, ?_, ?_, hloop', hsizes⟩
      · rw [publish_loop_step hkept hskip, hloop]
      · exact served_loop_step hskip hserved
  | @last t u p hfull =>
      intro sent htn htf hun huf hsame htargets
      obtain ⟨hp, hkept⟩ := htargets p List.mem_cons_self
      obtain ⟨s, fr', hs, hdeliver⟩ := @deliver_to_full env b a c (fr.withHeaders t) topic t p sent
        (accounts_withHeaders fr htf htn) hdone hc hp htopic hshort hfull
      refine ⟨[], [], ?_, ?_, by simp [publishLoop], by simp⟩
      · rw [publish_loop_step hkept hdeliver, List.append_nil]
        rfl
      · rw [served_loop_step hdeliver rfl, if_neg hs]

end Loop

/-- For every PUB request of a connected client whose headers all have values, and the subscribers
that match its topic: when no update of a header fails before the last of them, whoever is not skipped
is sent what would be sent without the skipped ones, with the right size. -/
theorem skips_cleanly {b : Broker} (hb : Run FromWire Broker.init b) {a : Addr} {c : Client}
    (hc : b.heap.get a = some c) {req : Frame} (hreq : Received req) {topic : CStr}
    (htopic : headerValue req xTopic = some topic) {subs : List Subscriber}
    (hfound : treeFindSubscribers b.store topic = some (some subs)) {env : Env} {fr : Frame}
    (hmsg : Frame.msg env.msgTime req = some (.ok, fr)) (hfilled : Filled req.varHeaders)
    (hund : Undisturbed topic c.addr.text (put (texts req.varHeaders) xTime env.msgTime.text)
      (put (texts req.varHeaders) xTime env.msgTime.text)
      (subs.filter fun p => !leftOut a req p)) : SkipsCleanly env b a req topic fr subs := by
  obtain ⟨R, h⟩ := Run.inv inv_init hb
  have hshort : AllObjects Short b := Run.objects (fun _ _ hs => hs) from_wire_short hb
  obtain ⟨t, hheaders, hwf, hlens⟩ := filled_table hreq.keyed hfilled
  have hfits : encSize t ≤ 65535 := by
    by_contra hfull
    obtain ⟨fr₁, hcopy, -⟩ := assert_ok_some hmsg
    unfold Frame.copy at hcopy
    rw [if_pos hreq.done] at hcopy
    obtain ⟨fr₂, hcopy, -⟩ := assert_ok_some hcopy
    exact copy_header_full hreq.opcode_ne hheaders hwf hlens (Nat.lt_of_not_le hfull) hcopy
  obtain ⟨hmsg', htimed⟩ := msg_fits hreq hheaders hwf hfits env.msgTime
  obtain rfl := (Prod.mk.inj (Option.some.inj (hmsg.symm.trans hmsg'))).2
  rw [hheaders, texts_stored] at hund
  obtain ⟨toks, hlevels, hmatch⟩ := found_levels h hfound
  have htargets : ∀ p ∈ subs.filter fun p => !leftOut a req p, Target b p ∧ leftOut a req p = false := by
    intro p hp
    obtain ⟨hmem, hkept⟩ := List.mem_filter.mp hp
    exact ⟨found_target h hshort hmatch hmem, by simpa using hkept⟩
  have hnodup : (put t xTime env.msgTime.text).keys.Nodup := nodup_put hwf.nodup _ _
  obtain ⟨more, served, hloop, hserved, hloop', hsizes⟩ := @undisturbed_run env b a c req
    (messageOf req) topic _ _ hc (levels_length_ne hlevels) (Received.header_short hreq htopic) rfl
    _ hund [] hnodup htimed hnodup htimed (fun _ => rfl) htargets
  refine ⟨more, served, ?_, hserved, hloop', fun x hx => ?_⟩
  · rw [publish_loop_filter]
    exact hloop
  · obtain ⟨v, hv, hvfits⟩ := hsizes x hx
    rw [hv]
    exact ⟨encode v, toBytes_stored v, (length_encode hvfits).symm⟩

/-- The headers of a message to `a/b` with another one, and with a tag or without. -/
def paddedWith (pad : CStr) (tagged : Bool) : Table :=
  [(xTime, newYear.text), (xTopic, .ofString "a/b")] ++
    (if tagged then [(xSubTag, .ofString "a")] else []) ++
    [(xOriginTopic, .ofString "a/b"), (xFrom, secondAddr.text), (.ofString "pad", pad)]

/-- The headers of a message that leaves no room for a longer tag. -/
def padded (tagged : Bool) : Table := paddedWith (letters 65412) tagged

theorem padded_wellFormed (tagged : Bool) : WellFormed (padded tagged) := by
  have htime := WellFormed.nil.put (show xTime.length ≠ 0 by decide) (Timestamp.length_ne newYear)
  have htopic := htime.put (show xTopic.length ≠ 0 by decide)
    (show (CStr.ofString "a/b").length ≠ 0 by decide)
  have hrest : ∀ {t : Table}, WellFormed t → WellFormed (put (put (put t xOriginTopic
      (.ofString "a/b")) xFrom secondAddr.text) (.ofString "pad") (letters 65412)) := fun h =>
    ((h.put (show xOriginTopic.length ≠ 0 by decide)
      (show (CStr.ofString "a/b").length ≠ 0 by decide)).put (show xFrom.length ≠ 0 by decide)
      (Nat.ne_of_gt secondAddr.length_pos)).put (show (CStr.ofString "pad").length ≠ 0 by decide)
      (by rw [length_letters]; decide)
  cases tagged with
  | false => exact hrest htopic
  | true =>
      exact hrest (htopic.put (show xSubTag.length ≠ 0 by decide)
        (show (CStr.ofString "a").length ≠ 0 by decide))

theorem encSize_padded_with (pad : CStr) (tagged : Bool) :
    encSize (paddedWith pad tagged) = pad.length + if tagged then 123 else 108 := by
  have hkeys : xTime.length = 6 ∧ xTopic.length = 7 ∧ xSubTag.length = 9 ∧ xOriginTopic.length = 14 ∧
      xFrom.length = 6 ∧ (CStr.ofString "pad").length = 3 := by decide
  have hvalues : (CStr.ofString "a/b").length = 3 ∧ (CStr.ofString "a").length = 1 ∧
      secondAddr.text.length = 14 := by decide
  simp only [paddedWith, encSize_append, encSize_cons, encSize_nil, newYear.length_eq, hkeys, hvalues]
  cases tagged <;> simp [hkeys, hvalues] <;> omega

theorem encSize_padded (tagged : Bool) : encSize (padded tagged) = if tagged then 65535 else 65520 := by
  rw [padded, encSize_padded_with, length_letters]
  cases tagged <;> rfl

/-- Setting a header to the value that it has changes nothing. -/
theorem put_self {t : Table} (hnodup : t.keys.Nodup) {k v : CStr} (hfind : t.find k = some v) :
    put t k v = t := by
  rw [put_of_mem v (HashTable.mem_keys_of_mem (HashTable.mem_of_find hfind)), HashTable.update]
  conv_rhs => rw [← List.map_id' t]
  refine List.map_congr_left fun e he => ?_
  obtain ⟨k', v'⟩ := e
  split_ifs with hk
  · obtain rfl : k' = k := hk
    rw [HashTable.eq_of_mem hnodup he (HashTable.mem_of_find hfind)]
  · rfl

/-- An update of a frame whose size may be wrong. -/
theorem set_var_header_update {fr : Frame} {t : Table} (hheaders : fr.varHeaders = stored t)
    {k v old : CStr} (hk : k.length ≠ 0) (hfind : t.find k = some old)
    (hold : old.length ≤ fr.varsSize) (hsize : fr.varsSize < 65536)
    (hroom : fr.varsSize - old.length + v.length < 65536) :
    fr.setVarHeader k (some v) = some (.ok, { fr with
      varsSize := fr.varsSize - old.length + v.length, varHeaders := stored (t.update k v) }) := by
  have hmod : v.length % 65536 = v.length := Nat.mod_eq_of_lt (by omega)
  have hmod' : old.length % 65536 = old.length := Nat.mod_eq_of_lt (by omega)
  have hred : (fr.varsSize + 65536 - old.length) % 65536 = fr.varsSize - old.length := by omega
  unfold setVarHeader
  simp only [if_neg hk, bind, Option.bind_some, hheaders, find_stored, hfind, Option.map_some, hmod,
    hmod', hred, if_pos hroom, stored_update]

/-- Setting a header to the value that it has leaves the size as it is, right or wrong. -/
theorem set_var_header_self {fr : Frame} {t : Table} (hheaders : fr.varHeaders = stored t)
    (hnodup : t.keys.Nodup) {k v : CStr} (hk : k.length ≠ 0) (hfind : t.find k = some v)
    (hlen : v.length ≤ fr.varsSize) (hsize : fr.varsSize < 65536) :
    fr.setVarHeader k (some v) = some (.ok, fr) := by
  have hmem := HashTable.mem_keys_of_mem (HashTable.mem_of_find hfind)
  have hsame : fr.varsSize - v.length + v.length = fr.varsSize := Nat.sub_add_cancel hlen
  rw [set_var_header_update hheaders hk hfind hlen hsize (by omega), hsame, ← put_of_mem v hmem,
    put_self hnodup hfind, ← hheaders]

/-- The subscribers of the first client to `a/b`. -/
structure TwoTags (b : Broker) (c : Client) (s₀ s₁ : Subscriber) : Prop where
  run : Run FromWire Broker.init b
  publisher : b.heap.get 1 = some c
  addr : c.addr = secondAddr
  found : treeFindSubscribers b.store (.ofString "a/b") = some (some [s₀, s₁])
  clients : s₀.client = 0 ∧ s₁.client = 0
  connected : b.clients.find s₁.clientId = some s₁.client
  tags : s₀.subTag = .ofString "bb" ∧ s₁.subTag = .ofString "c"
  topics : s₀.getTopic = .ofString "a/b" ∧ s₁.getTopic = .ofString "a/b"

theorem two_tags : ∃ b c s₀ s₁, TwoTags b c s₀ s₁ := by
  have hreq : ∀ tag ∈ ["bb", "c"], Received (subRequest 0 "a/b" tag) := by
    intro tag htag
    simp only [List.mem_cons, List.not_mem_nil, or_false] at htag
    rcases htag with rfl | rfl
    · exact (@sub_request_received 0 "a/b" "bb" (by decide) (by decide) (by decide +kernel)).1
    · exact (@sub_request_received 0 "a/b" "c" (by decide) (by decide) (by decide +kernel)).1
  have hrun : ∀ {b₁ b₂ b₃ b₄}, step Broker.init (.accept [firstId] firstAddr) = some b₁ →
      step b₁ (.accept [firstId, secondId] secondAddr) = some b₂ →
      step b₂ (.request calm 0 (subRequest 0 "a/b" "bb")) = some b₃ →
      step b₃ (.request calm 0 (subRequest 0 "a/b" "c")) = some b₄ →
      Run FromWire Broker.init b₄ := by
    intro b₁ b₂ b₃ b₄ h₁ h₂ h₃ h₄
    have haccept : ∀ {b draws addr}, FromWire b (.accept draws addr) := trivial
    have hsub : ∀ {b tag}, tag ∈ ["bb", "c"] →
        FromWire b (.request calm 0 (subRequest 0 "a/b" tag)) := fun htag => hreq _ htag
    exact Run.step (Run.step (Run.step (Run.step Run.refl haccept h₁) haccept h₂)
      (hsub (by simp)) h₃) (hsub (by simp)) h₄
  exact ⟨_, _, _, _, hrun rfl rfl rfl rfl, rfl, rfl, rfl, ⟨rfl, rfl⟩, rfl, ⟨rfl, rfl⟩, ⟨rfl, rfl⟩⟩

/-- A message of the second client to `a/b`. -/
def paddedPub (tagged : Bool) : Frame := request opPub 0 (padded tagged)

section Padded

variable {b : Broker} {c : Client} {s₀ s₁ : Subscriber} (tagged : Bool)

theorem padded_find : (padded tagged).find xTime = some newYear.text ∧
    (padded tagged).find xTopic = some (.ofString "a/b") ∧
    (padded tagged).find xOriginTopic = some (.ofString "a/b") ∧
    (padded tagged).find xFrom = some secondAddr.text := by
  have hmem : ∀ {k v}, (k, v) ∈ padded tagged → (padded tagged).find k = some v :=
    fun h => (HashTable.find_eq_some_iff (padded_wellFormed tagged).nodup).mpr h
  exact ⟨hmem (by simp [padded, paddedWith]), hmem (by simp [padded, paddedWith]), hmem (by simp [padded, paddedWith]),
    hmem (by simp [padded, paddedWith])⟩

theorem padded_received : Received (paddedPub tagged) :=
  received_request (by decide) (padded_wellFormed tagged)
    (by rw [encSize_padded]; split_ifs <;> decide) (padded_find tagged).1

theorem padded_timed : put (padded tagged) xTime newYear.text = padded tagged :=
  put_self (padded_wellFormed tagged).nodup (padded_find tagged).1

theorem padded_msg : Frame.msg calm.msgTime (paddedPub tagged) =
    some (.ok, (messageOf (paddedPub tagged)).withHeaders (padded tagged)) := by
  obtain ⟨hmsg, -⟩ := msg_fits (padded_received tagged) rfl (padded_wellFormed tagged)
    (by rw [encSize_padded]; split_ifs <;> decide) newYear
  rw [padded_timed] at hmsg
  exact hmsg

theorem TwoTags.not_left_out (h : TwoTags b c s₀ s₁) : ∀ s ∈ [s₀, s₁],
    leftOut 1 (paddedPub tagged) s = false := by
  intro s hs
  simp only [List.mem_cons, List.not_mem_nil, or_false] at hs
  rcases hs with rfl | rfl
  · simp [leftOut, h.clients.1]
  · simp [leftOut, h.clients.2]

variable {t : Table} {s : Subscriber}

/-- With a tag set, the message has all headers that a subscriber gets. -/
theorem padded_headers (h : TwoTags b c s₀ s₁) (hs : s ∈ [s₀, s₁])
    (hfind : ∀ k, k ≠ xSubTag → t.find k = (padded tagged).find k) :
    t.find xOriginTopic = some (.ofString "a/b") ∧ t.find xTopic = some s.getTopic ∧
      t.find xFrom = some c.addr.text := by
  obtain ⟨-, htopic, horigin, hfrom⟩ := padded_find tagged
  have hgetTopic : s.getTopic = .ofString "a/b" := by
    simp only [List.mem_cons, List.not_mem_nil, or_false] at hs
    rcases hs with rfl | rfl
    · exact h.topics.1
    · exact h.topics.2
  rw [hfind _ (by decide), hfind _ (by decide), hfind _ (by decide), h.addr, hgetTopic]
  exact ⟨horigin, htopic, hfrom⟩

/-- Setting the tag is all that happens to the headers. -/
theorem addressed_padded (h : TwoTags b c s₀ s₁) (hs : s ∈ [s₀, s₁]) :
    put (put (padded tagged) xSubTag s.subTag) xOriginTopic (.ofString "a/b") =
      put (padded tagged) xSubTag s.subTag ∧
    put (put (padded tagged) xSubTag s.subTag) xTopic s.getTopic =
      put (padded tagged) xSubTag s.subTag ∧
    put (put (padded tagged) xSubTag s.subTag) xFrom c.addr.text =
      put (padded tagged) xSubTag s.subTag := by
  have hnodup := nodup_put (padded_wellFormed tagged).nodup xSubTag s.subTag
  obtain ⟨horigin, htopic, hfrom⟩ := padded_headers tagged h hs fun k hk => by
    rw [find_put (padded_wellFormed tagged).nodup, if_neg fun heq => hk heq.symm]
  exact ⟨put_self hnodup horigin, put_self hnodup htopic, put_self hnodup hfrom⟩

end Padded

/-- A new tag that does not fit is refused, and the next subscriber gets its message. -/
theorem skips_cleanly_refused : ∃ b c s₀ s₁ fr, TwoTags b c s₀ s₁ ∧
    Frame.msg calm.msgTime (paddedPub false) = some (.ok, fr) ∧
    65535 < encSize (put (padded false) xSubTag s₀.subTag) ∧
    SkipsCleanly calm b 1 (paddedPub false) (.ofString "a/b") fr [s₀, s₁] := by
  obtain ⟨b, c, s₀, s₁, h⟩ := two_tags
  have hnew : xSubTag ∉ (padded false).keys :=
    show xSubTag ∉ [xTime, xTopic, xOriginTopic, xFrom, .ofString "pad"] by decide +kernel
  have hsize : ∀ v, encSize (put (padded false) xSubTag v) = 65534 + v.length := by
    intro v
    rw [put_of_not_mem v hnew, encSize_add, encSize_padded, if_neg (by decide),
      show xSubTag.length = 9 by decide]
    omega
  have hfull : 65535 < encSize (put (padded false) xSubTag s₀.subTag) := by
    rw [hsize, h.tags.1]
    decide
  have hfits : Fits (.ofString "a/b") c.addr.text (padded false) s₁ := by
    have htag : encSize (put (padded false) xSubTag s₁.subTag) ≤ 65535 := by
      rw [hsize, h.tags.2]
      decide
    obtain ⟨horigin, htopic, hfrom⟩ := addressed_padded false h (s := s₁) (by simp)
    refine ⟨htag, by rwa [horigin], by rwa [horigin, htopic], ?_⟩
    simp only [addressed, subscriberHeaders, putAll_cons, putAll_nil, horigin, htopic, hfrom]
    exact htag
  have hstored : TagStored (padded false) s₁ := Or.inl (by rw [h.tags.2]; decide)
  refine ⟨b, c, s₀, s₁, _, h, padded_msg false, hfull, skips_cleanly h.run h.publisher
    (padded_received false) ?_ h.found (padded_msg false)
    (Filled.stored (padded_wellFormed false)) ?_⟩
  · show ((stored (padded false)).find xTopic).join = _
    rw [find_stored, (padded_find false).2.1]
    rfl
  · rw [List.filter_eq_self.mpr fun s hs => by rw [h.not_left_out false s hs]; rfl,
      show (paddedPub false).varHeaders = stored (padded false) from rfl, texts_stored,
      show calm.msgTime = newYear from rfl, padded_timed]
    exact .refused (.tag hnew hfull) (.served hfits hfits hstored hstored (.nil _ _))

/-- The delivery frame with a tag, and a size that may be wrong. -/
def damaged (size : Nat) (tag : String) : Frame :=
  { messageOf (paddedPub true) with
    varsSize := size, varHeaders := stored ((padded true).update xSubTag (.ofString tag)) }

section Damaged

variable {b : Broker} {c : Client} {s₀ s₁ : Subscriber}

theorem padded_tag : (padded true).find xSubTag = some (.ofString "a") :=
  (HashTable.find_eq_some_iff (padded_wellFormed true).nodup).mpr (by simp [padded, paddedWith])

theorem padded_tag_mem : xSubTag ∈ (padded true).keys :=
  HashTable.mem_keys_of_mem (HashTable.mem_of_find padded_tag)

theorem encSize_retagged (v : CStr) : encSize ((padded true).update xSubTag v) = 65534 + v.length := by
  have hsize := encSize_update (v := v) (padded_wellFormed true).nodup padded_tag
  rw [encSize_padded, if_pos rfl, show (CStr.ofString "a").length = 1 by decide] at hsize
  omega

/-- The longer tag is skipped, but it stays in the frame with a size that leaves it out. -/
theorem deliver_first (h : TwoTags b c s₀ s₁) :
    deliverTo calm b 1 (.ofString "a/b") s₀
      ((messageOf (paddedPub true)).withHeaders (padded true)) [] =
      some (.maxVarHeaders, damaged 65534 "bb", []) := by
  have hfull : 65535 < encSize (put (padded true) xSubTag (.ofString "bb")) := by
    rw [put_of_mem _ padded_tag_mem, encSize_retagged]
    decide
  have hset := set_var_header_full_update (accounts_withHeaders (messageOf (paddedPub true))
    (by rw [encSize_padded]; decide) (padded_wellFormed true).nodup) (by decide) (by decide)
    padded_tag hfull
  unfold deliverTo
  rw [h.tags.1, hset, encSize_padded]
  rfl

/-- The next subscriber is sent a frame with a wrong size. -/
theorem deliver_second (h : TwoTags b c s₀ s₁) :
    deliverTo calm b 1 (.ofString "a/b") s₁ (damaged 65534 "bb") [] =
      some (.ok, damaged 65533 "c", [(0, damaged 65533 "c")]) := by
  have hnodup : ((padded true).update xSubTag (.ofString "bb")).keys.Nodup := by
    rw [HashTable.keys_update]
    exact (padded_wellFormed true).nodup
  have hfind : ((padded true).update xSubTag (.ofString "bb")).find xSubTag =
      some (.ofString "bb") := by
    rw [HashTable.find_update (padded_wellFormed true).nodup padded_tag_mem, if_pos rfl]
  have htwice : ((padded true).update xSubTag (.ofString "bb")).update xSubTag (.ofString "c") =
      (padded true).update xSubTag (.ofString "c") := by
    have hput := put_put (padded true) xSubTag (.ofString "bb") (.ofString "c")
    rwa [put_of_mem _ padded_tag_mem, put_of_mem _ padded_tag_mem,
      put_of_mem _ (by rw [HashTable.keys_update]; exact padded_tag_mem)] at hput
  have hset : (damaged 65534 "bb").setVarHeader xSubTag (some (.ofString "c")) =
      some (.ok, damaged 65533 "c") := by
    rw [@set_var_header_update (damaged 65534 "bb") _ rfl xSubTag (.ofString "c") _ (by decide) hfind
      (by decide) (by decide) (by decide), htwice]
    rfl
  -- the other headers have their values already
  have hsame : ∀ {k v}, k.length ≠ 0 → v.length ≤ 65533 →
      ((padded true).update xSubTag (.ofString "c")).find k = some v →
      (damaged 65533 "c").setVarHeader k (some v) = some (.ok, damaged 65533 "c") := by
    intro k v hk hv hkv
    exact set_var_header_self rfl (by rw [HashTable.keys_update]; exact (padded_wellFormed true).nodup)
      hk hkv hv (by decide)
  obtain ⟨horigin, htopic, hfrom⟩ := @padded_headers b c s₀ s₁ true
    ((padded true).update xSubTag (.ofString "c")) s₁ h (by simp) fun k hk => by
      rw [HashTable.find_update (padded_wellFormed true).nodup padded_tag_mem,
        if_neg fun heq => hk heq.symm]
  have haddr : c.addr.text.length ≤ 65533 := Nat.le_trans c.addr.length_le (by decide)
  have hsend := @client_send_stored calm 0 [] (damaged 65533 "c") _ rfl rfl
  unfold deliverTo brokerDeliverMsg
  rw [h.tags.2]
  simp only [hset, hsame (by decide) (by decide) horigin,
    hsame (by decide) (by rw [h.topics.2]; decide) htopic, hsame (by decide) haddr hfrom, bind,
    Option.bind_some, ne_eq, not_true_eq_false, if_false, h.connected, if_true, h.publisher]
  rw [h.clients.2, hsend]
  rfl

end Damaged

/-- A tag that does not fit in the place of another one is skipped, but the next message has a wrong
size. -/
theorem skips_cleanly_fails : ∃ b c s₀ s₁ fr out, TwoTags b c s₀ s₁ ∧ Received (paddedPub true) ∧
    Frame.msg calm.msgTime (paddedPub true) = some (.ok, fr) ∧
    publishLoop calm b 1 (paddedPub true) (.ofString "a/b") [s₀, s₁] fr [] = some [(0, out)] ∧
    out.varsSize = 65533 ∧ (toBytes out.varHeaders).map List.length = some 65535 ∧
    ¬ SkipsCleanly calm b 1 (paddedPub true) (.ofString "a/b") fr [s₀, s₁] := by
  obtain ⟨b, c, s₀, s₁, h⟩ := two_tags
  have hkept := h.not_left_out true
  have hloop : publishLoop calm b 1 (paddedPub true) (.ofString "a/b") [s₀, s₁]
      ((messageOf (paddedPub true)).withHeaders (padded true)) [] =
      some [(0, damaged 65533 "c")] := by
    rw [publish_loop_step (hkept s₀ (by simp)) (deliver_first h),
      publish_loop_step (hkept s₁ (by simp)) (deliver_second h)]
    rfl
  have hbytes : toBytes (damaged 65533 "c").varHeaders =
      some (encode ((padded true).update xSubTag (.ofString "c"))) := toBytes_stored _
  have hlength : (encode ((padded true).update xSubTag (.ofString "c"))).length = 65535 := by
    have hsize := encSize_retagged (.ofString "c")
    rw [show (CStr.ofString "c").length = 1 by decide] at hsize
    rw [length_encode (by omega), hsize]
  refine ⟨b, c, s₀, s₁, _, damaged 65533 "c", h, padded_received true, padded_msg true, hloop, rfl,
    by rw [hbytes, Option.map_some, hlength], ?_⟩
  rintro ⟨sent, served, hrun, -, -, hsizes⟩
  obtain rfl := Option.some.inj (hloop.symm.trans hrun)
  obtain ⟨bytes, hbytes', hsize⟩ := hsizes _ (List.mem_singleton.mpr rfl)
  obtain rfl := Option.some.inj (hbytes.symm.trans hbytes')
  rw [hlength] at hsize
  exact absurd hsize (by decide)

end Bpsp
