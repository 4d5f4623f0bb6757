import Bpsp.Server.Consistency

/-!
# Unsubscribing after subscribing

An UNSUB request with the topic and the tag of a SUB request takes the subscription back: the
client's table and the tree are then as they were, with every node at its old address. This is so
when the two requests name a tag. Without one the subscription gets the tag `_0`, but
`client__unsub0` does not know of it (`unsub_undoes_sub`).
-/

namespace Bpsp

open CLib Topic

/-- Two nodes have the same subscribers and the same pointers. -/
structure SameNode (node node' : Node) : Prop where
  subs : node.subs = node'.subs
  parent : node.parent = node'.parent
  mlNode : node.mlNode = node'.mlNode
  slNode : node.slNode = node'.slNode
  nodes : ∀ tok, node.nodes.find tok = node'.nodes.find tok

/-- The clients with their tables and the tree are the same. -/
structure Restored (b b' : Broker) : Prop where
  clients : b'.clients = b.clients
  tables : ∀ a, b'.heap.get a = b.heap.get a
  tree : ∀ x, Option.Rel SameNode (b'.store.tree.get x) (b.store.tree.get x)

section

variable {b b' : Broker} {R : List Registration} {a : Addr} {c : Client}

/-- Trees of one registry whose nodes have the same addresses are the same. -/
theorem same_nodes {st st' : Store} (h : Represents st R) (h' : Represents st' R)
    (hnodes : nodeAt st'.tree = nodeAt st.tree) (x : Addr) :
    Option.Rel SameNode (st'.tree.get x) (st.tree.get x) := by
  have hnode : ∀ {q node node'}, nodeAt st.tree q = some x → st.tree.get x = some node →
      st'.tree.get x = some node' → SameNode node' node := by
    intro q node node' hq hget hget'
    have hq' : nodeAt st'.tree q = some x := hnodes ▸ hq
    obtain ⟨n, hn, hchild, hparent⟩ := h.tree.shape.node hq
    obtain ⟨n', hn', hchild', hparent'⟩ := h'.tree.shape.node hq'
    obtain rfl : n = node := Option.some.inj (hn.symm.trans hget)
    obtain rfl : n' = node' := Option.some.inj (hn'.symm.trans hget')
    rw [hnodes] at hchild' hparent'
    have hlink : ∀ l, links.child n' l = links.child n l := fun l => (hchild' l).trans (hchild l).symm
    exact ⟨(h'.tree.subs hq' hget').trans (h.tree.subs hq hget).symm,
      hparent'.trans hparent.symm, hlink .multi, hlink .single, fun tok => hlink (.exact tok)⟩
  cases hget : st.tree.get x with
  | none =>
      cases hget' : st'.tree.get x with
      | none => exact Option.Rel.none
      | some node' =>
          obtain ⟨q, hq⟩ := h'.tree.shape.reach hget'
          obtain ⟨n, hn, -⟩ := h.tree.shape.node (hnodes ▸ hq)
          exact absurd (hget.symm.trans hn) (by simp)
  | some node =>
      obtain ⟨q, hq⟩ := h.tree.shape.reach hget
      obtain ⟨node', hget', -⟩ := h'.tree.shape.node (hnodes.symm ▸ hq)
      rw [hget']
      exact Option.Rel.some (hnode hq hget hget')

/-- Adding and removing a subscriber moves no node and leaves none behind. -/
theorem nodes_restored {st st₁ st₂ : Store} (h : Represents st R) (h₂ : Represents st₂ R)
    (hadd : ∀ {q x}, nodeAt st.tree q = some x → nodeAt st₁.tree q = some x)
    (hdel : ∀ {q x}, nodeAt st₂.tree q = some x → nodeAt st₁.tree q = some x) :
    nodeAt st₂.tree = nodeAt st.tree := by
  funext q
  have hsome : (nodeAt st₂.tree q).isSome ↔ (nodeAt st.tree q).isSome := by
    rw [h.paths, h₂.paths]
  cases hq : nodeAt st.tree q with
  | none =>
      rw [hq] at hsome
      simpa using hsome
  | some x =>
      obtain ⟨x', hx'⟩ := Option.isSome_iff_exists.mp (hsome.mpr (by rw [hq]; rfl))
      rw [hx', ← hdel hx', hadd hq]

/-- A new subscription followed by the removal of its identifier. -/
theorem sub0_unsub0 (h : Inv b R) (hc : b.heap.get a = some c) {topic tag : CStr}
    {subTag : Option CStr} (htag : subTag.getD defaultTag = tag)
    (hfind : c.subs.find (subscriberMakeIdentifier topic tag) = none) {toks : List CStr}
    (hlevels : levels topic = some toks) :
    ∃ b₁ b₂, clientSub0 (b.allocSub (subscriberNew topic subTag a c)).1 a b.store.subs.next =
        some (.ok, b₁) ∧ ¬ InTree b b.store.subs.next ∧ InTree b₁ b.store.subs.next ∧
      Holds b₁ a (subscriberMakeIdentifier topic tag) b.store.subs.next ∧
      (∃ R₁, Inv b₁ R₁) ∧ clientUnsub0 b₁ a topic (some tag) = some (.ok, b₂) ∧ Restored b b₂ := by
  subst htag
  obtain ⟨b₁, hsub, hheap, hclients, h₁, -, hnodes⟩ := sub0_ok h hc hfind hlevels
  have hfresh : b.store.subs.next ∉ R.map (·.sub) := by
    intro hmem
    obtain ⟨e, he, heq⟩ := List.mem_map.mp hmem
    exact Heap.ne_next_of_get (h.topic.get_sub he) heq
  have hc₁ : b₁.heap.get a = some { c with
      subs := c.subs.add (subscriberMakeIdentifier topic (subTag.getD defaultTag))
        b.store.subs.next } := by
    rw [hheap, get_add_entry hc, if_pos rfl]
  have hR : ((R ++ [(⟨b.store.subs.next, (subscriberNew topic subTag a c).id,
      toks.map levelOf⟩ : Registration)]).filter fun e => e.sub ≠ b.store.subs.next) = R := by
    rw [List.filter_append, List.filter_cons_of_neg (by simp), List.filter_nil, List.append_nil]
    refine List.filter_eq_self.mpr fun e he => ?_
    simpa using fun heq : e.sub = b.store.subs.next => hfresh (heq ▸ List.mem_map_of_mem he)
  obtain ⟨hnone, -⟩ | ⟨tag, htag, hnone, -⟩ | ⟨tag, p, b₂, htag, hp, hunsub, hcl₂, hheap₂, h₂, -,
    hback⟩ := unsub0_spec h₁ hc₁ topic (some (subTag.getD defaultTag))
  · cases hnone
  · rw [← Option.some.inj htag] at hnone
    simp at hnone
  · rw [← Option.some.inj htag] at hp hheap₂
    obtain rfl : b.store.subs.next = p := by simpa using hp
    rw [hR] at h₂
    refine ⟨b₁, b₂, hsub, fun hin => hfresh ((in_tree_iff h).mp hin),
      (in_tree_iff h₁).mpr (by simp), ⟨_, hc₁, List.mem_append_right _ (List.mem_singleton.mpr rfl)⟩,
      ⟨_, h₁⟩, hunsub, hcl₂.trans hclients, fun x => ?_, ?_⟩
    · rw [hheap₂, get_del_entry hc₁, HashTable.del_add, hheap, get_add_entry hc]
      split_ifs with hxa
      · rw [hxa, hc]
      · rfl
    · exact same_nodes h.topic h₂.topic (nodes_restored h.topic h₂.topic hnodes hback)

end

/-- Handling a request is defined: its headers have values, or no reply is asked for. -/
def Answerable (req : Frame) : Prop :=
  Frame.Received req ∧ (Frame.flagIsSet req.flag Frame.flAck = false ∨ Frame.Filled req.varHeaders)

theorem answerable_reply {req : Frame} (h : Answerable req) (env : Env) (a : Addr) (sent : Sent)
    (s : Status) (msg : CStr) : ∃ r, handleReply env a req s msg sent = some r := by
  obtain ⟨hreq, hack | hfilled⟩ := h
  · exact ⟨_, reply_no_ack hack s msg⟩
  · exact reply_defined hreq hfilled s msg

/-- An UNSUB request with a tag. -/
def unsubRequest (flag : Byte) (topic tag : String) : Frame :=
  Frame.request Frame.opUnsub flag [(Frame.xTopic, .ofString topic), (Frame.xSubTag, .ofString tag),
    (Frame.xTime, Frame.newYear.text)]

/-- A request without a tag. -/
def untagged (opcode flag : Byte) (topic : String) : Frame :=
  Frame.request opcode flag [(Frame.xTopic, .ofString topic), (Frame.xTime, Frame.newYear.text)]

end Bpsp
