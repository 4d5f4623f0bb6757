import Bpsp.CLib.HashTable
import Bpsp.CLib.Heap
import Bpsp.Status
import Bpsp.Topic.Token

/-!
# The topic tree

`lib/topic.c` over explicit heaps: tree nodes with their child and parent pointers, and subscriber
objects with a pointer back to the node that holds them. Following a NULL or freed pointer is
undefined behaviour, and the functions then return `none`.

Every `topic__new_node`, `topic__new_hash_node` and `subscriber__new_hash_elt` call of an
insertion may fail; `mem i` says whether the call made for the `i`-th token succeeds.
-/

namespace Bpsp.Topic

open CLib

/-- `bpsp__subscriber`. -/
structure Subscriber where
  id : CStr
  clientId : CStr
  subTag : CStr
  client : Addr
  node : Option Addr
  deriving Inhabited

/-- `subscriber__get_topic`: the part of `_id` after the client id, the tag and one separator. -/
def Subscriber.getTopic (sub : Subscriber) : CStr :=
  sub.id.drop (1 + sub.clientId.length + sub.subTag.length)

/-- `subscriber__get_identifier`: the part of `_id` after the client id. -/
def Subscriber.getIdentifier (sub : Subscriber) : CStr := sub.id.drop sub.clientId.length

/-- `topic__node`. The tables map a subscriber's `_id` to the subscriber and a token to the child
for that token. -/
structure Node where
  subs : HashTable CStr Addr
  slNode : Option Addr
  mlNode : Option Addr
  parent : Option Addr
  nodes : HashTable CStr Addr

/-- `topic__init_node`. -/
def initNode : Node := ⟨[], none, none, none, []⟩

/-- The heaps that the topic functions work on. -/
structure Store where
  tree : Heap Node
  subs : Heap Subscriber

/-- The subscriber object that a live pointer refers to. -/
def Store.sub (st : Store) (p : Addr) : Subscriber := (st.subs.get p).getD default

/-- The address of `tree->root`. -/
def root : Addr := 0

/-- `topic__init_tree`. -/
def initTree : Heap Node := (Heap.empty.alloc initNode).1

/-- `topic__node_num_child_nodes`. -/
def nodeNumChildNodes (node : Node) : Nat :=
  node.nodes.length + (if node.mlNode.isSome then 1 else 0) + (if node.slNode.isSome then 1 else 0)

/-- `topic__node_num_subs`. -/
def nodeNumSubs (node : Node) : Nat := node.subs.length

/-- `topic__node_is_empty`. -/
def nodeIsEmpty (node : Node) : Bool := nodeNumSubs node == 0 && nodeNumChildNodes node == 0

/-- `topic__free_node` with the `topic__dtor_node` it calls. The nesting of nodes is bounded by
their number. -/
def freeNode : Nat → Heap Node → Addr → Exec (Heap Node)
  | 0, _, _ => none
  | fuel + 1, tree, a => do
      let node ← tree.get a
      let tree ← match node.mlNode with
        | none => some tree
        | some b => freeNode fuel tree b
      let tree ← match node.slNode with
        | none => some tree
        | some b => freeNode fuel tree b
      let tree ← node.nodes.foldlM (fun tree e => freeNode fuel tree e.2) tree
      some (tree.free a)

/-- `topic__node_add_sub`. -/
def nodeAddSub (mem : Bool) (st : Store) (nodeAddr p : Addr) : Exec (Status × Store) := do
  let node ← st.tree.get nodeAddr
  let sub ← st.subs.get p
  let st := { st with subs := st.subs.modify p fun s => { s with node := some nodeAddr } }
  if node.subs.find sub.id = some p then some (.treeDupSubscriber, st)
  else if mem then
    some (.ok, { st with
      tree := st.tree.modify nodeAddr fun n => { n with subs := n.subs.add sub.id p } })
  else some (.noMemory, st)

/-- One turn of the loop of `topic__add_subscriber`: the child of `cur` for a token, which is
created when it is missing. The inner `none` is a failed allocation. -/
def descend (mem : Bool) (tree : Heap Node) (cur : Addr) (tok : CStr) :
    Exec (Option (Heap Node × Addr)) := do
  let node ← tree.get cur
  let (tree', new) := tree.alloc initNode
  let tree' := tree'.modify new fun n => { n with parent := some cur }
  if tok = star then
    match node.mlNode with
    | some b => some (some (tree, b))
    | none =>
        if mem then some (some (tree'.modify cur fun n => { n with mlNode := some new }, new))
        else some none
  else if tok = plus then
    match node.slNode with
    | some b => some (some (tree, b))
    | none =>
        if mem then some (some (tree'.modify cur fun n => { n with slNode := some new }, new))
        else some none
  else
    match node.nodes.find tok with
    | some b => some (some (tree, b))
    | none =>
        if mem then
          some (some (tree'.modify cur fun n => { n with nodes := n.nodes.add tok new }, new))
        else some none

/-- The loop of `topic__add_subscriber`. A `*` ends it whatever tokens are left. -/
def addLoop (mem : Nat → Bool) (st : Store) (cur p : Addr) : List CStr → Exec (Status × Store)
  | [] => some (.ok, st)
  | tok :: rest => do
      match ← descend (mem 0) st.tree cur tok with
      | none => some (.noMemory, st)
      | some (tree, child) =>
          let st := { st with tree := tree }
          if tok = star ∨ rest = [] then nodeAddSub (mem 1) st child p
          else addLoop (fun i => mem (i + 1)) st child p rest

/-- `topic__add_subscriber`. -/
def addSubscriber (mem : Nat → Bool) (st : Store) (p : Addr) : Exec (Status × Store) := do
  let sub ← st.subs.get p
  match levels sub.getTopic with
  | none => some (.invalidTopic, st)
  | some toks => addLoop mem st root p toks

/-- The loop of `topic__tree_prune_node`, over the tokens from the last to the first: as long as
`cur` is empty it is cut off from its parent and freed. -/
def pruneLoop (tree : Heap Node) (cur : Addr) : List CStr → Exec (Heap Node)
  | [] => some tree
  | tok :: rest => do
      let node ← tree.get cur
      if nodeIsEmpty node then
        let parent ← node.parent
        let parentNode ← tree.get parent
        let tree' :=
          if tok = star then tree.modify parent fun n => { n with mlNode := none }
          else if tok = plus then tree.modify parent fun n => { n with slNode := none }
          else if (parentNode.nodes.find tok).isSome then
            tree.modify parent fun n => { n with nodes := n.nodes.del tok }
          else tree
        let tree' ← freeNode tree.next tree' cur
        pruneLoop tree' parent rest
      else some tree

/-- `topic__tree_prune_node`. -/
def treePruneNode (tree : Heap Node) (leaf : Addr) (tokens : List CStr) : Exec (Heap Node) :=
  pruneLoop tree leaf tokens.reverse

/-- `topic__del_subscriber`. When the topic is not accepted the token pointer stays unset, so
nothing after that is defined. -/
def delSubscriber (st : Store) (p : Addr) : Exec (Status × Store) := do
  let sub ← st.subs.get p
  match sub.node with
  | none => some (.ok, st)
  | some nodeAddr =>
      let tokens ← levels sub.getTopic
      let node ← st.tree.get nodeAddr
      match node.subs.find sub.id with
      | none => some (.ok, st)
      | some _ =>
          let tree := st.tree.modify nodeAddr fun n => { n with subs := n.subs.del sub.id }
          let subs := st.subs.modify p fun s => { s with node := none }
          let tree ← treePruneNode tree nodeAddr tokens
          some (.ok, ⟨tree, subs⟩)

/-- `hash__subscriber_copy_to_array`: copies of the subscribers of a table, in its order. -/
def copyToArray (st : Store) (subs : HashTable CStr Addr) : Exec (List Subscriber) :=
  subs.mapM fun e => st.subs.get e.2

/-- `utarray_concat` of what a child contributes, when the link to it is set. -/
def concatChild (child : Option Addr) (acc : List Subscriber)
    (found : Addr → Exec (List Subscriber)) : Exec (List Subscriber) :=
  match child with
  | none => some acc
  | some a => (found a).map fun subs => acc ++ subs

/-- The loop of `topic__node_find_subscribers` for the tokens that are left. -/
def findLoop (st : Store) : Addr → List Subscriber → List CStr → Exec (List Subscriber)
  | cur, acc, [] => do
      let node ← st.tree.get cur
      let found ← copyToArray st node.subs
      some (acc ++ found)
  | cur, acc, tok :: rest => do
      let node ← st.tree.get cur
      -- the multi-level node first
      let acc ← concatChild node.mlNode acc fun ml => do
        let mlNode ← st.tree.get ml
        copyToArray st mlNode.subs
      -- the recursive call starts with an empty array
      let acc ← concatChild node.slNode acc fun sl => findLoop st sl [] rest
      match node.nodes.find tok with
      | none => some acc
      | some next => findLoop st next acc rest

/-- `topic__node_find_subscribers`. With no token left, the early return and the code after the
loop both copy the node's own subscribers. -/
def nodeFindSubscribers (st : Store) (node : Addr) (toks : List CStr) : Exec (List Subscriber) :=
  findLoop st node [] toks

/-- `topic__tree_find_subscribers`: the inner `none` is a NULL array, for a topic that is not
accepted. -/
def treeFindSubscribers (st : Store) (topic : CStr) : Exec (Option (List Subscriber)) :=
  match levels topic with
  | none => some none
  | some toks => (nodeFindSubscribers st root toks).map some

end Bpsp.Topic
