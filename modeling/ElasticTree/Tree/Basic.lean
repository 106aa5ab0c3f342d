import ElasticTree.Node
import ElasticTree.Refusal

/-!
# Elastic binary trees

A tree is an ordered index in which every key costs exactly one node.  There are
no nodes besides those of the keys: where two subtrees have to part, the node of
one of the keys below lends its branch.  The shape follows from the bits of the
keys, so nothing is ever rebalanced.

The tree owns the storage of its nodes and leaves their lifetime to the caller.
A node is made detached, linked under its key, detached again and finally
released, and it keeps its identity from the first to the last.

## Results

Questions answer `Except Fault α`, or `Except Fault (Except Refusal α)` where
the caller may ask in vain.  Changes answer the changed tree as well, and they
answer it whether or not they were refused.
-/

namespace ElasticTree

/-- The nodes of a tree, and the slot that the linked ones hang from. -/
structure Tree (K V : Type) where
  nodes : Arena (Node K V)
  root : Option Link
  /-- Whether a key that is already present is turned away. -/
  unique : Bool
  /-- The number of linked nodes, duplicates included. -/
  linked : Nat
  deriving DecidableEq, Repr

namespace Tree

variable {K V : Type}

/-- A tree without nodes. -/
def empty (unique : Bool) : Tree K V := ⟨.empty, none, unique, 0⟩

/-! ## Nodes by identity -/

/-- The number of linked nodes, duplicates included. -/
def size (tree : Tree K V) : Nat := tree.linked

/-- Whether nothing hangs from the root. -/
def isEmpty (tree : Tree K V) : Bool := tree.root.isNone

/-- The number of nodes that exist, linked or not. -/
def nodeCount (tree : Tree K V) : Nat := tree.nodes.size

/-- The key of the node called `id`. -/
def key? (tree : Tree K V) (id : NodeId) : Option K := (tree.nodes.get? id).map (·.key)

/-- The value of the node called `id`. -/
def value? (tree : Tree K V) (id : NodeId) : Option V := (tree.nodes.get? id).map (·.value)

/-- Whether `id` names a node that is linked. -/
def isLinked (tree : Tree K V) (id : NodeId) : Bool :=
  ((tree.nodes.get? id).map Node.isLinked).getD false

/-- Replaces the value of the node called `id`, if there is one. -/
def setValue (tree : Tree K V) (id : NodeId) (value : V) : Tree K V :=
  { tree with nodes := tree.nodes.modify id fun node => { node with value := value } }

/-- Makes a detached node. -/
def alloc (tree : Tree K V) (key : K) (value : V) : NodeId × Tree K V :=
  let (id, nodes) := tree.nodes.add (Node.fresh key value)
  (id, { tree with nodes := nodes })

/-! ## Refusing -/

/-- The node called `id`, which has to be linked. -/
def expectLinked (tree : Tree K V) (id : NodeId) : Except Refusal (Node K V) :=
  match tree.nodes.get? id with
  | none => .error (.unknownNode id)
  | some node => if node.isLinked then .ok node else .error (.notLinked id)

/-- The node called `id`, which must not be linked. -/
def expectDetached (tree : Tree K V) (id : NodeId) : Except Refusal (Node K V) :=
  match tree.nodes.get? id with
  | none => .error (.unknownNode id)
  | some node => if node.isLinked then .error (.alreadyLinked id) else .ok node

/-- Releases a detached node and hands back what it held. -/
def free (tree : Tree K V) (id : NodeId) : Except Refusal (K × V) × Tree K V :=
  match tree.expectDetached id with
  | .error refusal => (.error refusal, tree)
  | .ok node => (.ok (node.key, node.value), { tree with nodes := (tree.nodes.remove id).2 })

/-! ## Following links -/

/-- The node called `id`, which is meant to be live. -/
def node (tree : Tree K V) (id : NodeId) : Except Fault (Node K V) := tree.nodes.fetch id

/-- The branch of the node called `id`, which is meant to be in use. -/
def branch (tree : Tree K V) (id : NodeId) : Except Fault Branch := do
  match (← tree.node id).branch with
  | some branch => return branch
  | none => throw (.inertBranch id)

/-- How many records a walk may pass before it must have met one of them twice.
A slot holds at most one live record, so any walk that passes more records than
there are slots goes round in a circle. -/
def walkLimit (tree : Tree K V) : Nat := tree.nodes.slotCount + 1

end Tree

end ElasticTree
