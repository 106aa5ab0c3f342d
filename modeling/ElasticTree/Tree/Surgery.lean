import ElasticTree.Tree.Basic

/-!
# Linking and unlinking nodes

These are the changes that a tree is made of, whatever its keys are.  Each of
them touches a fixed number of records.  A link and the position recorded at
its end are two sides of one edge: `setChild` writes the slot, `setPosition`
writes the record that hangs from it, and every change below keeps the two in
agreement.

## Unlinking

A node that is chained behind another leaves the ring and nothing else changes.
The head of a ring is replaced by the next member.  A leaf that stands alone
goes together with the branch above it, whose other side moves up into its
place.

In the last two cases the node that left may have lent its own branch to the
tree, and that branch has to move to another node.  There is always one at hand:
the ring member that took the leaf over, or the owner of the branch that went
away.  Both have their leaf below the branch in question, so their key stands
for the keys below it as well as the old one did.
-/

namespace ElasticTree

namespace Tree

variable {K V : Type}

/-! ## Writing single records -/

/-- Changes the record called `id`. -/
def updateNode (tree : Tree K V) (id : NodeId) (change : Node K V → Node K V) :
    Except Fault (Tree K V) := do
  return { tree with nodes := ← tree.nodes.update id change }

/-- Changes the branch of the node called `id`, which has to be in use. -/
def updateBranch (tree : Tree K V) (id : NodeId) (change : Branch → Branch) :
    Except Fault (Tree K V) := do
  let branch ← tree.branch id
  tree.updateNode id fun node => { node with branch := some (change branch) }

/-- Records where the leaf of `id` is. -/
def setPlacement (tree : Tree K V) (id : NodeId) (placement : Placement) :
    Except Fault (Tree K V) :=
  tree.updateNode id fun node => { node with placement := placement }

/-- Puts a branch into use at the node called `id`, or out of use. -/
def setBranch (tree : Tree K V) (id : NodeId) (branch : Option Branch) :
    Except Fault (Tree K V) :=
  tree.updateNode id fun node => { node with branch := branch }

/-- Makes the slot at `position` refer to `link`. -/
def setChild (tree : Tree K V) (position : Position) (link : Link) : Except Fault (Tree K V) :=
  match position with
  | .root => .ok { tree with root := some link }
  | .under owner side => tree.updateBranch owner (·.setChild side link)

/-- Records `position` at the role that `link` addresses. -/
def setPosition (tree : Tree K V) (link : Link) (position : Position) :
    Except Fault (Tree K V) :=
  match link with
  | .leaf id => tree.setPlacement id (.placed position)
  | .branch id => tree.updateBranch id ({ · with position := position })

/-- Changes the rings among the nodes. -/
def withRings (tree : Tree K V)
    (change : Arena (Node K V) → Except Fault (Arena (Node K V))) : Except Fault (Tree K V) := do
  return { tree with nodes := ← change tree.nodes }

/-- Counts one more linked node. -/
def countUp (tree : Tree K V) : Tree K V := { tree with linked := tree.linked + 1 }

/-- Counts one linked node less. -/
def countDown (tree : Tree K V) : Except Fault (Tree K V) :=
  if tree.linked = 0 then .error .countUnderflow
  else .ok { tree with linked := tree.linked - 1 }

/-! ## Linking -/

/-- Links `id` as the only node of an empty tree. -/
def linkFirst (tree : Tree K V) (id : NodeId) : Except Fault (Tree K V) := do
  if tree.root.isSome then throw .rootInUse
  let tree ← tree.updateNode id fun node =>
    { node with placement := .placed .root, branch := none }
  let tree ← tree.withRings (Ring.isolate · id)
  return { tree with root := some (.leaf id) }.countUp

/-- Links `id` at the end of the ring of `head`, which holds an equal key. -/
def chainBehind (tree : Tree K V) (head id : NodeId) : Except Fault (Tree K V) := do
  let tree ← tree.updateNode id fun node => { node with placement := .chained, branch := none }
  let tree ← tree.withRings (Ring.append · head id)
  return tree.countUp

/-- The split value itself, if it fits in 32 bits with a sign. -/
def checkSplit (split : Int) : Except Fault Int :=
  if -2147483648 ≤ split ∧ split ≤ 2147483647 then .ok split else .error .splitOverflow

/-- Links `id` between the slot at `position` and what hangs there now.  The
branch of `id` becomes the new split, with the leaf of `id` on one side of it
and `old` on the other. -/
def insertAbove (tree : Tree K V) (id : NodeId) (position : Position) (old : Link) (side : Side)
    (split : Int) : Except Fault (Tree K V) := do
  let split ← checkSplit split
  let branch := Branch.setChild ⟨position, old, old, split⟩ side (.leaf id)
  let tree ← tree.updateNode id fun node =>
    { node with placement := .placed (.under id side), branch := some branch }
  let tree ← tree.withRings (Ring.isolate · id)
  let tree ← tree.setChild position (.branch id)
  let tree ← tree.setPosition old (.under id side.opposite)
  return tree.countUp

/-! ## Unlinking -/

/-- Puts `branch` into use at the node called `id`, and redirects the slot above
it and both roles below. -/
def relocate (tree : Tree K V) (branch : Branch) (id : NodeId) : Except Fault (Tree K V) := do
  if (← tree.node id).branch.isSome then throw (.branchInUse id)
  let tree ← tree.setBranch id (some branch)
  let tree ← tree.setChild branch.position (.branch id)
  let tree ← tree.setPosition branch.left (.under id .left)
  tree.setPosition branch.right (.under id .right)

/-- Hands the leaf position of `id` to the next member of its ring, and answers
that member. -/
def promoteNext (tree : Tree K V) (id : NodeId) (position : Position) :
    Except Fault (NodeId × Tree K V) := do
  let heir := (← tree.node id).ring.next
  let tree ← tree.withRings (Ring.remove · id)
  let tree ← tree.setPlacement heir (.placed position)
  let tree ← tree.setChild position (.leaf heir)
  return (heir, tree)

/-- Moves the subtree opposite to `side` under the branch of `owner` up into the
place of that branch, which goes out of use. -/
def liftSibling (tree : Tree K V) (owner : NodeId) (side : Side) : Except Fault (Tree K V) := do
  let branch ← tree.branch owner
  let sibling := branch.child side.opposite
  let tree ← tree.setPosition sibling branch.position
  let tree ← tree.setChild branch.position sibling
  tree.setBranch owner none

/-- Detaches `id`, whose place in the tree is filled already, and hands a branch
it still lends to the tree over to `spare`. -/
def withdraw (tree : Tree K V) (id spare : NodeId) : Except Fault (Tree K V) := do
  let tree ← tree.setPlacement id .detached
  let tree ← match (← tree.node id).branch with
    | none => pure tree
    | some branch => do (← tree.setBranch id none).relocate branch spare
  tree.countDown

/-- Unlinks the linked node called `id`, and tells whether nodes remain. -/
def unlinkNode (tree : Tree K V) (id : NodeId) : Placement → Except Fault (Bool × Tree K V)
  | .detached => .error (.unplaced id)
  | .chained => do
      let tree ← tree.withRings (Ring.remove · id)
      let tree ← tree.setPlacement id .detached
      return (true, ← tree.countDown)
  | .placed position => do
      if ← Ring.isAlone tree.nodes id then
        match position with
        | .root =>
            if (← tree.node id).branch.isSome then throw (.branchInUse id)
            let tree ← { tree with root := none }.setPlacement id .detached
            return (false, ← tree.countDown)
        | .under owner side =>
            let tree ← tree.liftSibling owner side
            return (true, ← tree.withdraw id owner)
      else
        let (heir, tree) ← tree.promoteNext id position
        return (true, ← tree.withdraw id heir)

/-- Unlinks a node, which keeps its key and its value and can be linked again.
The answer tells whether the tree still holds other nodes. -/
def unlink (tree : Tree K V) (id : NodeId) : Except Fault (Except Refusal Bool × Tree K V) :=
  match tree.expectLinked id with
  | .error refusal => .ok (.error refusal, tree)
  | .ok node => do
      let (remaining, tree) ← tree.unlinkNode id node.placement
      return (.ok remaining, tree)

/-- Unlinks a node and releases it. -/
def remove (tree : Tree K V) (id : NodeId) :
    Except Fault (Except Refusal (K × V) × Tree K V) := do
  match ← tree.unlink id with
  | (.error refusal, tree) => return (.error refusal, tree)
  | (.ok _, tree) => return tree.free id

/-- Detaches every node.  All identities stay alive. -/
def clear (tree : Tree K V) : Tree K V :=
  { tree with
    nodes := tree.nodes.map fun id node => node.detach id
    root := none
    linked := 0 }

end Tree

end ElasticTree
