import ElasticTree.Corruption
import ElasticTree.Tree.Walk

/-!
# Inspecting a tree

`inspectStructure` checks everything that does not depend on the keys.  A first
pass follows the links from the root and checks that each role records the slot
it was reached from; it counts the leaves and branches reached and the members
chained behind leaves.  A second pass goes over all nodes by slot and counts the
roles they record for themselves.  The numbers must agree, so no node records a
role in which it was not reached.

The first pass never faults: it looks a node up before it relies on it, and it
gives up once it has followed more links than a sound tree has.  The second pass
climbs from a leaf to see whether the branch of its node lies above it, and it
trusts the positions it follows on the way.

`inspectOrder` steps through the tree forward, and checks that neighbours are in
order and that stepping back retraces the way.  What the order is, the caller
says.
-/

namespace ElasticTree

/-- A check that ends well, with a finding, or with a fault. -/
abbrev Inspection (α : Type) := ExceptT Corruption (Except Fault) α

namespace Inspection

variable {α : Type}

/-- Ends with a finding. -/
def report (corruption : Corruption) : Inspection α := throw corruption

/-- Ends with a finding unless `condition` holds. -/
def expect (condition : Prop) [Decidable condition] (corruption : Corruption) :
    Inspection Unit :=
  if condition then pure () else report corruption

/-- A check that cannot fault. -/
def ofSafe (check : Except Corruption α) : Inspection α := ExceptT.mk (pure check)

/-- Ends with the finding, if there is one. -/
def reportAny : Option Corruption → Inspection Unit
  | none => pure ()
  | some corruption => report corruption

end Inspection

open Inspection

namespace Tally

/-- Nothing counted. -/
def zero : Tally := ⟨0, 0, 0⟩

end Tally

namespace Tree

variable {K V : Type}

/-! ## The first pass -/

/-- Follows the ring of `head` on from one of its members and answers the number
of members behind that one.  At most `room` of them are accepted. -/
def inspectRingFrom (tree : Tree K V) (head : NodeId) :
    Nat → NodeId → NodeId → Except Corruption Nat
  | room, member, next =>
      match tree.nodes.get? next with
      | none => .error (.ringFreed head)
      | some node =>
          if node.ring.prev ≠ member then .error (.ringBroken head member)
          else if next = head then .ok 0
          else if node.placement ≠ .chained then .error (.ringStranger next head)
          else match room with
            | 0 => .error (.ringOpen head)
            | room + 1 => do
                return (← tree.inspectRingFrom head room next node.ring.next) + 1

/-- Checks the leaf of `node`, which was reached at `position`, and its ring.
The answer is the number of members behind the leaf. -/
def inspectLeaf (tree : Tree K V) (id : NodeId) (node : Node K V) (position : Position) :
    Except Corruption Nat :=
  if node.placement ≠ .placed position then
    .error (.leafElsewhere id position node.placement)
  else tree.inspectRingFrom id tree.linked id node.ring.next

/-- Checks the branch of `node`, which was reached at `position`. -/
def inspectBranch (id : NodeId) (node : Node K V) (position : Position) :
    Except Corruption Branch :=
  match node.branch with
  | none => .error (.inertBranch (.branch id))
  | some branch =>
      if branch.position ≠ position then
        .error (.branchElsewhere id position branch.position)
      else if branch.left = branch.right then .error (.twinChildren id)
      else .ok branch

/-- Follows the links that are waiting, the one on top first, and counts the
roles reached.  At most `room` links are followed. -/
def inspectLinks (tree : Tree K V) :
    Nat → List (Link × Position) → Tally → Except Corruption Tally
  | _, [], tally => .ok tally
  | 0, (link, _) :: _, _ => .error (.cycle link)
  | room + 1, (link, position) :: waiting, tally =>
      match tree.nodes.get? link.node with
      | none => .error (.freedNode link)
      | some node =>
          match link with
          | .leaf id => do
              let behind ← tree.inspectLeaf id node position
              tree.inspectLinks room waiting
                { tally with leaves := tally.leaves + 1, chained := tally.chained + behind }
          | .branch id => do
              let branch ← inspectBranch id node position
              tree.inspectLinks room
                ((branch.right, .under id .right) :: (branch.left, .under id .left) :: waiting)
                { tally with branches := tally.branches + 1 }

/-- Follows all links from the root and counts the roles reached. -/
def inspectReached (tree : Tree K V) : Except Corruption Tally := do
  let waiting := match tree.root with
    | none => []
    | some link => [(link, Position.root)]
  let reached ← tree.inspectLinks (2 * tree.nodes.size + 1) waiting .zero
  if 0 < reached.leaves ∧ reached.branches ≠ reached.leaves - 1 then
    throw (.branchCount reached.branches reached.leaves)
  if reached.leaves + reached.chained ≠ tree.linked then
    throw (.linkedCount (reached.leaves + reached.chained) tree.linked)
  return reached

/-! ## The second pass -/

/-- Whether a branch of `id` lies on the way from `position` to the root. -/
def hasAbove (tree : Tree K V) (id : NodeId) (position : Position) : Except Fault Bool := do
  let found ← tree.firstAbove? (fun owner _ _ => .ok (if owner = id then some () else none))
    position
  return found.isSome

/-- Checks that the roles one node records go together, and counts them. -/
def inspectRecorded (tree : Tree K V) (recorded : Tally) (entry : NodeId × Node K V) :
    Inspection Tally := do
  let (id, node) := entry
  match node.placement with
  | .detached =>
      expect (node.branch = none ∧ node.ring = .alone id) (.detachedWithLinks id)
      return recorded
  | .chained =>
      expect (node.branch = none) (.chainedWithBranch id)
      return { recorded with chained := recorded.chained + 1 }
  | .placed position =>
      let recorded := { recorded with leaves := recorded.leaves + 1 }
      if node.branch = none then return recorded
      expect (← tree.hasAbove id position) (.branchNotAbove id)
      return { recorded with branches := recorded.branches + 1 }

/-- Checks everything about the tree that does not depend on its keys. -/
def inspectStructure (tree : Tree K V) : Inspection Unit := do
  let reached ← ofSafe tree.inspectReached
  let recorded ← tree.nodes.entries.foldlM tree.inspectRecorded .zero
  expect (recorded = reached) (.roleCounts recorded reached)

/-! ## Order -/

/-- Steps forward from `current`, to which the last step led from `previous`,
and answers how many nodes were visited and at which the walk ended.  At most
`room` nodes are accepted. -/
def inspectForward (tree : Tree K V) (inOrder : K → K → Bool) :
    Nat → Nat → Option NodeId → Option NodeId → Inspection (Nat × Option NodeId)
  | _, visited, previous, none => return (visited, previous)
  | 0, _, _, some _ => report .forwardEndless
  | room + 1, visited, previous, some id => do
      if let some before := previous then
        let smaller ← tree.node before
        let larger ← tree.node id
        expect (inOrder smaller.key larger.key) (.outOfOrder before id)
      expect ((← tree.stepPrev id) = previous) (.backwardAstray id previous)
      tree.inspectForward inOrder room (visited + 1) (some id) (← tree.stepNext id)

/-- Checks that stepping forward visits every linked node once in an order that
`inOrder` accepts, and that stepping back retraces it. -/
def inspectOrder (tree : Tree K V) (inOrder : K → K → Bool) : Inspection Unit := do
  let start ← tree.first
  let (visited, final) ← tree.inspectForward inOrder tree.linked 0 none start
  if visited ≠ tree.linked then
    report (.forwardShort visited tree.linked final)
  expect (final = (← tree.last)) (.forwardShort visited tree.linked final)

/-- Checks that the branches directly below the branch of `id` continue its
split, as `deeper` defines it for the values above and below. -/
def inspectBelow (tree : Tree K V) (deeper : Int → Int → Bool) (id : NodeId) (branch : Branch) :
    Inspection Unit :=
  [Side.left, Side.right].forM fun side =>
    match branch.child side with
    | .leaf _ => pure ()
    | .branch child => do
        expect (deeper branch.split (← tree.branch child).split) (.notBelow child id)

/-- Checks the leaf of a node against all branches above its place, and the
branch that the node lends to the tree against those directly below. -/
def inspectPlaced (tree : Tree K V)
    (misplacement? : NodeId → Side → Branch → Except Fault (Option Corruption))
    (deeper : Int → Int → Bool) (id : NodeId) (node : Node K V) (position : Position) :
    Inspection Unit := do
  reportAny (← tree.firstAbove? misplacement? position)
  if let some branch := node.branch then tree.inspectBelow deeper id branch

end Tree

end ElasticTree
