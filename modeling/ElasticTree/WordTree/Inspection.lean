import ElasticTree.Tree.Inspection
import ElasticTree.WordTree.Basic

/-!
# Inspecting a tree of words

Once the structure is known to be sound, every node is checked against the keys
above it: a chained node has the key of its head, a leaf agrees with the owner
of each branch above it from the split up and lies on the side that its own bit
says, and splits fall on the way down.
-/

namespace ElasticTree

namespace WordTree

variable {width : Nat} {V : Type}

open Inspection

/-- What is wrong with a leaf of key `key` that hangs somewhere on one side
below the branch of `owner`. -/
def misplacement? (tree : WordTree width V) (id : NodeId) (key : BitVec width) (owner : NodeId)
    (side : Side) (branch : Branch) : Except Fault (Option Corruption) := do
  if branch.split < 1 ∨ width < branch.split then
    return some (.splitRange owner branch.split)
  let stored := (← tree.node owner).key
  if ← Word.diverge key stored branch.split then return some (.leafMisplaced id owner)
  if (← Word.sideOf key branch.split) ≠ side then return some (.leafMisplaced id owner)
  return none

/-- Checks the key of one node. -/
def inspectKey (tree : WordTree width V) (entry : NodeId × Node (BitVec width) V) :
    Inspection Unit := do
  let (id, node) := entry
  match node.placement with
  | .detached => pure ()
  | .chained =>
      let head ← tree.groupHead id
      expect ((← tree.node head).key = node.key) (.foreignHead id head)
  | .placed position =>
      tree.inspectPlaced (tree.misplacement? id node.key) (fun above below => below < above) id node
        position

/-- Checks the structure of the tree, the place of every key, and the order. -/
def inspect (tree : WordTree width V) : Inspection Unit := do
  tree.inspectStructure
  tree.nodes.entries.forM tree.inspectKey
  tree.inspectOrder fun smaller larger => smaller ≤ larger

end WordTree

end ElasticTree
