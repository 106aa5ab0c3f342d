import ElasticTree.Bits.Word
import ElasticTree.Tree.Surgery
import ElasticTree.Tree.Walk

/-!
# Trees of words

The keys are unsigned integers of a fixed width.  A branch splits on the highest
bit in which its two subtrees differ, so all keys below a branch agree with the
key of its owner from that bit up, and the key of the owner can stand for any of
them.  Nodes of equal key are chained in a ring behind the first of them.

A new key goes down as long as it agrees with the owners of the branches it
meets.  It lands at a leaf of its own key, or at the first link below which no
key shares enough bits with it; there it is linked above what it found.
-/

namespace ElasticTree

/-- Trees whose keys are words of `width` bits. -/
abbrev WordTree (width : Nat) (V : Type) := Tree (BitVec width) V

namespace WordTree

variable {width : Nat} {V : Type}

/-- Where the way down for a key ends. -/
inductive Landing where
  /-- At a leaf that holds the key. -/
  | held (leaf : NodeId)
  /-- At a slot where something with other keys hangs. -/
  | above (position : Position) (old : Link)
  deriving DecidableEq, Repr

/-- Follows the way down for `key` from `link`, which hangs at `position`, with
a limit on the branches passed. -/
def landWithin (tree : WordTree width V) (key : BitVec width) :
    Nat → Position → Link → Except Fault Landing
  | _, position, .leaf leaf => do
      if (← tree.node leaf).key = key then return .held leaf
      else return .above position (.leaf leaf)
  | 0, _, .branch _ => .error .endless
  | limit + 1, position, .branch owner => do
      let branch ← tree.branch owner
      if ← Word.diverge key (← tree.node owner).key branch.split then
        return .above position (.branch owner)
      else
        let side ← Word.sideOf key branch.split
        tree.landWithin key limit (.under owner side) (branch.child side)

/-- Follows the way down for `key` from the root. -/
def land (tree : WordTree width V) (key : BitVec width) (root : Link) : Except Fault Landing :=
  tree.landWithin key tree.walkLimit .root root

/-- Links `id`, whose key is `key`, at the slot where the way down ended. -/
def linkAbove (tree : WordTree width V) (id : NodeId) (key : BitVec width) (position : Position)
    (old : Link) : Except Fault (WordTree width V) := do
  let other := (← tree.node old.node).key
  let side := if other < key then Side.right else Side.left
  tree.insertAbove id position old side (Word.splitOf key other)

/-- Links the detached node called `id` behind all nodes of smaller or equal
key, and answers it.  If the tree is unique and holds the key already, nothing
changes, and the answer is the node that holds it. -/
def insert (tree : WordTree width V) (id : NodeId) :
    Except Fault (Except Refusal NodeId × WordTree width V) :=
  match tree.expectDetached id with
  | .error refusal => .ok (.error refusal, tree)
  | .ok node =>
      match tree.root with
      | none => do return (.ok id, ← tree.linkFirst id)
      | some root => do
          match ← tree.land node.key root with
          | .held leaf =>
              if tree.unique then return (.ok leaf, tree)
              else return (.ok id, ← tree.chainBehind leaf id)
          | .above position old => return (.ok id, ← tree.linkAbove id node.key position old)

end WordTree

end ElasticTree
