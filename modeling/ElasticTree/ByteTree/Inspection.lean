import ElasticTree.ByteTree.Basic
import ElasticTree.Tree.Inspection

/-!
# Inspecting a tree of byte strings

Once the structure is known to be sound, every node is checked against the keys
above it: no node is chained, a leaf agrees with the owner of each branch above
it on all the bits they are to share and lies on the side that its own bit says,
and splits deepen on the way down until they turn negative in a group and rise
towards `-1`.
-/

namespace ElasticTree

namespace ByteTree

variable {K V : Type} [ByteKey K]

open Inspection

/-- Whether a leaf of key `key` may hang on one side below a branch whose owner
has the key `stored`. -/
def belongs (key stored : ByteArray) (length : Nat) (side : Side) (branch : Branch) : Bool :=
  if branch.isGroup then ByteString.commonBits key stored 0 length = length
  else
    let split := branch.split.toNat
    split < length && ByteString.commonBits key stored 0 split = split &&
      Side.ofBit (ByteString.bitAt key split) = side

/-- What is wrong with a leaf of key `key` that hangs somewhere on one side
below the branch of `owner`. -/
def misplacement? (tree : ByteTree K V) (length : Nat) (id : NodeId) (key : ByteArray)
    (owner : NodeId) (side : Side) (branch : Branch) : Except Fault (Option Corruption) := do
  let stored ← tree.keyOf owner
  return if belongs key stored length side branch then none
    else some (.leafMisplaced id owner)

/-- Whether a branch may split at `below` directly under one that splits at
`above`. -/
def deepens (above below : Int) : Bool :=
  if above < 0 then below < 0 && above < below else below < 0 || above < below

/-- Checks the key of one node. -/
def inspectKey (tree : ByteTree K V) (length : Nat) (entry : NodeId × Node K V) :
    Inspection Unit := do
  let (id, node) := entry
  match node.placement with
  | .detached => pure ()
  | .chained => report (.chainedByteString id)
  | .placed position =>
      let key := ByteKey.bytes node.key
      tree.inspectPlaced (tree.misplacement? length id key) deepens id node position

/-- Checks the structure of the tree, the place of every key, and the order over
the first `length` bytes. -/
def inspect (tree : ByteTree K V) (length : Nat) : Inspection Unit := do
  let bits := bitLengthWrapped length
  tree.inspectStructure
  tree.nodes.entries.forM (tree.inspectKey bits)
  tree.inspectOrder fun first second =>
    (ByteString.compareBits (ByteKey.bytes first) (ByteKey.bytes second) 0 bits).isLE

end ByteTree

end ElasticTree
