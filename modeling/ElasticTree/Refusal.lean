import ElasticTree.NodeId

/-!
# Refusals

An operation that is asked for at the wrong moment is refused, and the tree
stays as it was.  A key that is not found, and a key that a tree without
duplicates already holds, are ordinary answers and no refusals.
-/

namespace ElasticTree

/-- Why a request was turned down. -/
inductive Refusal where
  /-- The identity names no node of this tree. -/
  | unknownNode (id : NodeId)
  /-- The operation needs a node that is linked into the tree. -/
  | notLinked (id : NodeId)
  /-- The operation needs a node that is not linked. -/
  | alreadyLinked (id : NodeId)
  /-- Keys of this many bytes have more bits than a split value can count. -/
  | keyTooLong (length : Nat)
  deriving DecidableEq, Repr

namespace Refusal

/-- The text of a refusal. -/
def message : Refusal → String
  | unknownNode id => s!"unknown node {id}"
  | notLinked id => s!"node {id} is not linked into the tree"
  | alreadyLinked id => s!"node {id} is already linked"
  | keyTooLong length => s!"key length of {length} bytes is too long"

end Refusal

end ElasticTree
