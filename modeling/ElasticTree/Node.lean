import ElasticTree.Ring.Basic

/-!
# Nodes and the references between them

Every key of a tree owns one node, and the node plays up to two roles.  It is
always a *leaf*, the key itself.  It may besides lend its *branch* to the tree,
as the point where two other subtrees part.  A `Link` says which of the two
roles of a node it addresses, and a `Position` names the slot that a role hangs
from: the root of the tree or one side of some node's branch.
-/

namespace ElasticTree

/-- One of the two sides of a branch. -/
inductive Side where
  | left
  | right
  deriving DecidableEq, Repr

namespace Side

/-- The other side. -/
def opposite : Side → Side
  | left => right
  | right => left

/-- The side that a key with this bit belongs on. -/
def ofBit (bit : Bool) : Side := if bit then right else left

theorem eq_or_eq_opposite (first second : Side) : first = second ∨ first = second.opposite := by
  cases first <;> cases second <;> simp [Side.opposite]

@[simp] theorem opposite_ne (side : Side) : side.opposite ≠ side := by
  cases side <;> simp [Side.opposite]

@[simp] theorem opposite_opposite (side : Side) : side.opposite.opposite = side := by
  cases side <;> rfl

instance : ToString Side where
  toString
    | left => "Left"
    | right => "Right"

end Side

/-- A reference to one role of a node. -/
inductive Link where
  | leaf (id : NodeId)
  | branch (id : NodeId)
  deriving DecidableEq, Repr

namespace Link

/-- The node a link refers to, whichever role is meant. -/
def node : Link → NodeId
  | leaf id => id
  | branch id => id

instance : ToString Link where
  toString
    | leaf id => s!"Leaf({id})"
    | branch id => s!"Branch({id})"

end Link

/-- The slot that a leaf or a branch hangs from. -/
inductive Position where
  | root
  | under (owner : NodeId) (side : Side)
  deriving DecidableEq, Repr

namespace Position

instance : ToString Position where
  toString
    | root => "Root"
    | under owner side => s!"Branch({owner}, {side})"

end Position

/-- The branch role of a node, for as long as it is in use. -/
structure Branch where
  position : Position
  left : Link
  right : Link
  /-- Where the two subtrees part.  In a tree of words this is the highest bit
  in which they differ, counted from one.  In a tree of byte strings it is the
  number of leading bits they share, or a negative value if all the keys below
  are equal. -/
  split : Int
  deriving DecidableEq, Repr

namespace Branch

/-- The link on one side. -/
def child (branch : Branch) : Side → Link
  | .left => branch.left
  | .right => branch.right

/-- Replaces the link on one side. -/
def setChild (branch : Branch) (side : Side) (link : Link) : Branch :=
  match side with
  | .left => { branch with left := link }
  | .right => { branch with right := link }

/-- Whether the branch only holds nodes of equal keys together. -/
def isGroup (branch : Branch) : Bool := branch.split < 0

end Branch

/-- What has become of the leaf of a node. -/
inductive Placement where
  /-- It is in no tree. -/
  | detached
  /-- It hangs from a slot of the tree. -/
  | placed (position : Position)
  /-- It stands in a ring behind a leaf of equal key and hangs from no slot. -/
  | chained
  deriving DecidableEq, Repr

namespace Placement

instance : ToString Placement where
  toString
    | detached => "Detached"
    | placed position => s!"Linked({position})"
    | chained => "Duplicate"

end Placement

/-- A key with its value and everything that ties it into a tree. -/
structure Node (K V : Type) where
  key : K
  value : V
  placement : Placement
  branch : Option Branch
  ring : RingLinks
  deriving DecidableEq, Repr

namespace Node

variable {K V : Type}

/-- A node outside any tree, alone in its ring. -/
def fresh (key : K) (value : V) (id : NodeId) : Node K V :=
  ⟨key, value, .detached, none, .alone id⟩

/-- Whether the node belongs to a tree. -/
def isLinked (node : Node K V) : Bool := node.placement != .detached

/-- The node without any ties. -/
def detach (node : Node K V) (id : NodeId) : Node K V :=
  { node with placement := .detached, branch := none, ring := .alone id }

instance : RingMember (Node K V) where
  links node := node.ring
  withLinks new node := { node with ring := new }
  links_withLinks _ _ := rfl
  withLinks_links _ := rfl
  withLinks_withLinks _ _ _ := rfl

end Node

end ElasticTree
