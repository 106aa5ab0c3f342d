import ElasticTree.Tree.Basic

/-!
# Shapes

The links of a sound tree unfold to a binary tree.  A `Shape` is that tree: at
its leaves are the rings of nodes of equal key, each written down from the node
that holds the leaf position, and each inner point is the branch of some node,
its owner.  Heights, orders and counts of a tree are those of its shape.
-/

namespace ElasticTree

/-- What a link unfolds to. -/
inductive Shape where
  | leaf (head : NodeId) (behind : List NodeId)
  | branch (owner : NodeId) (split : Int) (left right : Shape)
  deriving DecidableEq, Repr

namespace Shape

/-- The nodes that hold a leaf position, from left to right. -/
def leaves : Shape → List NodeId
  | leaf head _ => [head]
  | branch _ _ left right => left.leaves ++ right.leaves

/-- The nodes that are chained behind a leaf. -/
def chained : Shape → List NodeId
  | leaf _ behind => behind
  | branch _ _ left right => left.chained ++ right.chained

/-- All nodes in order, the chained ones right behind their leaf. -/
def members : Shape → List NodeId
  | leaf head behind => head :: behind
  | branch _ _ left right => left.members ++ right.members

/-- The owners of the branches, each before those below it. -/
def owners : Shape → List NodeId
  | leaf _ _ => []
  | branch owner _ left right => owner :: (left.owners ++ right.owners)

/-- The split values of the branches, in the order of their owners. -/
def splits : Shape → List Int
  | leaf _ _ => []
  | branch _ split left right => split :: (left.splits ++ right.splits)

/-- The largest number of branches above a leaf. -/
def height : Shape → Nat
  | leaf _ _ => 0
  | branch _ _ left right => max left.height right.height + 1

/-- The link that unfolds to the shape. -/
def link : Shape → Link
  | leaf head _ => .leaf head
  | branch owner _ _ _ => .branch owner

/-- Every branch lies above the leaf of its owner. -/
def Covered : Shape → Prop
  | leaf _ _ => True
  | branch owner _ left right =>
      owner ∈ left.leaves ++ right.leaves ∧ left.Covered ∧ right.Covered

theorem members_ne_nil (shape : Shape) : shape.members ≠ [] := by
  induction shape with
  | leaf head behind => simp [members]
  | branch owner split left right hleft hright => simp [members, hleft]

/-- A shape has one leaf more than it has branches. -/
theorem length_leaves (shape : Shape) : shape.leaves.length = shape.owners.length + 1 := by
  induction shape with
  | leaf head behind => rfl
  | branch owner split left right hleft hright =>
      simp only [leaves, owners, List.length_append, List.length_cons, hleft, hright]
      omega

theorem height_le (shape : Shape) : shape.height ≤ shape.owners.length := by
  induction shape with
  | leaf head behind => exact Nat.le_refl _
  | branch owner split left right hleft hright =>
      simp only [height, owners, List.length_append, List.length_cons]
      omega

/-- Every node is a leaf or chained behind one. -/
theorem members_perm (shape : Shape) : shape.members.Perm (shape.leaves ++ shape.chained) := by
  induction shape with
  | leaf head behind => exact List.Perm.refl _
  | branch owner split left right hleft hright =>
      simp only [members, leaves, chained, List.append_assoc]
      refine (hleft.append hright).trans ?_
      simp only [List.append_assoc]
      refine List.Perm.append_left _ ?_
      simp only [← List.append_assoc]
      exact List.Perm.append_right _ List.perm_append_comm

theorem mem_members_iff {shape : Shape} {id : NodeId} :
    id ∈ shape.members ↔ id ∈ shape.leaves ∨ id ∈ shape.chained := by
  rw [shape.members_perm.mem_iff, List.mem_append]

end Shape

end ElasticTree
