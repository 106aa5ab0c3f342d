import ElasticTree.Ring.Cycle
import ElasticTree.Shape.Basic

/-!
# Unfolding a tree

`Unfolds` relates a link of a stored tree, together with the slot it hangs from,
to a shape.  It holds when every role below the link is played by a live node
that records the slot it was reached from, and when the rings of the leaves are
closed.  A link that leads round in a circle unfolds to no shape, since shapes
are finite.

`WellFormed` is what every sound tree satisfies, whatever its keys are.  It is
said in terms of the shape, with no reference to how a checker goes about it.
-/

namespace ElasticTree

namespace Tree

variable {K V : Type}

/-- The link, hanging from the position, unfolds to the shape. -/
inductive Unfolds (tree : Tree K V) : Position → Link → Shape → Prop where
  | leaf {position : Position} {head : NodeId} {behind : List NodeId} {node : Node K V}
      (live : tree.nodes.get? head = some node) (placed : node.placement = .placed position)
      (ring : Ring.Cycle tree.nodes head behind) :
      Unfolds tree position (.leaf head) (.leaf head behind)
  | branch {position : Position} {owner : NodeId} {node : Node K V} {branch : Branch}
      {left right : Shape} (live : tree.nodes.get? owner = some node)
      (used : node.branch = some branch) (position_eq : branch.position = position)
      (unfolds_left : Unfolds tree (.under owner .left) branch.left left)
      (unfolds_right : Unfolds tree (.under owner .right) branch.right right) :
      Unfolds tree position (.branch owner) (.branch owner branch.split left right)

/-- What hangs from the root unfolds to the shape; nothing hangs there if there
is none. -/
def RootUnfolds (tree : Tree K V) : Option Shape → Prop
  | none => tree.root = none
  | some shape => ∃ link, tree.root = some link ∧ tree.Unfolds .root link shape

theorem Unfolds.link_eq {tree : Tree K V} {position : Position} {link : Link} {shape : Shape}
    (h : tree.Unfolds position link shape) : link = shape.link := by
  cases h <;> rfl

/-- A tree whose roles, rings and counts fit together: the links unfold to
`shape`, in which no role occurs twice; every role that a live node records is
reached; and the count of linked nodes is right. -/
structure FormsWith (tree : Tree K V) (shape : Option Shape) : Prop where
  unfolds : tree.RootUnfolds shape
  leaves_nodup : ∀ found ∈ shape, found.leaves.Nodup
  owners_nodup : ∀ found ∈ shape, found.owners.Nodup
  covered : ∀ found ∈ shape, found.Covered
  placed_reached : ∀ id node position, tree.nodes.get? id = some node →
    node.placement = .placed position → ∃ found ∈ shape, id ∈ found.leaves
  branch_reached : ∀ id node, tree.nodes.get? id = some node → node.branch ≠ none →
    ∃ found ∈ shape, id ∈ found.owners
  chained_iff : ∀ id node, tree.nodes.get? id = some node →
    (node.placement = .chained ↔ ∃ found ∈ shape, id ∈ found.chained)
  detached_alone : ∀ id node, tree.nodes.get? id = some node → node.placement = .detached →
    node.branch = none ∧ node.ring = .alone id
  linked_eq : tree.linked = (shape.map fun found => found.members.length).getD 0

/-- A tree whose roles, rings and counts fit together. -/
def WellFormed (tree : Tree K V) : Prop := ∃ shape, tree.FormsWith shape

end Tree

end ElasticTree
