import ElasticTree.Tree.Basic

/-!
# Outlines

What is left of a tree once it is forgotten which nodes it consists of: how its
branches part the keys, and the key at each leaf.  Nodes of equal key count as one
leaf, whether they are chained or hang from branches of negative split value.
-/

namespace ElasticTree

/-- How keys are parted, and down to which keys. -/
inductive Outline (C : Type) where
  | leaf (key : C)
  | branch (split : Int) (left right : Outline C)
  deriving DecidableEq, Repr

namespace Outline

variable {C : Type}

def leaves : Outline C → Nat
  | leaf _ => 1
  | branch _ left right => left.leaves + right.leaves

def branches : Outline C → Nat
  | leaf _ => 0
  | branch _ left right => left.branches + right.branches + 1

/-- The largest number of branches above a leaf. -/
def height : Outline C → Nat
  | leaf _ => 0
  | branch _ left right => max left.height right.height + 1

end Outline

namespace Tree

variable {K V C : Type}

/-- The outline of what hangs below `link`, with a limit on the branches that lie
one below the other.  The owner of a branch speaks for its group. -/
def outlineWithin (view : K → C) (tree : Tree K V) : Nat → Link → Except Fault (Outline C)
  | _, .leaf id => do return .leaf (view (← tree.node id).key)
  | 0, .branch _ => .error .endless
  | limit + 1, .branch owner => do
      let branch ← tree.branch owner
      if branch.isGroup then return .leaf (view (← tree.node owner).key)
      else
        let left ← tree.outlineWithin view limit branch.left
        let right ← tree.outlineWithin view limit branch.right
        return .branch branch.split left right

/-- The outline of the tree, if anything is linked. -/
def outline (view : K → C) (tree : Tree K V) : Except Fault (Option (Outline C)) :=
  match tree.root with
  | none => .ok none
  | some link => do return some (← tree.outlineWithin view tree.walkLimit link)

/-- The keys of the linked nodes as they are seen. -/
def linkedKeys (view : K → C) (tree : Tree K V) : List C :=
  (tree.nodes.entries.filter fun entry => entry.2.placement ≠ .detached).map
    fun entry => view entry.2.key

end Tree

end ElasticTree
