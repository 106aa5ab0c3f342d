import ElasticTree.Tree.Basic

/-!
# Paths

The ways down along the links.  A path is told by the splits of the branches that are
passed, the upper ones first, so its length is the number of branches between its ends.
-/

namespace ElasticTree

namespace Tree

variable {K V : Type}

/-- The way down from the first link to the second passes branches of these splits. -/
inductive Path (tree : Tree K V) : Link → List Int → Link → Prop where
  | here (link : Link) : Path tree link [] link
  | down {owner : NodeId} {branch : Branch} {splits : List Int} {link : Link}
      (branch_eq : tree.branch owner = .ok branch) (side : Side)
      (rest : Path tree (branch.child side) splits link) :
      Path tree (.branch owner) (branch.split :: splits) link

/-- The way down from the root passes branches of these splits. -/
def PathFromRoot (tree : Tree K V) (splits : List Int) (link : Link) : Prop :=
  ∃ root ∈ tree.root, tree.Path root splits link

end Tree

end ElasticTree
