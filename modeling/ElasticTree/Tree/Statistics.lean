import ElasticTree.Tree.Basic

/-!
# Statistics of a tree

How many nodes play which role, and how far the leaves lie from the root.  The
nodes that share a key with an earlier one are found in two places: those that
are chained show it in their placement, and every branch of negative split value
stands for one more.
-/

namespace ElasticTree

/-- What a walk over all links of a subtree counts. -/
structure Census where
  leaves : Nat
  branches : Nat
  /-- Branches that hold nodes of equal keys together. -/
  groupBranches : Nat
  /-- The largest number of branches above a leaf. -/
  maxHeight : Nat
  /-- The numbers of branches above all leaves, added up. -/
  heightSum : Nat
  deriving DecidableEq, Repr

namespace Census

/-- Nothing counted. -/
def zero : Census := ⟨0, 0, 0, 0, 0⟩

/-- A single leaf under `depth` branches. -/
def leaf (depth : Nat) : Census := ⟨1, 0, 0, depth, depth⟩

/-- What two subtrees under one branch count together. -/
def join (branch : Branch) (first second : Census) : Census :=
  { leaves := first.leaves + second.leaves
    branches := first.branches + second.branches + 1
    groupBranches := first.groupBranches + second.groupBranches +
      if branch.isGroup then 1 else 0
    maxHeight := max first.maxHeight second.maxHeight
    heightSum := first.heightSum + second.heightSum }

end Census

/-- The figures of a tree. -/
structure Statistics where
  /-- Linked nodes, duplicates included. -/
  values : Nat
  leaves : Nat
  branches : Nat
  groupBranches : Nat
  /-- Linked nodes that are not the first of their key. -/
  duplicates : Nat
  /-- Nodes that are not linked. -/
  detached : Nat
  maxHeight : Nat
  heightSum : Nat
  deriving DecidableEq, Repr

/-- The mean number of branches above a leaf; zero if there are no leaves. -/
def Statistics.meanHeight (statistics : Statistics) : Float :=
  if statistics.leaves = 0 then 0.0
  else statistics.heightSum.toFloat / statistics.leaves.toFloat

namespace Tree

variable {K V : Type}

/-- Counts everything below `link`, which lies under `depth` branches; the right
side of a branch is counted first.  There is a limit on the branches that lie
one below the other. -/
def censusWithin (tree : Tree K V) : Nat → Nat → Link → Except Fault Census
  | _, depth, .leaf _ => .ok (.leaf depth)
  | 0, _, .branch _ => .error .endless
  | limit + 1, depth, .branch id => do
      let branch ← tree.branch id
      let right ← tree.censusWithin limit (depth + 1) branch.right
      let left ← tree.censusWithin limit (depth + 1) branch.left
      return .join branch left right

/-- Counts everything that hangs from the root. -/
def census (tree : Tree K V) : Except Fault Census :=
  match tree.root with
  | none => .ok .zero
  | some link => tree.censusWithin tree.walkLimit 0 link

/-- The figures of the tree. -/
def statistics (tree : Tree K V) : Except Fault Statistics := do
  let nodes := tree.nodes.entries.map Prod.snd
  let census ← tree.census
  return {
    values := tree.linked
    leaves := census.leaves
    branches := census.branches
    groupBranches := census.groupBranches
    duplicates := nodes.countP (·.placement = .chained) + census.groupBranches
    detached := nodes.countP (·.placement = .detached)
    maxHeight := census.maxHeight
    heightSum := census.heightSum }

end Tree

end ElasticTree
