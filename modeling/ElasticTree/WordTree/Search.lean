import ElasticTree.Tree.Cursor
import ElasticTree.WordTree.Basic

/-!
# Searching a tree of words

`find?` looks for a key.  It can answer as soon as it meets a branch whose owner
has the key: the leaf of the owner is below, and an owner is never chained
behind another node.

`nearest?` looks for the key that is closest on one side, the key itself
included.  It follows the way down for the key.  Where the key parts from the
keys below a branch, all of those lie on the same side of it, so either the
subtree is entered at its near end, or the search goes on beyond it.

A range of keys is resolved to its two end nodes, and gone through from one to
the other.
-/

namespace ElasticTree

namespace WordTree

variable {width : Nat} {V : Type}

/-! ## The key itself -/

/-- Looks for `key` below `link`, with a limit on the branches passed. -/
def findWithin? (tree : WordTree width V) (key : BitVec width) :
    Nat → Link → Except Fault (Option NodeId)
  | _, .leaf leaf => do
      return if (← tree.node leaf).key = key then some leaf else none
  | 0, .branch _ => .error .endless
  | limit + 1, .branch owner => do
      let stored := (← tree.node owner).key
      if stored = key then return some owner
      let branch ← tree.branch owner
      if ← Word.diverge key stored branch.split then return none
      tree.findWithin? key limit (branch.child (← Word.sideOf key branch.split))

/-- The first node whose key is `key`. -/
def find? (tree : WordTree width V) (key : BitVec width) : Except Fault (Option NodeId) :=
  match tree.root with
  | none => .ok none
  | some root => tree.findWithin? key tree.walkLimit root

/-! ## The nearest key -/

/-- Whether `stored` lies strictly on one side of `key`. -/
def lies (direction : Side) (stored key : BitVec width) : Bool :=
  match direction with
  | .right => key < stored
  | .left => stored < key

/-- Whether `stored` lies strictly on one side of `key` by the bits from a split
up. -/
def liesAbove (direction : Side) (stored key : BitVec width) (split : Int) : Except Fault Bool := do
  return lies direction (← Word.highBits stored split) (← Word.highBits key split)

/-- Looks for the key nearest to `key` in `direction`, from `link`, which hangs
at `position`, with a limit on the branches passed. -/
def nearestWithin? (tree : WordTree width V) (direction : Side) (key : BitVec width) :
    Nat → Position → Link → Except Fault (Option NodeId)
  | _, position, .leaf leaf => do
      let stored := (← tree.node leaf).key
      if stored = key ∨ lies direction stored key then
        return some (← tree.arrive direction leaf)
      else tree.beyond direction position
  | 0, _, .branch _ => .error .endless
  | limit + 1, _, .branch owner => do
      let stored := (← tree.node owner).key
      let branch ← tree.branch owner
      if ← Word.diverge key stored branch.split then
        if ← liesAbove direction stored key branch.split then
          return some (← tree.enter direction (.branch owner))
        else tree.beyond direction branch.position
      else
        let side ← Word.sideOf key branch.split
        tree.nearestWithin? direction key limit (.under owner side) (branch.child side)

/-- The node met first when moving towards `direction` from just before `key`.
-/
def nearest? (tree : WordTree width V) (direction : Side) (key : BitVec width) :
    Except Fault (Option NodeId) :=
  match tree.root with
  | none => .ok none
  | some root => tree.nearestWithin? direction key tree.walkLimit .root root

/-- The first node whose key is `key` or larger. -/
def findGE? (tree : WordTree width V) (key : BitVec width) : Except Fault (Option NodeId) :=
  tree.nearest? .right key

/-- The last node whose key is `key` or smaller. -/
def findLE? (tree : WordTree width V) (key : BitVec width) : Except Fault (Option NodeId) :=
  tree.nearest? .left key

/-! ## Ranges -/

/-- One end of a range of keys. -/
inductive Bound (width : Nat) where
  | included (key : BitVec width)
  | excluded (key : BitVec width)
  | unbounded
  deriving DecidableEq, Repr

/-- Whether a range that begins at the bound may have the key. -/
def Bound.admitsFrom : Bound width → BitVec width → Bool
  | .included least, key => least ≤ key
  | .excluded below, key => below < key
  | .unbounded, _ => true

/-- Whether a range that ends at the bound may have the key. -/
def Bound.admitsTo : Bound width → BitVec width → Bool
  | .included greatest, key => key ≤ greatest
  | .excluded above, key => key < above
  | .unbounded, _ => true

/-- Whether the key is within both bounds. -/
def within (lower upper : Bound width) (key : BitVec width) : Bool :=
  lower.admitsFrom key && upper.admitsTo key

/-- The first node that a lower bound admits.  No key is above the largest
word. -/
def firstWithin? (tree : WordTree width V) : Bound width → Except Fault (Option NodeId)
  | .included key => tree.findGE? key
  | .excluded key => if key = .allOnes width then .ok none else tree.findGE? (key + 1)
  | .unbounded => tree.first

/-- The last node that an upper bound admits.  No key is below zero. -/
def lastWithin? (tree : WordTree width V) : Bound width → Except Fault (Option NodeId)
  | .included key => tree.findLE? key
  | .excluded key => if key = 0 then .ok none else tree.findLE? (key - 1)
  | .unbounded => tree.last

/-- The nodes whose keys are within both bounds. -/
def range (tree : WordTree width V) (lower upper : Bound width) : Except Fault Span := do
  match ← tree.firstWithin? lower, ← tree.lastWithin? upper with
  | some first, some last =>
      if (← tree.node first).key ≤ (← tree.node last).key then
        return ⟨some first, some last⟩
      else return .empty
  | _, _ => return .empty

end WordTree

end ElasticTree
