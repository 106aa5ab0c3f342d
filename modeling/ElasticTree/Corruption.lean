import ElasticTree.Node

/-!
# Corruption

What the checkers of a tree can find wrong with it.  A checker reports the first
violation it meets, with the identities and values that show it.
-/

namespace ElasticTree

/-- How many roles of each kind a tree was found to hold. -/
structure Tally where
  leaves : Nat
  branches : Nat
  chained : Nat
  deriving DecidableEq, Repr

/-- A violation of what holds of every sound tree. -/
inductive Corruption where
  /-- More links were followed than sound links can lead to. -/
  | cycle (link : Link)
  /-- A link addresses a node that is not live. -/
  | freedNode (link : Link)
  /-- A leaf records another placement than the slot it was reached from. -/
  | leafElsewhere (id : NodeId) (reached : Position) (recorded : Placement)
  /-- A link addresses a branch that is not in use. -/
  | inertBranch (link : Link)
  /-- A branch records another position than the slot it was reached from. -/
  | branchElsewhere (id : NodeId) (reached recorded : Position)
  /-- Both links of a branch are the same. -/
  | twinChildren (id : NodeId)
  /-- The branches reached are not one fewer than the leaves. -/
  | branchCount (branches leaves : Nat)
  /-- The nodes reached are not as many as are counted. -/
  | linkedCount (reached counted : Nat)
  /-- A detached node has its branch in use or company in its ring. -/
  | detachedWithLinks (id : NodeId)
  /-- A chained node has its branch in use. -/
  | chainedWithBranch (id : NodeId)
  /-- A branch in use does not lie on the way to the leaf of its own node. -/
  | branchNotAbove (id : NodeId)
  /-- More or fewer nodes record a role than were reached in it. -/
  | roleCounts (recorded reached : Tally)
  /-- A ring leads to a node that is not live. -/
  | ringFreed (head : NodeId)
  /-- The successor of a ring member does not point back. -/
  | ringBroken (head member : NodeId)
  /-- A member of a ring, not its head, is not marked as chained. -/
  | ringStranger (member head : NodeId)
  /-- A ring has more members than the tree has nodes. -/
  | ringOpen (head : NodeId)
  /-- Stepping forward visits more nodes than are linked. -/
  | forwardEndless
  /-- Two neighbours have their keys in the wrong order. -/
  | outOfOrder (first second : NodeId)
  /-- Stepping back does not return to where the step forward came from. -/
  | backwardAstray (id : NodeId) (expected : Option NodeId)
  /-- Stepping forward visits too few nodes or ends at the wrong one. -/
  | forwardShort (visited linked : Nat) (final : Option NodeId)
  /-- A chained node has another key than the head of its ring. -/
  | foreignHead (id head : NodeId)
  /-- The split value of a branch is no bit position of the keys. -/
  | splitRange (owner : NodeId) (split : Int)
  /-- A leaf does not belong where it hangs under a branch. -/
  | leafMisplaced (id owner : NodeId)
  /-- The split of a branch does not continue that of the branch above it. -/
  | notBelow (child parent : NodeId)
  /-- A node is chained in a tree of byte strings, which knows no rings. -/
  | chainedByteString (id : NodeId)
  deriving DecidableEq, Repr

namespace Corruption

/-- How an identity that may be absent is written. -/
private def optional : Option NodeId → String
  | none => "None"
  | some id => s!"Some({id})"

/-- What the violation is. -/
def description : Corruption → String
  | cycle link => s!"more links than nodes, cycle through {link}?"
  | freedNode link => s!"{link} names a freed node"
  | leafElsewhere id reached recorded =>
      s!"leaf {id} hangs from {reached} but records {recorded}"
  | inertBranch link => s!"{link} names an inert branch"
  | branchElsewhere id reached recorded =>
      s!"branch of {id} hangs from {reached} but records {recorded}"
  | twinChildren id => s!"branch of {id} has twin children"
  | branchCount branches leaves => s!"{branches} branches in use for {leaves} leaves"
  | linkedCount reached counted => s!"{reached} nodes reachable but {counted} counted as linked"
  | detachedWithLinks id => s!"detached node {id} still holds links"
  | chainedWithBranch id => s!"chained duplicate {id} has a branch"
  | branchNotAbove id => s!"branch of {id} is not above its leaf"
  | roleCounts recorded reached =>
      s!"nodes claim {recorded.leaves} leaves, {recorded.branches} branches and " ++
        s!"{recorded.chained} duplicates, tree holds {reached.leaves}, " ++
        s!"{reached.branches} and {reached.chained}"
  | ringFreed head => s!"chain of {head} runs into a freed node"
  | ringBroken head member => s!"chain of {head} is broken after {member}"
  | ringStranger member head => s!"{member} is chained behind {head} but not a duplicate"
  | ringOpen head => s!"chain of {head} does not close"
  | forwardEndless => "forward walk visits more nodes than are linked"
  | outOfOrder first second => s!"{first} and {second} are out of order"
  | backwardAstray id expected =>
      s!"stepping back from {id} does not reach {optional expected}"
  | forwardShort visited linked final =>
      s!"forward walk visits {visited} of {linked} nodes and ends at {optional final}"
  | foreignHead id head => s!"duplicate {id} chained behind {head} with a different key"
  | splitRange owner split => s!"branch of {owner} splits on bit {split}"
  | leafMisplaced id owner => s!"leaf {id} misplaced under the branch of {owner}"
  | notBelow child parent =>
      s!"branch of {child} does not split below its parent {parent}"
  | chainedByteString id => s!"node {id} is a chained duplicate in a byte-string tree"

/-- The text of a finding. -/
def message (corruption : Corruption) : String := s!"tree corrupted: {corruption.description}"

end Corruption

end ElasticTree
