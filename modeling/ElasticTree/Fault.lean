import ElasticTree.NodeId

/-!
# Faults

Links between records are names, and nothing in their type keeps a name alive
or a role in use.  An operation that follows a link it cannot follow stops with
a `Fault`.  Faults are not answers of the library: a tree built through its
interface never shows one, and one that appears means that the stored links had
been damaged beforehand.  They are kept apart from refusals, which tell a caller
that a request was out of place, and from the findings of the checkers.
-/

namespace ElasticTree

/-- Why an operation could not go on. -/
inductive Fault where
  /-- The record named is not live. -/
  | deadNode (id : NodeId)
  /-- A link addresses the branch of a node whose branch is not in use. -/
  | inertBranch (id : NodeId)
  /-- A node whose leaf position was asked for has none. -/
  | unplaced (id : NodeId)
  /-- A detached node was met inside a ring of duplicates. -/
  | strayInRing (id : NodeId)
  /-- A walk met some record twice and would go on for ever. -/
  | endless
  /-- A split value left the range of 32-bit signed integers. -/
  | splitOverflow
  /-- A key was to be shifted by its full width or more, or tested at a bit that it
  does not have. -/
  | shiftOverflow
  /-- The count of linked nodes was to fall below zero. -/
  | countUnderflow
  /-- A branch had to be free and was in use. -/
  | branchInUse (id : NodeId)
  /-- A tree had to be empty and something hung from its root. -/
  | rootInUse
  deriving DecidableEq, Repr

namespace Fault

/-- The text of a fault. -/
def message : Fault → String
  | deadNode id => s!"node {id} is not live in this arena"
  | inertBranch id =>
      "internal error: entered unreachable code: " ++
        s!"node {id} is referenced as a branch but its branch is inert"
  | unplaced id =>
      "internal error: entered unreachable code: " ++
        s!"node {id} has no leaf position (Detached)"
  | strayInRing id =>
      s!"internal error: entered unreachable code: detached node {id} in a chain"
  | endless => "the links of this tree lead round in a circle"
  | splitOverflow => "attempt to subtract with overflow"
  | shiftOverflow => "attempt to shift right with overflow"
  | countUnderflow => "attempt to subtract with overflow"
  | branchInUse id => s!"the branch of node {id} is already in use"
  | rootInUse => "the root of the tree is already in use"

/-- A step that succeeds hands its result on. -/
theorem ok_bind {α β : Type} (found : α) (next : α → Except Fault β) :
    (Except.ok found >>= next) = next found := rfl

end Fault

end ElasticTree
