import ElasticTree.Tree.Cursor

/-!
# Taking entries from both ends

A caller may advance a cursor or a span at either end, in any order and for as
long as it likes, also when there is nothing left.
-/

namespace ElasticTree

variable {K V S : Type}

/-- What comes out when entries are taken one after the other in these
directions. -/
def pull (take : Side → S → Except Fault (Option (Entry K V) × S)) :
    List Side → S → Except Fault (List (Option (Entry K V)))
  | [], _ => .ok []
  | direction :: directions, state => do
      let (entry, state) ← take direction state
      return entry :: (← pull take directions state)

/-- What comes out when entries are taken one after the other in these
directions, and what is left to go on from. -/
def drain (take : Side → S → Except Fault (Option (Entry K V) × S)) :
    List Side → S → Except Fault (List (Option (Entry K V)) × S)
  | [], state => .ok ([], state)
  | direction :: directions, state => do
      let (entry, state) ← take direction state
      let (entries, state) ← drain take directions state
      return (entry :: entries, state)

/-- Takes the node at the front when moving right, and at the back when moving
left. -/
def Cursor.take (tree : Tree K V) (direction : Side) (cursor : Cursor) :
    Except Fault (Option (Entry K V) × Cursor) :=
  match direction with
  | .right => cursor.next tree
  | .left => cursor.nextBack tree

/-- The least and the largest number of nodes that may be left. -/
def Cursor.sizeHint (cursor : Cursor) : Nat × Option Nat :=
  (cursor.remaining, some cursor.remaining)

/-- Takes the node at the front when moving right, and at the back when moving
left. -/
def Span.take (tree : Tree K V) (direction : Side) (span : Span) :
    Except Fault (Option (Entry K V) × Span) :=
  match direction with
  | .right => span.next tree
  | .left => span.nextBack tree

/-- Takes entries of the whole tree. -/
def Tree.pullAll (tree : Tree K V) (directions : List Side) :
    Except Fault (List (Option (Entry K V))) := do
  pull (Cursor.take tree) directions (← Cursor.start tree)

end ElasticTree
