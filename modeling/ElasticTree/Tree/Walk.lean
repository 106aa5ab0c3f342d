import ElasticTree.Tree.Basic

/-!
# Walking a tree

All movement in a tree is made of three walks: down from a link to a leaf,
always to the same side; up from a position through the branches above it; and
along a ring to its head.  Each of them follows stored links, and each stops
with a fault once it has passed more records than there are slots.

Nodes of equal key form a group, and inside it they stand in the order of their
insertion.  Moving right a group is entered at its head, and moving left at its
tail; `enter` says so once for all the functions that move into a subtree.

In a tree of words the members of a group are chained in a ring.  In a tree of
byte strings they hang from branches of negative split value.  `next` and `prev`
go through both kinds; `nextGroup` and `prevGroup` leave the group instead.
-/

namespace ElasticTree

namespace Tree

variable {K V : Type} {β : Type}

/-! ## The three walks -/

/-- The leaf at the outermost end of `link` on one side, with a limit on the
branches passed. -/
def descendWithin (tree : Tree K V) (side : Side) : Nat → Link → Except Fault NodeId
  | _, .leaf id => .ok id
  | 0, .branch _ => .error .endless
  | limit + 1, .branch id => do
      tree.descendWithin side limit ((← tree.branch id).child side)

/-- The leaf at the outermost end of `link` on one side. -/
def descend (tree : Tree K V) (side : Side) (link : Link) : Except Fault NodeId :=
  tree.descendWithin side tree.walkLimit link

/-- The first answer that `visit` gives on the way up, with a limit on the
branches passed. -/
def firstAboveWithin? (tree : Tree K V)
    (visit : NodeId → Side → Branch → Except Fault (Option β)) :
    Nat → Position → Except Fault (Option β)
  | _, .root => .ok none
  | 0, .under _ _ => .error .endless
  | limit + 1, .under owner side => do
      let branch ← tree.branch owner
      match ← visit owner side branch with
      | some answer => return some answer
      | none => tree.firstAboveWithin? visit limit branch.position

/-- The first answer that `visit` gives for a branch above `position`, nearest
first.  It is told whose branch it is and the side the way leads through. -/
def firstAbove? (tree : Tree K V) (visit : NodeId → Side → Branch → Except Fault (Option β))
    (position : Position) : Except Fault (Option β) :=
  tree.firstAboveWithin? visit tree.walkLimit position

/-- The node of the ring of `id` that holds the leaf position, with a limit on
the members passed. -/
def groupHeadWithin (tree : Tree K V) : Nat → NodeId → Except Fault NodeId
  | 0, _ => .error .endless
  | limit + 1, id => do
      let node ← tree.node id
      if node.placement = .chained then tree.groupHeadWithin limit node.ring.next
      else return id

/-- The node of the ring of `id` that holds the leaf position. -/
def groupHead (tree : Tree K V) (id : NodeId) : Except Fault NodeId :=
  tree.groupHeadWithin tree.walkLimit id

/-- The last member of the ring headed by `head`. -/
def ringTail (tree : Tree K V) (head : NodeId) : Except Fault NodeId := do
  return (← tree.node head).ring.prev

/-- The position of the leaf of `id`. -/
def leafPosition (tree : Tree K V) (id : NodeId) : Except Fault Position := do
  match (← tree.node id).placement with
  | .placed position => return position
  | _ => throw (.unplaced id)

/-! ## Moving in a direction -/

/-- The member of a ring that is met first when it is entered moving towards
`direction`. -/
def arrive (tree : Tree K V) (direction : Side) (head : NodeId) : Except Fault NodeId :=
  match direction with
  | .right => .ok head
  | .left => tree.ringTail head

/-- The first node of the subtree at `link` that is met moving towards
`direction`. -/
def enter (tree : Tree K V) (direction : Side) (link : Link) : Except Fault NodeId := do
  tree.arrive direction (← tree.descend direction.opposite link)

/-- The first node met moving towards `direction` from everything that hangs
from `position`.  Branches that fail `crosses` are not crossed. -/
def beyondWhere (tree : Tree K V) (direction : Side) (crosses : Branch → Bool)
    (position : Position) : Except Fault (Option NodeId) := do
  let across : NodeId → Side → Branch → Except Fault (Option Link) := fun _ side branch =>
    .ok (if side = direction.opposite ∧ crosses branch then some (branch.child direction)
      else none)
  match ← tree.firstAbove? across position with
  | some link => return some (← tree.enter direction link)
  | none => return none

/-- The first node met moving towards `direction` from everything that hangs
from `position`. -/
def beyond (tree : Tree K V) (direction : Side) (position : Position) :
    Except Fault (Option NodeId) :=
  tree.beyondWhere direction (fun _ => true) position

/-- The first node of the whole tree met moving towards `direction`. -/
def outermost (tree : Tree K V) (direction : Side) : Except Fault (Option NodeId) :=
  match tree.root with
  | none => .ok none
  | some link => do return some (← tree.enter direction link)

/-- The first node in order. -/
def first (tree : Tree K V) : Except Fault (Option NodeId) := tree.outermost .right

/-- The last node in order.  If several nodes share the last key, it is the one
of them inserted last. -/
def last (tree : Tree K V) : Except Fault (Option NodeId) := tree.outermost .left

/-! ## Single steps -/

/-- The node after `id`. -/
def stepNext (tree : Tree K V) (id : NodeId) : Except Fault (Option NodeId) := do
  let node ← tree.node id
  let next := node.ring.next
  match node.placement with
  | .detached => return none
  | .placed position =>
      if next = id then tree.beyond .right position else return some next
  | .chained =>
      match (← tree.node next).placement with
      | .chained => return some next
      | .placed position => tree.beyond .right position
      | .detached => throw (.strayInRing next)

/-- The node before `id`. -/
def stepPrev (tree : Tree K V) (id : NodeId) : Except Fault (Option NodeId) := do
  let node ← tree.node id
  match node.placement with
  | .detached => return none
  | .placed position => tree.beyond .left position
  | .chained => return some node.ring.prev

/-- The first node met towards `direction` whose key is not that of `id`. -/
def stepGroup (tree : Tree K V) (direction : Side) (id : NodeId) :
    Except Fault (Option NodeId) := do
  let position ← tree.leafPosition (← tree.groupHead id)
  tree.beyondWhere direction (fun branch => !branch.isGroup) position

/-- Asks `step` about a node, which has to be linked. -/
def stepFrom (tree : Tree K V) (step : NodeId → Except Fault (Option NodeId)) (id : NodeId) :
    Except Fault (Except Refusal (Option NodeId)) :=
  match tree.expectLinked id with
  | .error refusal => .ok (.error refusal)
  | .ok _ => do return .ok (← step id)

/-- The node after a linked node.  Nodes of equal key follow one another in the
order of their insertion. -/
def next (tree : Tree K V) (id : NodeId) : Except Fault (Except Refusal (Option NodeId)) :=
  tree.stepFrom tree.stepNext id

/-- The node before a linked node. -/
def prev (tree : Tree K V) (id : NodeId) : Except Fault (Except Refusal (Option NodeId)) :=
  tree.stepFrom tree.stepPrev id

/-- The first node of the next larger key. -/
def nextGroup (tree : Tree K V) (id : NodeId) :
    Except Fault (Except Refusal (Option NodeId)) :=
  tree.stepFrom (tree.stepGroup .right) id

/-- The last node of the next smaller key. -/
def prevGroup (tree : Tree K V) (id : NodeId) :
    Except Fault (Except Refusal (Option NodeId)) :=
  tree.stepFrom (tree.stepGroup .left) id

end Tree

end ElasticTree
