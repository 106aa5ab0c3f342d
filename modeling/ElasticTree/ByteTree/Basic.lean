import ElasticTree.Bits.ByteString
import ElasticTree.Tree.Surgery
import ElasticTree.Tree.Walk

/-!
# Trees of byte strings

Keys are compared as bit strings over a number of bytes that is given with every
call and stored nowhere.  A branch splits on the number of leading bits that the
keys below it share.  Nodes of equal key hang together in a *group*, a subtree
of branches with negative split values, in the order of their insertion.

On the way down it is known how many leading bits of the key agree with all keys
below, and each comparison starts from there.

## Growing a group

The split values of a group rise from its top to `-1` at its bottom.  A new
member becomes the last of the group.  It is put into the deepest place on the
right edge where a value is skipped, and if there is no such place, above the
whole edge with a value one smaller than the top.
-/

namespace ElasticTree

/-- Trees whose keys are compared as byte strings. -/
abbrev ByteTree (K V : Type) := Tree K V

namespace ByteTree

variable {K V : Type} [ByteKey K]

/-- The bytes of the key of the node called `id`. -/
def keyOf (tree : ByteTree K V) (id : NodeId) : Except Fault ByteArray := do
  return ByteKey.bytes (← tree.node id).key

/-- The number of bits in `length` bytes.  A split value counts bits in 31 bits,
and a longer key is refused. -/
def bitLength (length : Nat) : Except Refusal Nat :=
  if 8 * length ≤ 2147483647 then .ok (8 * length) else .error (.keyTooLong length)

/-- The number of bits in `length` bytes as a word of 64 bits holds it: what
does not fit is dropped. -/
def bitLengthWrapped (length : Nat) : Nat := 8 * length % UInt64.size

/-! ## The way down -/

/-- Where the way down for a key ends. -/
inductive Landing where
  /-- At a link below which the key was found. -/
  | held (position : Position) (link : Link)
  /-- At a link from which the key parts, to one side, after `shared` bits. -/
  | beside (position : Position) (old : Link) (side : Side) (shared : Nat)
  deriving DecidableEq, Repr

/-- Settles how the key stands to one stored below `link`, where `shared` bits
are known to agree. -/
def settle (key stored : ByteArray) (shared length : Nat) (position : Position) (link : Link) :
    Landing :=
  match ByteString.compareBits key stored shared length with
  | .lt => .beside position link .left shared
  | .gt => .beside position link .right shared
  | .eq => .held position link

/-- Follows the way down for `key` from `link`, which hangs at `position`, where
`shared` leading bits are known to agree; with a limit on the branches
passed. -/
def landWithin (tree : ByteTree K V) (key : ByteArray) (length : Nat) :
    Nat → Nat → Position → Link → Except Fault Landing
  | _, shared, position, .leaf leaf => do
      let stored ← tree.keyOf leaf
      let shared := ByteString.commonBits key stored shared length
      return settle key stored shared length position (.leaf leaf)
  | 0, _, _, .branch _ => .error .endless
  | limit + 1, shared, position, .branch owner => do
      let branch ← tree.branch owner
      let stored ← tree.keyOf owner
      if branch.isGroup then
        let shared := ByteString.commonBits key stored shared length
        return settle key stored shared length position (.branch owner)
      else
        let split := branch.split.toNat
        let shared :=
          if shared < split then ByteString.commonBits key stored shared split else shared
        if shared < split then
          return settle key stored shared length position (.branch owner)
        else
          let side := Side.ofBit (ByteString.bitAt key split)
          tree.landWithin key length limit shared (.under owner side) (branch.child side)

/-- Follows the way down for `key` from the root. -/
def land (tree : ByteTree K V) (key : ByteArray) (length : Nat) (root : Link) :
    Except Fault Landing :=
  tree.landWithin key length tree.walkLimit 0 .root root

/-! ## Groups -/

/-- Goes down the right edge from the branch of `bottom` and answers the lowest
branch owner on it, and the owner below which a new member goes: the child of
the lowest place where a split value is skipped, or `top` if there is none. -/
def rightEdgeWithin (tree : ByteTree K V) :
    Nat → (top bottom : NodeId) → Except Fault (NodeId × NodeId)
  | 0, _, _ => .error .endless
  | limit + 1, top, bottom => do
      let branch ← tree.branch bottom
      match branch.right with
      | .leaf _ => return (top, bottom)
      | .branch below =>
          let following ← Tree.checkSplit (branch.split + 1)
          if following < (← tree.branch below).split then
            tree.rightEdgeWithin limit below below
          else tree.rightEdgeWithin limit top below

/-- Links `id` as the last member of the group below the branch of `top`. -/
def growGroup (tree : ByteTree K V) (top id : NodeId) : Except Fault (ByteTree K V) := do
  let (top, bottom) ← tree.rightEdgeWithin tree.walkLimit top top
  let lowest ← tree.branch bottom
  if lowest.split < -1 then
    tree.insertAbove id (.under bottom .right) lowest.right .right (-1)
  else
    let upper ← tree.branch top
    tree.insertAbove id upper.position (.branch top) .right (upper.split - 1)

/-- Links `id`, whose key was found below `link`. -/
def linkEqual (tree : ByteTree K V) (id : NodeId) (position : Position) :
    Link → Except Fault (ByteTree K V)
  | .leaf leaf => tree.insertAbove id position (.leaf leaf) .right (-1)
  | .branch owner => tree.growGroup owner id

/-! ## Insertion -/

/-- Links the detached node called `id`, comparing keys over their first
`length` bytes, behind all nodes of smaller or equal key, and answers it.  If
the tree is unique and holds the key already, nothing changes, and the answer is
the node that holds it. -/
def insert (tree : ByteTree K V) (id : NodeId) (length : Nat) :
    Except Fault (Except Refusal NodeId × ByteTree K V) :=
  match tree.expectDetached id, bitLength length with
  | .error refusal, _ => .ok (.error refusal, tree)
  | .ok _, .error refusal => .ok (.error refusal, tree)
  | .ok node, .ok bits =>
      match tree.root with
      | none => do return (.ok id, ← tree.linkFirst id)
      | some root => do
          match ← tree.land (ByteKey.bytes node.key) bits root with
          | .beside position old side shared =>
              return (.ok id, ← tree.insertAbove id position old side shared)
          | .held position link =>
              if tree.unique then return (.ok (← tree.descend .left link), tree)
              else return (.ok id, ← tree.linkEqual id position link)

end ByteTree

end ElasticTree
