import ElasticTree.ByteTree.Search
import ElasticTree.Shape.Unfolding
import ElasticTree.Bits.Padding

/-!
# Comparing afresh

Insertion and search carry along how many leading bits of the key agree with all
keys below, and skip these bits in every comparison.  Here they are written down
without that: each comparison, at a branch as at a leaf, starts from the first
bit and looks at whatever it needs.  This is what the count that is carried along
has to come to.

`TopOfGroup` says where a key may be found on the way down, if not at a leaf.
-/

namespace ElasticTree

namespace ByteTree

variable {K V : Type} [ByteKey K]

namespace Afresh

/-! ## Insertion -/

/-- Settles how the key stands to one stored below `link`, with which it shares
`shared` bits. -/
def settle (key stored : ByteArray) (shared length : Nat) (position : Position) (link : Link) :
    Landing :=
  match ByteString.compareBits key stored 0 length with
  | .lt => .beside position link .left shared
  | .gt => .beside position link .right shared
  | .eq => .held position link

/-- Follows the way down for `key` from `link`, which hangs at `position`, with a
limit on the branches passed. -/
def landWithin (tree : ByteTree K V) (key : ByteArray) (length : Nat) :
    Nat → Position → Link → Except Fault Landing
  | _, position, .leaf leaf => do
      let stored ← tree.keyOf leaf
      let shared := ByteString.commonBits key stored 0 length
      return settle key stored shared length position (.leaf leaf)
  | 0, _, .branch _ => .error .endless
  | limit + 1, position, .branch owner => do
      let branch ← tree.branch owner
      let stored ← tree.keyOf owner
      if branch.isGroup then
        let shared := ByteString.commonBits key stored 0 length
        return settle key stored shared length position (.branch owner)
      else
        let split := branch.split.toNat
        let shared := ByteString.commonBits key stored 0 split
        if shared < split then
          return settle key stored shared length position (.branch owner)
        else
          let side := Side.ofBit (ByteString.bitAt key split)
          landWithin tree key length limit (.under owner side) (branch.child side)

/-- Follows the way down for `key` from the root. -/
def land (tree : ByteTree K V) (key : ByteArray) (length : Nat) (root : Link) :
    Except Fault Landing :=
  landWithin tree key length tree.walkLimit .root root

/-- Links the detached node called `id` as `ByteTree.insert` does. -/
def insert (tree : ByteTree K V) (id : NodeId) (length : Nat) :
    Except Fault (Except Refusal NodeId × ByteTree K V) :=
  match tree.expectDetached id, bitLength length with
  | .error refusal, _ => .ok (.error refusal, tree)
  | .ok _, .error refusal => .ok (.error refusal, tree)
  | .ok node, .ok bits =>
      match tree.root with
      | none => do return (.ok id, ← tree.linkFirst id)
      | some root => do
          match ← land tree (ByteKey.bytes node.key) bits root with
          | .beside position old side shared =>
              return (.ok id, ← tree.insertAbove id position old side shared)
          | .held position link =>
              if tree.unique then return (.ok (← tree.descend .left link), tree)
              else return (.ok id, ← tree.linkEqual id position link)

/-! ## Search -/

/-- Looks for `key` below `link`, with a limit on the branches passed. -/
def findWithin? (tree : ByteTree K V) (key : ByteArray) (length : Nat) :
    Nat → Link → Except Fault (Option NodeId)
  | _, .leaf leaf => do
      let stored ← tree.keyOf leaf
      return if ByteString.commonBits key stored 0 length = length then some leaf else none
  | 0, .branch _ => .error .endless
  | limit + 1, .branch owner => do
      let stored ← tree.keyOf owner
      let branch ← tree.branch owner
      if branch.isGroup then
        if ByteString.commonBits key stored 0 length = length then
          return some (← tree.descend .left (.branch owner))
        else return none
      else
        let split := branch.split.toNat
        if ByteString.commonBits key stored 0 split < split then return none
        else
          let side := Side.ofBit (ByteString.bitAt key split)
          findWithin? tree key length limit (branch.child side)

/-- The first node whose key equals `key` over `length` bytes. -/
def find? (tree : ByteTree K V) (key : ByteArray) (length : Nat) :
    Except Fault (Option NodeId) :=
  match tree.root with
  | none => .ok none
  | some root => findWithin? tree key (bitLengthWrapped length) tree.walkLimit root

end Afresh

/-! ## Where a key is found -/

/-- The branch of `owner`, which hangs at `position`, is the topmost of a group,
and all nodes of the group have the key over `length` bytes. -/
structure TopOfGroup (length : Nat) (tree : ByteTree K V) (key : ByteArray) (position : Position)
    (owner : NodeId) : Prop where
  group : ∃ branch, tree.branch owner = .ok branch ∧ branch.isGroup = true ∧
    branch.position = position
  topmost : ∀ above side, position = .under above side →
    ∃ upper, tree.branch above = .ok upper ∧ upper.isGroup = false
  holds : ∃ shape, tree.Unfolds position (.branch owner) shape ∧ ∀ id ∈ shape.members,
    ∃ node, tree.nodes.get? id = some node ∧
      ByteString.padded length (ByteKey.bytes node.key) = ByteString.padded length key

/-- On the tree it makes no difference that bits which are known to agree are
skipped: insertion and search over the length do what they do afresh.  A way down
that finds the key at a branch ends at the topmost of its group, and never at a
branch of different keys. -/
structure SkipsSafely (length : Nat) (tree : ByteTree K V) : Prop where
  insert_eq : ∀ id, insert tree id length = Afresh.insert tree id length
  find_eq : ∀ key, ∃ found, find? tree key length = .ok found ∧
    Afresh.find? tree key length = .ok found
  tops : ∀ root key, tree.root = some root →
    ∃ landing, land tree key (8 * length) root = .ok landing ∧
    ∀ position owner, landing = .held position (.branch owner) →
      TopOfGroup length tree key position owner

end ByteTree

end ElasticTree
