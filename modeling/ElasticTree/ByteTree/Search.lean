import ElasticTree.ByteTree.Basic

/-!
# Searching a tree of byte strings

The way down for a key compares only the bits between one split and the next.
What lies at its end is compared in full, since the bits in between were never
looked at.
-/

namespace ElasticTree

namespace ByteTree

variable {K V : Type} [ByteKey K]

/-- Looks for `key` below `link`, with a limit on the branches passed. -/
def findWithin? (tree : ByteTree K V) (key : ByteArray) (length : Nat) :
    Nat → Nat → Link → Except Fault (Option NodeId)
  | _, _, .leaf leaf => do
      let stored ← tree.keyOf leaf
      return if ByteString.commonBits key stored 0 length = length then some leaf else none
  | 0, _, .branch _ => .error .endless
  | limit + 1, shared, .branch owner => do
      let stored ← tree.keyOf owner
      let branch ← tree.branch owner
      if branch.isGroup then
        if ByteString.commonBits key stored 0 length = length then
          return some (← tree.descend .left (.branch owner))
        else return none
      else
        let split := branch.split.toNat
        let shared := ByteString.commonBits key stored shared split
        if shared < split then return none
        else
          let side := Side.ofBit (ByteString.bitAt key split)
          tree.findWithin? key length limit shared (branch.child side)

/-- The first node whose key equals `key` over `length` bytes. -/
def find? (tree : ByteTree K V) (key : ByteArray) (length : Nat) :
    Except Fault (Option NodeId) :=
  match tree.root with
  | none => .ok none
  | some root => tree.findWithin? key (bitLengthWrapped length) tree.walkLimit 0 root

end ByteTree

end ElasticTree
