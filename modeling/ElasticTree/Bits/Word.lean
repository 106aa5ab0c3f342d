import ElasticTree.Bits.Numeral
import ElasticTree.Bits.Shifting
import ElasticTree.Node

/-!
# Words under a split

A tree of words parts two subtrees at the highest bit in which they differ.  The
split is that bit's position counted from one, so the bits from `split` up are
those that all keys of both subtrees share, and bit `split - 1` tells the sides
apart.

The highest bit is found with `topBit`, and the bits that are shared are what
`bitsFrom` leaves of a word.
-/

namespace ElasticTree

namespace Word

variable {width : Nat}

/-- The bits of a word that the keys on both sides of a split share.  A negative
value is read as a count past every width, so none is left. -/
def highBits (word : BitVec width) (split : Int) : Except Fault (BitVec width) :=
  if split < 0 then .ok 0 else bitsFrom word split.toNat

/-- Whether the words differ in a bit that the keys on both sides of a split
share. -/
def diverge (first second : BitVec width) (split : Int) : Except Fault Bool := do
  return (← highBits (first ^^^ second) split) != 0

/-- The split value at which two different words part. -/
def splitOf (first second : BitVec width) : Int := topBit (first ^^^ second).toNat

/-- The side of a split that a word belongs on.  A split that is no bit position
of the word is a fault. -/
def sideOf (word : BitVec width) (split : Int) : Except Fault Side :=
  if 1 ≤ split ∧ split ≤ width then .ok (.ofBit (word.getLsbD (split.toNat - 1)))
  else .error .shiftOverflow

end Word

end ElasticTree
