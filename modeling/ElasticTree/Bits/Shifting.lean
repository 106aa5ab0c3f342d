import ElasticTree.Fault

/-!
# The shifts of a machine

What a tree of words computes comes down to two operations on a word of fixed
width.  The highest bit is told from the zeros above it, and what two words share
is compared by shifting the rest out.  A machine does not shift a word by its full
width, and a split at the top bit asks for just that, so `bitsFrom` keeps this case
apart.
-/

namespace ElasticTree

namespace Word

variable {width : Nat}

/-- The place of the highest bit, counted from one; a word that is zero has as
many zeros above it as it has bits, and gives zero. -/
def highestBit (word : BitVec width) : Nat := width - word.clz.toNat

/-- The shift to the right, which is there for less than the width. -/
def shiftRight (word : BitVec width) (count : Nat) : Except Fault (BitVec width) :=
  if count < width then .ok (word >>> count) else .error .shiftOverflow

/-- The bits from `count` up, of which there are none past the width. -/
def bitsFrom (word : BitVec width) (count : Nat) : Except Fault (BitVec width) :=
  if width ≤ count then .ok 0 else shiftRight word count

/-- Keeping the full width apart is enough for there always to be a result. -/
theorem bitsFrom_eq (word : BitVec width) (count : Nat) :
    bitsFrom word count = .ok (word >>> count) := by
  unfold bitsFrom shiftRight
  by_cases hwidth : width ≤ count
  · rw [if_pos hwidth, BitVec.ushiftRight_eq_zero hwidth]
    rfl
  · rw [if_neg hwidth, if_pos (Nat.not_le.mp hwidth)]

end Word

end ElasticTree
