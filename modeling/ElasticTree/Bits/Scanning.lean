import ElasticTree.Bits.ByteString

/-!
# Scanning two byte strings byte by byte

The scan for the first difference keeps its position in a word of 64 bits and
moves on by whole bytes until it reaches the end of the comparison.  The end is
only looked at before a byte and not while moving on, so with a length close to
the largest word the position could leave the word.
-/

namespace ElasticTree

namespace ByteString

/-- Compares the strings byte by byte from `position` on, which is a multiple of
eight, and answers where they part.  There is no answer if the position leaves a
word of 64 bits. -/
def scanFrom (first second : ByteArray) (length position : Nat) : Option Nat :=
  if length ≤ position then some length
  else
    let difference := byteAt first (position / 8) ^^^ byteAt second (position / 8)
    if difference ≠ 0 then some (min (position + (8 - topBit difference.toNat)) length)
    else if position + 8 < UInt64.size then scanFrom first second length (position + 8)
    else none
termination_by length - position

/-- The scan from the start of the byte that holds bit `known`. -/
def scan (first second : ByteArray) (known length : Nat) : Option Nat :=
  scanFrom first second length (8 * (known / 8))

end ByteString

end ElasticTree
