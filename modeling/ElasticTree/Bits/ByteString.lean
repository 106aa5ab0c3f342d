import ElasticTree.Bits.Numeral

/-!
# Byte strings as bit strings

A byte string is read as a string of bits, the most significant bit of its first
byte at position zero, and followed by zeros without end.  Strings are compared
over a length that the caller chooses, so keys of different sizes compare
without being padded first.

The comparison goes byte by byte.  `commonBits` is told how many bits are known
to agree already and starts at the byte those end in; it does not check the bits
before that byte, and it may find a difference inside it.
-/

namespace ElasticTree

/-- Keys that are compared as byte strings. -/
class ByteKey (K : Type) where
  bytes : K → ByteArray

instance : ByteKey ByteArray where
  bytes key := key

/-- A text is compared by its UTF-8 encoding. -/
instance : ByteKey String where
  bytes key := key.toUTF8

namespace ByteString

/-- The byte at `index`, which is zero past the end. -/
def byteAt (string : ByteArray) (index : Nat) : UInt8 :=
  match string[index]? with
  | some byte => byte
  | none => 0

/-- The bit at `position`, most significant bits first. -/
def bitAt (string : ByteArray) (position : Nat) : Bool :=
  (byteAt string (position / 8)).toNat.testBit (7 - position % 8)

/-- The first byte from `start` on in which the strings differ.  There is none
past the end of both. -/
def firstDifferentByte? (first second : ByteArray) (start : Nat) : Option Nat :=
  (List.range' start (max first.size second.size - start)).find? fun index =>
    byteAt first index != byteAt second index

/-- The number of leading bits the strings share, of which at most `length` are
looked at and the first `known` are taken to agree.  The scan starts with the
byte that holds bit `known`. -/
def commonBits (first second : ByteArray) (known length : Nat) : Nat :=
  match firstDifferentByte? first second (known / 8) with
  | none => length
  | some index =>
      let difference := (byteAt first index ^^^ byteAt second index).toNat
      min (8 * index + (8 - topBit difference)) length

/-- Compares the strings over their first `length` bits, of which the first
`known` are taken to agree. -/
def compareBits (first second : ByteArray) (known length : Nat) : Ordering :=
  let position := commonBits first second known length
  if length ≤ position then .eq
  else compare (bitAt first position) (bitAt second position)

end ByteString

end ElasticTree
