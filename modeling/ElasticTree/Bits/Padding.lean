import ElasticTree.Bits.ByteString

/-!
# Byte strings cut or padded to a length

What a comparison over a number of bytes sees of a key: its first bytes, with
zeros where it has none.  Two keys are equal over a length if they look the same
in this way, and their order is the lexicographic order of what is seen.
-/

namespace ElasticTree

namespace ByteString

/-- The first `length` bytes, with zeros past the end. -/
def padded (length : Nat) (string : ByteArray) : List UInt8 :=
  (List.range length).map (byteAt string)

@[simp] theorem length_padded (length : Nat) (string : ByteArray) :
    (padded length string).length = length := by
  simp [padded]

theorem padded_eq_iff {length : Nat} {first second : ByteArray} :
    padded length first = padded length second ↔
      ∀ index < length, byteAt first index = byteAt second index := by
  simp [padded]

/-- A word of `width` bits as a byte string, the most significant byte first. -/
def ofWord {width : Nat} (word : BitVec width) : ByteArray :=
  ⟨((List.range (width / 8)).map fun index =>
    (word.toNat >>> (width - 8 * (index + 1))).toUInt8).toArray⟩

@[simp] theorem size_ofWord {width : Nat} (word : BitVec width) :
    (ofWord word).size = width / 8 := by
  simp [ofWord, ByteArray.size]

end ByteString

end ElasticTree
