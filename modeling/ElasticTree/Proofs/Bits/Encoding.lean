import ElasticTree.Proofs.ByteTree.Keys
import ElasticTree.Proofs.History.Recoding
import ElasticTree.Proofs.WordTree.Keys

/-!
# Words as byte strings

The bytes of a word, the most significant first, hold its bits from the top down.
Two words part at the same bit as their bytes do, and to the same sides, only that
words count its position from the low end and strings from the high end.  So the
bytes of words are ordered like the words (`coding_ofWord`).
-/

namespace ElasticTree

namespace ByteString

variable {width : Nat} {first second : BitVec width}

private theorem byteAt_ofWord (word : BitVec width) {index : Nat} (h : index < width / 8) :
    byteAt (ofWord word) index = (word.toNat >>> (width - 8 * (index + 1))).toUInt8 := by
  have hsize : index < (ofWord word).size := by rwa [size_ofWord]
  rw [byteAt, getElem?_pos (ofWord word) index hsize]
  simp [ofWord, ByteArray.getElem_eq_getElem_data]

/-- The bits of a word stand in its bytes from the top down. -/
theorem bit_ofWord (hwidth : 8 ∣ width) (word : BitVec width) {i : Nat} (h : i < width) :
    bit (padded (width / 8) (ofWord word)) i = word.getLsbD (width - 1 - i) := by
  have hoffset : 7 - i % 8 < 8 := by omega
  have hplace : width - 8 * (i / 8 + 1) + (7 - i % 8) = width - 1 - i := by omega
  calc bit (padded (width / 8) (ofWord word)) i
      = (byteAt (ofWord word) (i / 8)).toNat.testBit (7 - i % 8) := bit_padded _ (by omega)
    _ = ((word.toNat >>> (width - 8 * (i / 8 + 1))) % 2 ^ 8).testBit (7 - i % 8) := by
        rw [byteAt_ofWord word (by omega)]
        rfl
    _ = word.toNat.testBit (width - 8 * (i / 8 + 1) + (7 - i % 8)) := by
        rw [Nat.testBit_mod_two_pow, Nat.testBit_shiftRight]
        simp [hoffset]
    _ = word.getLsbD (width - 1 - i) := by rw [hplace, BitVec.getLsbD]

example : padded 2 (ofWord (0x201 : BitVec 16)) = [2, 1] := by decide

/-- Words that part at a bit from the low end have bytes that part at the same bit
from the high end. -/
theorem padded_ofWord_lt_of_lt (hwidth : 8 ∣ width) (h : first < second) :
    padded (width / 8) (ofWord first) < padded (width / 8) (ofWord second) := by
  have hne : first ≠ second := fun heq => BitVec.lt_irrefl second (heq ▸ h)
  have hsplit := Word.admits_splitOf hne
  have hagree : Word.AgreeFrom (Word.splitOf first second) first second := Word.agreeFrom_splitOf
  obtain ⟨hfirst, hsecond⟩ := Word.belongsOn_splitOf hne
  rw [if_neg (BitVec.not_lt.mpr (BitVec.le_of_lt h))] at hfirst hsecond
  rw [Word.belongsOn_left_iff] at hfirst
  rw [Side.opposite, Word.belongsOn_right_iff] at hsecond
  generalize Word.splitOf first second = split at *
  have hplace : width - 1 - (width - split).toNat = split.toNat - 1 := by omega
  have hnonneg : 0 ≤ width - split := by omega
  refine lt_of_parted hnonneg ?_ ?_ ?_
  · rw [agreeTo_iff_of_nonneg hnonneg]
    intro i hi
    rw [bit_ofWord hwidth first (by omega), bit_ofWord hwidth second (by omega)]
    exact hagree _ (by omega)
  · rw [belongsOn_left_iff hnonneg, bit_ofWord hwidth first (by omega), hplace]
    exact hfirst
  · rw [belongsOn_right_iff hnonneg, bit_ofWord hwidth second (by omega), hplace]
    exact hsecond

/-- Words may be written down as their bytes. -/
theorem coding_ofWord (hwidth : 8 ∣ width) :
    Coding (fun word : BitVec width => word)
      (fun key : ByteArray => padded (width / 8) (ByteKey.bytes key)) ofWord
      (fun word => padded (width / 8) (ofWord word)) where
  view_encode _ := rfl
  injective first second h := by
    have hsame : padded (width / 8) (ofWord first) = padded (width / 8) (ofWord second) := h
    rcases BitVec.lt_trichotomy first second with hlt | heq | hgt
    · exact absurd (hsame ▸ padded_ofWord_lt_of_lt hwidth hlt) (List.lt_irrefl _)
    · exact heq
    · exact absurd (hsame ▸ padded_ofWord_lt_of_lt hwidth hgt) (List.lt_irrefl _)
  lt_iff first second := by
    refine ⟨fun h => ?_, padded_ofWord_lt_of_lt hwidth⟩
    rcases BitVec.lt_trichotomy first second with hlt | heq | hgt
    · exact hlt
    · exact absurd (heq ▸ h) (List.lt_irrefl _)
    · exact absurd h (List.lt_asymm (padded_ofWord_lt_of_lt hwidth hgt))

end ByteString

end ElasticTree
