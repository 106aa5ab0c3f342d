import ElasticTree.Bits.Scanning
import ElasticTree.Proofs.Bits.ByteString

/-!
# The scan stays within its word

The first difference of two strings does not depend on how it is looked for: the
scan that moves on byte by byte finds what `commonBits` says (`scan_eq`).  Its
position stays within a word of 64 bits as long as the length of the comparison
leaves room for one more byte, and a length that counts whole bytes does.
-/

namespace ElasticTree

namespace ByteString

variable {first second : ByteArray} {known length start : Nat}

/-! ## One byte further -/

private theorem firstDifferentByte?_of_ne (h : byteAt first start ≠ byteAt second start) :
    firstDifferentByte? first second start = some start := by
  have hsize : start < max first.size second.size := by
    by_contra hsize
    exact h (by rw [byteAt_of_size_le (by omega), byteAt_of_size_le (by omega)])
  rw [firstDifferentByte?, List.find?_range'_eq_some, List.mem_range'_1]
  exact ⟨by simpa using h, by omega, fun index hstart hlt => absurd hlt (Nat.not_lt.mpr hstart)⟩

private theorem firstDifferentByte?_of_eq (h : byteAt first start = byteAt second start) :
    firstDifferentByte? first second start = firstDifferentByte? first second (start + 1) := by
  rw [firstDifferentByte?, firstDifferentByte?, Nat.sub_add_eq]
  cases max first.size second.size - start with
  | zero => rfl
  | succ rest =>
      rw [List.range'_succ, List.find?_cons_of_neg (by simpa using h), Nat.add_sub_cancel]

theorem commonBits_of_ne (h : byteAt first (known / 8) ≠ byteAt second (known / 8)) :
    commonBits first second known length =
      min (8 * (known / 8) +
        (8 - topBit (byteAt first (known / 8) ^^^ byteAt second (known / 8)).toNat)) length := by
  rw [commonBits, firstDifferentByte?_of_ne h]

theorem commonBits_of_eq (h : byteAt first (known / 8) = byteAt second (known / 8)) :
    commonBits first second known length = commonBits first second (known + 8) length := by
  rw [commonBits, commonBits, firstDifferentByte?_of_eq h, Nat.add_div_right known (by decide)]

/-- Nothing is left to compare at the end. -/
theorem commonBits_of_le (h : length ≤ 8 * (known / 8)) :
    commonBits first second known length = length := by
  unfold commonBits
  cases hfound : firstDifferentByte? first second (known / 8) with
  | none => rfl
  | some index =>
      have hindex := List.mem_of_find?_eq_some hfound
      rw [List.mem_range'_1] at hindex
      exact Nat.min_eq_right (by omega)

/-! ## The whole scan -/

private theorem scanFrom_eq {position : Nat} (hbyte : 8 * (position / 8) = position)
    (hlength : length + 8 ≤ UInt64.size) :
    scanFrom first second length position = some (commonBits first second position length) := by
  -- by the recursion of the scan, on which all positions are those of whole bytes
  fun_induction scanFrom first second length position with
  | case1 position hdone => rw [commonBits_of_le (by omega)]
  | case2 position hleft difference hdiffers =>
      have hne : byteAt first (position / 8) ≠ byteAt second (position / 8) := fun heq =>
        hdiffers (by simp [difference, heq])
      rw [commonBits_of_ne hne, hbyte]
  | case3 position hleft difference hsame hroom ih =>
      have heq : byteAt first (position / 8) = byteAt second (position / 8) := by
        simpa [difference] using hsame
      rw [ih (by omega), commonBits_of_eq heq]
  | case4 position hleft difference hsame hroom => omega

/-- The scan has an answer, which is the number of bits that the strings share,
unless the length is within a byte of the largest word. -/
theorem scan_eq (first second : ByteArray) (known : Nat) (hlength : length + 8 ≤ UInt64.size) :
    scan first second known length = some (commonBits first second known length) := by
  have hbyte : 8 * (known / 8) / 8 = known / 8 := by omega
  rw [scan, scanFrom_eq (by rw [hbyte]) hlength, commonBits, commonBits, hbyte]

/-- A longer comparison of equal strings leaves the word at its last byte. -/
example : scan .empty .empty (2 ^ 64 - 8) (2 ^ 64 - 1) = none := by
  rw [scan, scanFrom]
  decide

end ByteString

end ElasticTree
