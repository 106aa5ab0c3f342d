import ElasticTree.Bits.Numeral
import Mathlib.Data.Nat.Bitwise

/-!
# The highest bit in which two numbers differ

`topBit` of the exclusive or of two numbers is the place, counted from one, of
the highest bit in which they differ.  The numbers agree from there up, and that
bit tells which of them is smaller.
-/

namespace ElasticTree

theorem topBit_pos {n : Nat} (h : n ≠ 0) : 1 ≤ topBit n := by
  rw [topBit, if_neg h]
  omega

theorem testBit_topBit {n : Nat} (h : n ≠ 0) : n.testBit (topBit n - 1) = true := by
  rw [topBit, if_neg h, Nat.add_sub_cancel]
  exact Nat.testBit_log2 h

theorem testBit_of_topBit_le {n i : Nat} (h : topBit n ≤ i) : n.testBit i = false := by
  by_cases hn : n = 0
  · simp [hn]
  · rw [topBit, if_neg hn] at h
    exact Nat.testBit_lt_two_pow
      (Nat.lt_of_lt_of_le Nat.lt_log2_self (Nat.pow_le_pow_right (by omega) h))

theorem topBit_le {n width : Nat} (h : n < 2 ^ width) : topBit n ≤ width := by
  by_cases hn : n = 0
  · simp [topBit, hn]
  · rw [topBit, if_neg hn]
    exact (Nat.log2_lt hn).mpr h

section Xor

variable {first second : Nat}

/-- Above the highest difference there is none. -/
theorem testBit_eq_of_topBit_le {i : Nat} (h : topBit (first ^^^ second) ≤ i) :
    first.testBit i = second.testBit i := by
  have hbit := testBit_of_topBit_le h
  rw [Nat.testBit_xor] at hbit
  simpa using hbit

theorem testBit_ne_of_ne (h : first ≠ second) :
    first.testBit (topBit (first ^^^ second) - 1) ≠
      second.testBit (topBit (first ^^^ second) - 1) := by
  have hbit := testBit_topBit (n := first ^^^ second) (by simpa using h)
  rw [Nat.testBit_xor] at hbit
  simpa using hbit

end Xor

end ElasticTree
