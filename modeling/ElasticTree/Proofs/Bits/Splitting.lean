import ElasticTree.Bits.Shifting
import ElasticTree.Proofs.WordTree.Keys

/-!
# Where two words part

The split of two words is the least number of bits that have to be shifted out of
both for the same to be left (`agreeFrom_iff`).  So what a word has to do with
another is decided above a split from which it does not agree with it, and all words
that agree with the other from there are as good (`splitOf_eq_of_agreeFrom`,
`lt_iff_of_agreeFrom`).
-/

namespace ElasticTree

namespace Word

variable {width : Nat} {first second third : BitVec width} {split : Int}

/-! ## Two words -/

/-- The zeros above the highest bit tell its place. -/
theorem topBit_eq_highestBit (word : BitVec width) : topBit word.toNat = highestBit word := by
  by_cases hzero : word = 0
  · have hclz : word.clz = width := BitVec.clz_eq_iff_eq_zero.mpr hzero
    rw [highestBit, hclz, hzero]
    simp [topBit, Nat.mod_eq_of_lt Nat.lt_two_pow_self]
  · have hwidth : 0 < width := by
      by_contra hnot
      obtain rfl : width = 0 := by omega
      exact hzero (Subsingleton.elim _ _)
    have hne : word.toNat ≠ 0 := fun h => hzero (BitVec.eq_of_toNat_eq h)
    have hlow : width - 1 - word.clz.toNat ≤ word.toNat.log2 :=
      (Nat.le_log2 hne).mpr (BitVec.two_pow_sub_clz_le_toNat_of_ne_zero hwidth hzero)
    have hhigh : word.toNat.log2 < width - word.clz.toNat :=
      (Nat.log2_lt hne).mpr BitVec.toNat_lt_two_pow_sub_clz
    rw [topBit, if_neg hne, highestBit]
    omega

/-- From below their split two words do not agree. -/
theorem lt_splitOf (h : ¬ AgreeFrom split first second) : split < splitOf first second := by
  by_contra hle
  exact h fun i hi => agreeFrom_splitOf i (by omega)

/-- The split is where the words begin to agree. -/
theorem agreeFrom_iff (hsplit : 0 ≤ split) :
    AgreeFrom split first second ↔ splitOf first second ≤ split := by
  refine ⟨fun hagree => ?_, fun hle i hi => agreeFrom_splitOf i (by omega)⟩
  by_contra hlt
  have hne : first ≠ second := by
    rintro rfl
    simp [splitOf, topBit] at hlt
    omega
  -- the words would agree in the very bit that tells them apart
  have hbit := hagree ((splitOf first second).toNat - 1) (by omega)
  obtain ⟨hfirst, hsecond⟩ := belongsOn_splitOf hne
  unfold BelongsOn at hfirst hsecond
  rw [hbit, hsecond] at hfirst
  exact absurd hfirst (Side.opposite_ne _)

/-- Words diverge at every count below their split, and at no other. -/
theorem diverge_eq (hsplit : 0 ≤ split) :
    diverge first second split = .ok (decide (split < splitOf first second)) := by
  by_cases hlt : split < splitOf first second
  · rw [decide_eq_true hlt, diverge_eq_true_iff hsplit, agreeFrom_iff hsplit]
    omega
  · rw [decide_eq_false hlt, diverge_eq_false_iff hsplit, agreeFrom_iff hsplit]
    omega

/-- The same is left of two words if and only if all bits in which they differ are
shifted out. -/
theorem exists_bitsFrom (first second : BitVec width) (count : Nat) :
    ∃ high high', bitsFrom first count = .ok high ∧ bitsFrom second count = .ok high' ∧
      (high = high' ↔ splitOf first second ≤ count) := by
  have hcount : (0 : Int) ≤ count := Int.natCast_nonneg count
  refine ⟨_, _, bitsFrom_eq first count, bitsFrom_eq second count, ?_⟩
  rw [← agreeFrom_iff hcount, ← shift_eq_iff hcount, Int.toNat_natCast]

/-- The bit below the split tells the words apart, and which of them is larger. -/
theorem sideOf_splitOf (h : first ≠ second) :
    sideOf first (splitOf first second) = .ok (if second < first then .right else .left) ∧
      sideOf second (splitOf first second) =
        .ok (if second < first then Side.right else .left).opposite := by
  obtain ⟨hfirst, hsecond⟩ := belongsOn_splitOf h
  have hadmits := admits_splitOf h
  constructor
  · rw [sideOf, if_pos hadmits]
    exact congrArg Except.ok hfirst
  · rw [sideOf, if_pos hadmits]
    exact congrArg Except.ok hsecond

/-! ## A word and those that agree -/

section Agree

variable (hagree : AgreeFrom split second third) (hnot : ¬ AgreeFrom split first second)
include hagree hnot

theorem not_agreeFrom_of_agreeFrom : ¬ AgreeFrom split first third := fun h =>
  hnot fun i hi => (h i hi).trans (hagree i hi).symm

private theorem splitOf_le_splitOf : splitOf first third ≤ splitOf first second := by
  have hlt := lt_splitOf hnot
  refine (agreeFrom_iff splitOf_nonneg).mp fun i hi => ?_
  exact (agreeFrom_splitOf i hi).trans (hagree i (by omega))

/-- A word parts at the same split from all that agree below it. -/
theorem splitOf_eq_of_agreeFrom : splitOf first second = splitOf first third := by
  have hnot' := not_agreeFrom_of_agreeFrom hagree hnot
  exact Int.le_antisymm (splitOf_le_splitOf (fun i hi => (hagree i hi).symm) hnot')
    (splitOf_le_splitOf hagree hnot)

/-- A word lies on the same side of all that agree with each other and not with it. -/
theorem lt_iff_of_agreeFrom (hsplit : 0 ≤ split) :
    (first < second ↔ first < third) ∧ (second < first ↔ third < first) := by
  have hsame := (shift_eq_iff hsplit).mpr hagree
  have hne := fun h => hnot ((shift_eq_iff hsplit).mp h)
  have hne' := fun h => not_agreeFrom_of_agreeFrom hagree hnot ((shift_eq_iff hsplit).mp h)
  constructor
  · calc first < second
        ↔ first >>> split.toNat < second >>> split.toNat := (shift_lt_shift_iff hne).symm
      _ ↔ first >>> split.toNat < third >>> split.toNat := by rw [hsame]
      _ ↔ first < third := shift_lt_shift_iff hne'
  · calc second < first
        ↔ second >>> split.toNat < first >>> split.toNat := (shift_lt_shift_iff (Ne.symm hne)).symm
      _ ↔ third >>> split.toNat < first >>> split.toNat := by rw [hsame]
      _ ↔ third < first := shift_lt_shift_iff (Ne.symm hne')

end Agree

end Word

end ElasticTree
