import ElasticTree.Bits.Word
import ElasticTree.Proofs.Bits.Numeral
import ElasticTree.Proofs.Shape.Placement

/-!
# The discipline of words

In a tree of words the keys below a branch agree from its split up, and the bit
below the split tells the sides apart, so splits fall on the way down.  What the
tree computes is read in these terms: `diverge` finds out that a word does not
agree, `sideOf` where it belongs, and `splitOf` where two words part.
-/

namespace ElasticTree

namespace Word

variable {width : Nat} {first second : BitVec width} {split : Int}

/-- The words agree in all bits from the split up. -/
def AgreeFrom (split : Int) (first second : BitVec width) : Prop :=
  ∀ i : Nat, split ≤ i → first.getLsbD i = second.getLsbD i

/-- The bit below the split says that the word belongs on the side. -/
def BelongsOn (split : Int) (side : Side) (word : BitVec width) : Prop :=
  Side.ofBit (word.getLsbD (split.toNat - 1)) = side

theorem belongsOn_left_iff :
    BelongsOn split .left first ↔ first.getLsbD (split.toNat - 1) = false := by
  unfold BelongsOn Side.ofBit
  cases first.getLsbD (split.toNat - 1) <;> simp

theorem belongsOn_right_iff :
    BelongsOn split .right first ↔ first.getLsbD (split.toNat - 1) = true := by
  unfold BelongsOn Side.ofBit
  cases first.getLsbD (split.toNat - 1) <;> simp

/-- Words on opposite sides differ in the bit below the split. -/
private theorem ne_of_opposite {side : Side} (hfirst : BelongsOn split side first)
    (hsecond : BelongsOn split side.opposite second) :
    first.getLsbD (split.toNat - 1) ≠ second.getLsbD (split.toNat - 1) := by
  intro heq
  unfold BelongsOn at hfirst hsecond
  rw [heq, hsecond] at hfirst
  exact absurd hfirst side.opposite_ne

theorem lt_of_parted (hagree : AgreeFrom split first second) (hfirst : BelongsOn split .left first)
    (hsecond : BelongsOn split .right second) : first < second := by
  rw [belongsOn_left_iff] at hfirst
  rw [belongsOn_right_iff] at hsecond
  refine BitVec.lt_def.mpr (Nat.lt_of_testBit (split.toNat - 1) hfirst hsecond fun i hi => ?_)
  exact hagree i (by omega)

/-- The discipline of a tree of words. -/
def discipline (width : Nat) : Discipline (BitVec width) where
  admits split := 1 ≤ split ∧ split ≤ width
  agrees := AgreeFrom
  onSide := BelongsOn
  deepens upper lower := lower < upper
  chains := True
  agrees_refl _ _ _ _ := rfl
  agrees_symm h i hi := (h i hi).symm
  agrees_trans h h' i hi := (h i hi).trans (h' i hi)
  deepens_trans h h' := Int.lt_trans h' h
  lt_irrefl key := BitVec.lt_irrefl key
  not_lt hagree hfirst hsecond :=
    BitVec.not_lt.mpr (BitVec.le_of_lt (lt_of_parted hagree hfirst hsecond))
  lt _ := lt_of_parted
  coarsen {upper lower first second} hdeepens hagree := by
    refine ⟨fun i hi => hagree i (by omega), fun side hside => ?_⟩
    unfold BelongsOn at hside ⊢
    rwa [← hagree (upper.toNat - 1) (by omega)]
  sinks {upper lower first second side side'} hlower hupper_agree hfirst hsecond hagree hfirst'
    hsecond' := by
    have hne := ne_of_opposite hfirst' hsecond'
    have hsame : first.getLsbD (upper.toNat - 1) = second.getLsbD (upper.toNat - 1) := by
      unfold BelongsOn at hfirst hsecond
      rw [← hsecond] at hfirst
      revert hfirst
      cases first.getLsbD (upper.toNat - 1) <;> cases second.getLsbD (upper.toNat - 1) <;>
        simp [Side.ofBit]
    by_contra hnot
    rcases Int.lt_or_eq_of_le (Int.not_lt.mp hnot) with hlt | heq
    · exact hne (hupper_agree (lower.toNat - 1) (by omega))
    · exact hne (heq ▸ hsame)
  rises {upper lower first second} _ hnot hagree := by
    by_contra hle
    exact hnot fun i hi => hagree i (by omega)

/-! ## What the tree computes -/

/-- At every split there is something left of a word, if only zero. -/
theorem highBits_eq (hsplit : 0 ≤ split) (word : BitVec width) :
    highBits word split = .ok (word >>> split.toNat) := by
  rw [highBits, if_neg (Int.not_lt.mpr hsplit), bitsFrom_eq]

theorem shift_eq_iff (hsplit : 0 ≤ split) :
    first >>> split.toNat = second >>> split.toNat ↔ AgreeFrom split first second := by
  constructor
  · intro h i hi
    have hbit := congrArg (fun word : BitVec width => word.getLsbD (i - split.toNat)) h
    simp only [BitVec.getLsbD_ushiftRight] at hbit
    rwa [show split.toNat + (i - split.toNat) = i by omega] at hbit
  · intro h
    refine BitVec.eq_of_getLsbD_eq fun i hi => ?_
    rw [BitVec.getLsbD_ushiftRight, BitVec.getLsbD_ushiftRight, h (split.toNat + i) (by omega)]

theorem diverge_eq_false_iff (hsplit : 0 ≤ split) :
    diverge first second split = .ok false ↔ AgreeFrom split first second := by
  rw [← shift_eq_iff hsplit, ← BitVec.xor_eq_zero_iff, ← BitVec.ushiftRight_xor_distrib, diverge,
    highBits_eq hsplit, Fault.ok_bind]
  simp [pure, Except.pure]

theorem diverge_eq_true_iff (hsplit : 0 ≤ split) :
    diverge first second split = .ok true ↔ ¬ AgreeFrom split first second := by
  rw [← diverge_eq_false_iff hsplit, diverge, highBits_eq hsplit, Fault.ok_bind]
  simp [pure, Except.pure]

/-- Words that differ above a split are in the order of what they are there. -/
theorem shift_lt_shift_iff {count : Nat} (h : first >>> count ≠ second >>> count) :
    first >>> count < second >>> count ↔ first < second := by
  have hne : first.toNat / 2 ^ count ≠ second.toNat / 2 ^ count := fun heq =>
    h (BitVec.eq_of_toNat_eq (by simpa [Nat.shiftRight_eq_div_pow] using heq))
  simp only [BitVec.lt_def, BitVec.toNat_ushiftRight, Nat.shiftRight_eq_div_pow]
  constructor
  · exact fun hlt => lt_of_not_ge fun hle => absurd hlt (Nat.not_lt.mpr (Nat.div_le_div_right hle))
  · exact fun hlt => lt_of_le_of_ne (Nat.div_le_div_right hlt.le) hne

theorem sideOf_eq (hsplit : 1 ≤ split ∧ split ≤ width) (word : BitVec width) :
    ∃ side, sideOf word split = .ok side ∧ BelongsOn split side word :=
  ⟨_, if_pos hsplit, rfl⟩

theorem splitOf_nonneg : 0 ≤ splitOf first second := by
  unfold splitOf
  omega

theorem agreeFrom_splitOf : AgreeFrom (splitOf first second) first second := by
  intro i hi
  unfold splitOf at hi
  rw [BitVec.toNat_xor] at hi
  exact testBit_eq_of_topBit_le (by omega)

/-- Two words part at their split, the smaller one to the left. -/
theorem belongsOn_splitOf (h : first ≠ second) :
    BelongsOn (splitOf first second) (if second < first then .right else .left) first ∧
      BelongsOn (splitOf first second) (if second < first then Side.right else .left).opposite
        second := by
  have hne : first.getLsbD ((splitOf first second).toNat - 1) ≠
      second.getLsbD ((splitOf first second).toNat - 1) := by
    unfold splitOf
    rw [BitVec.toNat_xor, Int.toNat_natCast]
    exact testBit_ne_of_ne fun heq => h (BitVec.eq_of_toNat_eq heq)
  cases hfirst : first.getLsbD ((splitOf first second).toNat - 1) with
  | false =>
      rw [hfirst] at hne
      have hleft := belongsOn_left_iff.mpr hfirst
      have hright := belongsOn_right_iff.mpr (Bool.eq_true_of_not_eq_false (Ne.symm hne))
      have hlt := lt_of_parted agreeFrom_splitOf hleft hright
      rw [if_neg (BitVec.not_lt.mpr (BitVec.le_of_lt hlt))]
      exact ⟨hleft, hright⟩
  | true =>
      rw [hfirst] at hne
      have hright := belongsOn_right_iff.mpr hfirst
      have hleft := belongsOn_left_iff.mpr (Bool.eq_false_of_not_eq_true (Ne.symm hne))
      have hlt := lt_of_parted (fun i hi => (agreeFrom_splitOf i hi).symm) hleft hright
      rw [if_pos hlt]
      exact ⟨hright, hleft⟩

theorem admits_splitOf (h : first ≠ second) :
    1 ≤ splitOf first second ∧ splitOf first second ≤ width := by
  unfold splitOf
  have hne : (first ^^^ second).toNat ≠ 0 := by
    rw [BitVec.toNat_xor]
    intro hzero
    exact h (BitVec.eq_of_toNat_eq (Nat.xor_eq_zero_iff.mp hzero))
  have hpos := topBit_pos hne
  have hle := topBit_le (first ^^^ second).isLt
  omega

end Word

end ElasticTree
