import ElasticTree.ByteTree.Inspection
import ElasticTree.Proofs.Bits.ByteString
import ElasticTree.Proofs.Shape.Placement

/-!
# The discipline of byte strings

In a tree of byte strings the keys below a branch agree in as many leading bits
as its split says, and the next bit tells the sides apart, so splits rise on the
way down.  A negative split makes a group: the keys below are all the same, and
only groups of larger split may follow.

What is compared of a key is its list of bytes over the length of the
comparison, and the order is the lexicographic one.
-/

namespace ElasticTree

namespace ByteString

variable {first second third : List UInt8} {split upper lower : Int}

/-! ## Bits of a list of bytes -/

/-- The byte at `index`, which is zero past the end. -/
def byte (key : List UInt8) (index : Nat) : UInt8 := key.getD index 0

/-- The bit at `position`, most significant bits first. -/
def bit (key : List UInt8) (position : Nat) : Bool :=
  (byte key (position / 8)).toNat.testBit (7 - position % 8)

theorem byte_padded {length index : Nat} (string : ByteArray) (h : index < length) :
    byte (padded length string) index = byteAt string index := by
  rw [byte, padded, List.getD_eq_getElem?_getD, List.getElem?_map, List.getElem?_range h]
  rfl

theorem bit_padded {length i : Nat} (string : ByteArray) (h : i < 8 * length) :
    bit (padded length string) i = bitAt string i := by
  rw [bit, bitAt, byte_padded string (by omega)]

/-- The bits of a byte, the least significant first. -/
private theorem testBit_byte (key : List UInt8) (index : Nat) {i : Nat} :
    (byte key index).toNat.testBit i = (decide (i < 8) && bit key (8 * index + (7 - i))) := by
  by_cases hi : i < 8
  · rw [bit, show (8 * index + (7 - i)) / 8 = index by omega,
      show 7 - (8 * index + (7 - i)) % 8 = i by omega]
    simp [hi]
  · have hpow : 2 ^ 8 ≤ 2 ^ i := Nat.pow_le_pow_right (by omega) (by omega)
    rw [Nat.testBit_lt_two_pow (Nat.lt_of_lt_of_le (UInt8.toNat_lt _) hpow)]
    simp [hi]

/-- Bytes that agree in all their bits are the same. -/
private theorem byte_eq_of_bits {index : Nat}
    (h : ∀ i, i / 8 = index → bit first i = bit second i) :
    byte first index = byte second index := by
  refine UInt8.toNat_inj.mp (Nat.eq_of_testBit_eq fun i => ?_)
  rw [testBit_byte, testBit_byte, h _ (by omega)]

/-- Strings of one length are the same if their bits are. -/
theorem padded_eq_of_bits {length : Nat} {first second : ByteArray}
    (h : ∀ i < 8 * length, bitAt first i = bitAt second i) :
    padded length first = padded length second := by
  rw [padded_eq_iff]
  intro index hindex
  rw [← byte_padded first hindex, ← byte_padded second hindex]
  refine byte_eq_of_bits fun i hi => ?_
  rw [bit_padded first (by omega), bit_padded second (by omega)]
  exact h i (by omega)

/-- A comparison from the first bit on tells whether strings are the same. -/
theorem commonBits_eq_length_iff {length : Nat} {key stored : ByteArray} :
    commonBits key stored 0 (8 * length) = 8 * length ↔
      padded length stored = padded length key := by
  have hnone : ∀ i < 0, bitAt key i = bitAt stored i := fun i hi => absurd hi (Nat.not_lt_zero i)
  constructor
  · intro h
    have hparts := partsAt_commonBits hnone (8 * length)
    rw [h] at hparts
    exact padded_eq_of_bits fun i hi => (hparts.agrees i hi).symm
  · intro h
    refine commonBits_eq hnone ⟨Nat.le_refl _, fun i hi => ?_,
      fun hlt => absurd hlt (Nat.lt_irrefl _)⟩
    rw [← bit_padded key hi, ← bit_padded stored hi, h]

/-! ## Agreement and sides -/

/-- The keys agree in the leading bits of a split, and are the same in a
group. -/
def AgreeTo (split : Int) (first second : List UInt8) : Prop :=
  if split < 0 then first = second else ∀ i : Nat, i < split → bit first i = bit second i

namespace AgreeTo

theorem refl (split : Int) (key : List UInt8) : AgreeTo split key key := by
  unfold AgreeTo
  split <;> simp

theorem symm (h : AgreeTo split first second) : AgreeTo split second first := by
  unfold AgreeTo at h ⊢
  split at h
  · rwa [if_pos ‹_›, eq_comm]
  · rw [if_neg ‹_›]
    exact fun i hi => (h i hi).symm

theorem trans (h : AgreeTo split first second) (h' : AgreeTo split second third) :
    AgreeTo split first third := by
  unfold AgreeTo at h h' ⊢
  split at h
  · rw [if_pos ‹_›] at h' ⊢
    exact Eq.trans h h'
  · rw [if_neg ‹_›] at h' ⊢
    exact fun i hi => (h i hi).trans (h' i hi)

end AgreeTo

/-- The bit at the split says that the key belongs on the side.  In a group it
says nothing. -/
def BelongsOn (split : Int) (side : Side) (key : List UInt8) : Prop :=
  0 ≤ split → Side.ofBit (bit key split.toNat) = side

theorem agreeTo_iff_of_neg (h : split < 0) : AgreeTo split first second ↔ first = second := by
  rw [AgreeTo, if_pos h]

theorem agreeTo_iff_of_nonneg (h : 0 ≤ split) :
    AgreeTo split first second ↔ ∀ i : Nat, i < split → bit first i = bit second i := by
  rw [AgreeTo, if_neg (Int.not_lt.mpr h)]

theorem belongsOn_left_iff (h : 0 ≤ split) :
    BelongsOn split .left first ↔ bit first split.toNat = false := by
  unfold BelongsOn Side.ofBit
  cases bit first split.toNat <;> simp [h]

theorem belongsOn_right_iff (h : 0 ≤ split) :
    BelongsOn split .right first ↔ bit first split.toNat = true := by
  unfold BelongsOn Side.ofBit
  cases bit first split.toNat <;> simp [h]

/-- Whether keys lie on the same side is a matter of one bit. -/
private theorem bit_eq_of_belongsOn {side : Side} (h : 0 ≤ split)
    (hfirst : BelongsOn split side first)
    (hsecond : BelongsOn split side second) : bit first split.toNat = bit second split.toNat := by
  cases side with
  | left => rw [(belongsOn_left_iff h).mp hfirst, (belongsOn_left_iff h).mp hsecond]
  | right => rw [(belongsOn_right_iff h).mp hfirst, (belongsOn_right_iff h).mp hsecond]

private theorem bit_ne_of_opposite {side : Side} (h : 0 ≤ split)
    (hfirst : BelongsOn split side first) (hsecond : BelongsOn split side.opposite second) :
    bit first split.toNat ≠ bit second split.toNat := by
  intro heq
  have hsame : BelongsOn split side second := fun h => heq ▸ hfirst h
  exact absurd ((hsecond h).symm.trans (hsame h)) side.opposite_ne

/-! ## Order -/

/-- The first different byte decides, and a string is smaller than what it is a
beginning of. -/
private theorem lt_of_byte (index : Nat)
    (hsame : ∀ other < index, byte first other = byte second other)
    (hlt : byte first index < byte second index) : first < second := by
  have hsecond : index < second.length := by
    by_contra hnot
    rw [byte, byte, List.getD_eq_default second _ (Nat.not_lt.mp hnot),
      UInt8.lt_iff_toNat_lt] at hlt
    exact absurd hlt (Nat.not_lt_zero _)
  -- both strings have the byte, or the first one ends before it and begins the second
  rw [List.lt_iff_exists]
  by_cases hfirst : index < first.length
  · refine .inr ⟨index, hfirst, hsecond, fun other hother => ?_, ?_⟩
    · have hbyte := hsame other hother
      rwa [byte, byte, List.getD_eq_getElem _ _ (by omega),
        List.getD_eq_getElem _ _ (by omega)] at hbyte
    · rwa [byte, byte, List.getD_eq_getElem _ _ hfirst, List.getD_eq_getElem _ _ hsecond] at hlt
  · refine .inl ⟨List.ext_getElem ?_ fun other hother hother' => ?_, by omega⟩
    · rw [List.length_take]
      omega
    · have hbyte := hsame other (by omega)
      rw [byte, byte, List.getD_eq_getElem _ _ hother, List.getD_eq_getElem _ _ (by omega)] at hbyte
      rw [List.getElem_take]
      exact hbyte

theorem lt_of_parted (hsplit : 0 ≤ split) (hagree : AgreeTo split first second)
    (hfirst : BelongsOn split .left first) (hsecond : BelongsOn split .right second) :
    first < second := by
  rw [agreeTo_iff_of_nonneg hsplit] at hagree
  rw [belongsOn_left_iff hsplit] at hfirst
  rw [belongsOn_right_iff hsplit] at hsecond
  -- the split lies within one byte: those before it are equal, and in it the bit decides
  refine lt_of_byte (split.toNat / 8) (fun other hother => ?_) ?_
  · exact byte_eq_of_bits fun i hi => hagree i (by omega)
  · rw [UInt8.lt_iff_toNat_lt]
    refine Nat.lt_of_testBit (7 - split.toNat % 8) hfirst hsecond fun i hi => ?_
    rw [testBit_byte, testBit_byte]
    by_cases hi8 : i < 8
    · rw [hagree _ (by omega)]
    · simp [hi8]

/-! ## Splits that follow one another -/

theorem deepens_iff {above below : Int} : ByteTree.deepens above below = true ↔
    below < 0 ∧ (above < 0 → above < below) ∨ 0 ≤ above ∧ above < below := by
  unfold ByteTree.deepens
  split <;> simp <;> omega

/-- Keys that agree at a split are alike to all splits above it. -/
private theorem agreeTo_above (hdeepens : ByteTree.deepens upper lower = true)
    (hagree : AgreeTo lower first second) :
    AgreeTo upper first second ∧ ∀ side, BelongsOn upper side first →
      BelongsOn upper side second := by
  rw [deepens_iff] at hdeepens
  by_cases hlower : lower < 0
  · rw [agreeTo_iff_of_neg hlower] at hagree
    subst hagree
    exact ⟨.refl upper first, fun side hside => hside⟩
  · rw [agreeTo_iff_of_nonneg (by omega)] at hagree
    rw [agreeTo_iff_of_nonneg (by omega)]
    refine ⟨fun i hi => hagree i (by omega), fun side hside h => ?_⟩
    rw [← hagree upper.toNat (by omega)]
    exact hside h

/-- Keys that part at a split and go the same way at another part below it. -/
private theorem deepens_of_opposite {side side' : Side} (hlower : 0 ≤ lower)
    (hagree : AgreeTo upper first second) (hfirst : BelongsOn upper side first)
    (hsecond : BelongsOn upper side second) (hfirst' : BelongsOn lower side' first)
    (hsecond' : BelongsOn lower side'.opposite second) : ByteTree.deepens upper lower = true := by
  have hne := bit_ne_of_opposite hlower hfirst' hsecond'
  rw [deepens_iff]
  by_cases hupper : upper < 0
  · rw [(agreeTo_iff_of_neg hupper).mp hagree] at hne
    exact absurd rfl hne
  · have hupper : 0 ≤ upper := Int.not_lt.mp hupper
    refine .inr ⟨hupper, ?_⟩
    rw [agreeTo_iff_of_nonneg hupper] at hagree
    by_contra hnot
    rcases Int.lt_or_eq_of_le (Int.not_lt.mp hnot) with hlt | heq
    · exact hne (hagree lower.toNat (by omega))
    · rw [heq] at hne
      exact hne (bit_eq_of_belongsOn hupper hfirst hsecond)

/-- Keys that agree at a split and do not at another part below the first. -/
private theorem deepens_of_not_agreeTo (hupper : 0 ≤ upper) (hnot : ¬ AgreeTo lower first second)
    (hagree : AgreeTo upper first second) : ByteTree.deepens upper lower = true := by
  rw [deepens_iff]
  by_cases hlower : lower < 0
  · exact .inl ⟨hlower, fun h => absurd h (Int.not_lt.mpr hupper)⟩
  · rw [agreeTo_iff_of_nonneg (by omega)] at hnot
    rw [agreeTo_iff_of_nonneg hupper] at hagree
    refine .inr ⟨hupper, ?_⟩
    by_contra hle
    exact hnot fun i hi => hagree i (by omega)

/-- The discipline of a tree of byte strings that are compared over `length`
bytes. -/
def discipline (length : Nat) : Discipline (List UInt8) where
  admits split := split < 8 * length
  agrees := AgreeTo
  onSide := BelongsOn
  deepens upper lower := ByteTree.deepens upper lower = true
  chains := False
  agrees_refl := .refl
  agrees_symm := .symm
  agrees_trans := .trans
  deepens_trans {upper middle lower} h h' := by
    rw [deepens_iff] at h h' ⊢
    omega
  lt_irrefl key := List.lt_irrefl key
  not_lt {split first second} hagree hfirst hsecond := by
    by_cases hsplit : split < 0
    · rw [(agreeTo_iff_of_neg hsplit).mp hagree]
      exact List.lt_irrefl second
    · exact List.lt_asymm (lt_of_parted (by omega) hagree hfirst hsecond)
  lt := lt_of_parted
  coarsen := agreeTo_above
  sinks hlower hagree hfirst hsecond _ := deepens_of_opposite hlower hagree hfirst hsecond
  rises := deepens_of_not_agreeTo

end ByteString

/-! ## Lengths -/

namespace ByteTree

variable {length : Nat}

theorem bitLength_eq (h : 8 * length < 2 ^ 31) : bitLength length = .ok (8 * length) :=
  if_pos (by omega)

theorem bitLength_of_le (h : 2 ^ 31 ≤ 8 * length) :
    bitLength length = .error (.keyTooLong length) :=
  if_neg (by omega)

/-- Of the bits of a length, a word holds those of a smaller one. -/
theorem bitLengthWrapped_eq_mod (length : Nat) : bitLengthWrapped length = 8 * (length % 2 ^ 61) :=
  Nat.mul_mod_mul_left 8 length (2 ^ 61)

/-- The bits of a length that is accepted fit into a word. -/
theorem bitLengthWrapped_eq (h : 8 * length < 2 ^ 31) : bitLengthWrapped length = 8 * length :=
  Nat.mod_eq_of_lt (Nat.lt_trans h (by decide))

end ByteTree

end ElasticTree
