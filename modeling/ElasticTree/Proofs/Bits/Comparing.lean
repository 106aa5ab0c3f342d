import ElasticTree.Proofs.Bits.Scanning
import ElasticTree.Proofs.ByteTree.Keys
import Mathlib.Order.Defs.Unbundled

/-!
# Comparing bit by bit and byte by byte

Two strings compare over a number of bits as the lists of these bits do
(`compareBits_eq_compare_leading`), and over whole bytes as the lists of the bytes
(`compareBits_eq_compare_padded`).  Both times the first difference decides: the
first byte that differs is the one in which the first differing bit lies, and of
the two bytes that one is larger which has the bit.

Lists of the same length are ordered totally, and so strings are preordered over
any number of bits: those with the same first bits cannot be told apart.
-/

namespace ElasticTree

namespace ByteString

variable {first second : ByteArray} {known limit place : Nat}

/-! ## Lists that part -/

section Lists

variable {α : Type} [Ord α] [Std.ReflOrd α]

/-- What two lists have in common at the front makes no difference. -/
private theorem compare_append_cons (front : List α) {left right : α} (h : compare left right ≠ .eq)
    (rest others : List α) :
    compare (front ++ left :: rest) (front ++ right :: others) = compare left right := by
  induction front with
  | nil =>
      rw [List.nil_append, List.nil_append, List.compare_cons_cons]
      cases hcompare : compare left right with
      | eq => exact absurd hcompare h
      | lt => rfl
      | gt => rfl
  | cons common front ih =>
      rw [List.cons_append, List.cons_append, List.compare_cons_cons, Std.compare_self, ih]
      rfl

/-- Two sequences compare by their first difference. -/
private theorem compare_map_range {left right : Nat → α} (hlt : place < limit)
    (hsame : ∀ i < place, left i = right i) (hne : compare (left place) (right place) ≠ .eq) :
    compare ((List.range limit).map left) ((List.range limit).map right) =
      compare (left place) (right place) := by
  obtain ⟨rest, rfl⟩ : ∃ rest, limit = place + (rest + 1) := ⟨limit - place - 1, by omega⟩
  have hfront : (List.range place).map left = (List.range place).map right :=
    List.map_congr_left fun i hi => hsame i (List.mem_range.mp hi)
  rw [List.range_add, List.range_succ_eq_map, List.map_cons, List.map_append,
    List.map_append, hfront]
  exact compare_append_cons _ hne _ _

end Lists

/-! ## Bits -/

/-- The first `length` bits. -/
def leading (length : Nat) (string : ByteArray) : List Bool :=
  (List.range length).map (bitAt string)

/-- Over any number of bits, strings compare as the lists of these bits. -/
theorem compareBits_eq_compare_leading (first second : ByteArray) (length : Nat) :
    compareBits first second 0 length = compare (leading length first) (leading length second) := by
  have hparts : PartsAt first second length (commonBits first second 0 length) :=
    partsAt_commonBits (by simp) length
  generalize commonBits first second 0 length = place at hparts
  rw [compareBits_eq (by simp) hparts]
  split_ifs with hle
  · have hsame : leading length first = leading length second :=
      List.map_congr_left fun i hi =>
        hparts.agrees i (Nat.lt_of_lt_of_le (List.mem_range.mp hi) hle)
    rw [hsame, Std.compare_self]
  · have hlt := Nat.not_le.mp hle
    refine (compare_map_range hlt hparts.agrees fun heq => hparts.differs hlt ?_).symm
    exact Std.LawfulEqOrd.eq_of_compare heq

/-- What is known to agree does not change the outcome. -/
theorem compareBits_known (hknown : ∀ i < known, bitAt first i = bitAt second i) (length : Nat) :
    compareBits first second known length = compareBits first second 0 length := by
  have hparts := partsAt_commonBits hknown length
  rw [compareBits_eq hknown hparts, compareBits_eq (by simp) hparts]

/-- Over the first `length` bits the string does not come after the other. -/
def AtMost (length : Nat) (first second : ByteArray) : Prop :=
  (compareBits first second 0 length).isLE

/-- The comparison is that of the lists of the first bits. -/
theorem transCmp_compareBits (length : Nat) :
    Std.TransCmp fun first second => compareBits first second 0 length := by
  have hcompare : (fun first second => compareBits first second 0 length) =
      fun first second => compare (leading length first) (leading length second) := by
    funext first second
    exact compareBits_eq_compare_leading first second length
  rw [hcompare]
  exact { eq_swap := Std.OrientedCmp.eq_swap
          isLE_trans := Std.TransCmp.isLE_trans }

/-- Any two strings compare over any number of bits. -/
theorem preorder_atMost (length : Nat) :
    IsPreorder ByteArray (AtMost length) ∧ Std.Total (AtMost length) := by
  have htrans := transCmp_compareBits length
  have htotal : Std.Total (AtMost length) := ⟨fun first second => by
    rw [AtMost, AtMost, htrans.eq_swap (a := second), Ordering.isLE_swap]
    cases compareBits first second 0 length <;> simp⟩
  exact ⟨{ refl := fun string => (or_self_iff.mp (htotal.total string string))
           trans := fun _ _ _ => htrans.isLE_trans }, htotal⟩

/-! ## Bytes -/

/-- Of two bytes that agree down to a bit, the one with the bit is larger. -/
private theorem byteAt_lt (hsame : ∀ i < place, bitAt first i = bitAt second i)
    (hfirst : bitAt first place = false) (hsecond : bitAt second place = true) :
    byteAt first (place / 8) < byteAt second (place / 8) := by
  rw [UInt8.lt_iff_toNat_lt]
  refine Nat.lt_of_testBit (7 - place % 8) hfirst hsecond fun i hi => ?_
  by_cases hi8 : i < 8
  · have hbit := hsame (8 * (place / 8) + (7 - i)) (by omega)
    rwa [bitAt, bitAt, show (8 * (place / 8) + (7 - i)) / 8 = place / 8 by omega,
      show 7 - (8 * (place / 8) + (7 - i)) % 8 = i by omega] at hbit
  · have hpow : 2 ^ 8 ≤ 2 ^ i := Nat.pow_le_pow_right (by omega) (by omega)
    rw [Nat.testBit_lt_two_pow (Nat.lt_of_lt_of_le (UInt8.toNat_lt _) hpow),
      Nat.testBit_lt_two_pow (Nat.lt_of_lt_of_le (UInt8.toNat_lt _) hpow)]

/-- Bytes compare by the first bit in which they differ. -/
private theorem compare_byteAt (hsame : ∀ i < place, bitAt first i = bitAt second i)
    (hne : bitAt first place ≠ bitAt second place) :
    compare (byteAt first (place / 8)) (byteAt second (place / 8)) =
      compare (bitAt first place) (bitAt second place) := by
  cases hfirst : bitAt first place <;> cases hsecond : bitAt second place
  · exact absurd (hfirst.trans hsecond.symm) hne
  · exact Std.compare_eq_lt.mpr (byteAt_lt hsame hfirst hsecond)
  · exact Std.compare_eq_gt.mpr (byteAt_lt (fun i hi => (hsame i hi).symm) hsecond hfirst)
  · exact absurd (hfirst.trans hsecond.symm) hne

/-- Bytes all of whose bits agree are the same. -/
private theorem byteAt_eq (hsame : ∀ i < place, bitAt first i = bitAt second i) {index : Nat}
    (hindex : 8 * index + 8 ≤ place) : byteAt first index = byteAt second index := by
  have hpadded : padded (index + 1) first = padded (index + 1) second :=
    padded_eq_of_bits fun i hi => hsame i (by omega)
  exact padded_eq_iff.mp hpadded index (Nat.lt_succ_self index)

/-- Over whole bytes, strings compare as the lists of these bytes. -/
theorem compareBits_eq_compare_padded (first second : ByteArray) (bytes : Nat) :
    compareBits first second 0 (8 * bytes) =
      compare (padded bytes first) (padded bytes second) := by
  have hparts : PartsAt first second (8 * bytes) (commonBits first second 0 (8 * bytes)) :=
    partsAt_commonBits (by simp) (8 * bytes)
  generalize commonBits first second 0 (8 * bytes) = place at hparts
  rw [compareBits_eq (by simp) hparts]
  split_ifs with hle
  · rw [padded_eq_of_bits fun i hi => hparts.agrees i (by omega), Std.compare_self]
  · have hne := hparts.differs (Nat.not_le.mp hle)
    have hbyte := compare_byteAt hparts.agrees hne
    have hbefore : ∀ index < place / 8, byteAt first index = byteAt second index :=
      fun index hindex => byteAt_eq hparts.agrees (by omega)
    rw [← hbyte]
    refine (compare_map_range (by omega : place / 8 < bytes) hbefore ?_).symm
    rw [hbyte]
    exact fun heq => hne (Std.LawfulEqOrd.eq_of_compare heq)

/-! ## Both together -/

/-- The first bits in which the strings agree, up to a length. -/
theorem isGreatest_of_agree (hknown : ∀ i < known, bitAt first i = bitAt second i) (limit : Nat) :
    IsGreatest {place | place ≤ limit ∧ ∀ i < place, bitAt first i = bitAt second i}
      (commonBits first second known limit) := by
  have hparts := partsAt_commonBits hknown limit
  refine ⟨⟨hparts.le, hparts.agrees⟩, fun place ⟨hle, hagrees⟩ => ?_⟩
  by_contra hlt
  have hlt := Nat.not_le.mp hlt
  exact hparts.differs (Nat.lt_of_lt_of_le hlt hle) (hagrees _ hlt)

/-- The scan for the first difference finds it: with a length that leaves room for one
more byte in a word it has an answer, which is the first place from the start of the
byte with bit `known` at which the strings differ, or the length if that comes first.
If the strings agree up to there, this is how many bits they have in common, up to the
length.

Comparing over whole bytes is comparing the lists of these bytes, cut or padded with
zeros.  A comparison that skips bits which agree has the outcome of one that does not,
and over any number of bits the strings are preordered totally. -/
theorem comparing_exact :
    (∀ (first second : ByteArray) (known length : Nat), length + 8 ≤ UInt64.size →
      ∃ place, scan first second known length = some place ∧
        commonBits first second known length = place ∧
        IsLeast {place | place = length ∨
          8 * (known / 8) ≤ place ∧ bitAt first place ≠ bitAt second place} place ∧
        ((∀ i < 8 * (known / 8), bitAt first i = bitAt second i) →
          IsGreatest {place | place ≤ length ∧ ∀ i < place, bitAt first i = bitAt second i}
            place)) ∧
    (∀ (first second : ByteArray) (bytes : Nat), compareBits first second 0 (8 * bytes) =
      compare (padded bytes first) (padded bytes second)) ∧
    (∀ (first second : ByteArray) (known length : Nat),
      (∀ i < known, bitAt first i = bitAt second i) →
        compareBits first second known length = compareBits first second 0 length) ∧
    ∀ length, Std.OrientedCmp (fun first second => compareBits first second 0 length) ∧
      IsPreorder ByteArray (AtMost length) ∧ Std.Total (AtMost length) := by
  refine ⟨fun first second known length hlength => ?_, compareBits_eq_compare_padded,
    fun first second known length hknown => compareBits_known hknown length,
    fun length => ⟨(transCmp_compareBits length).toOrientedCmp, preorder_atMost length⟩⟩
  refine ⟨_, scan_eq first second known hlength, rfl,
    isLeast_commonBits first second known length, fun hknown => ?_⟩
  -- the scan starts in the same place if only the whole bytes before it are known
  have hstart : commonBits first second (8 * (known / 8)) length =
      commonBits first second known length := by
    rw [commonBits, commonBits, show 8 * (known / 8) / 8 = known / 8 by omega]
  rw [← hstart]
  exact isGreatest_of_agree hknown length

/-- Two strings of different sizes that part in the third byte, where the shorter one
has ended. -/
private def brief : ByteArray := ⟨#[97]⟩

private def lengthy : ByteArray := ⟨#[97, 0, 16, 98]⟩

theorem comparing_exact_unaligned :
    22 + 8 ≤ UInt64.size ∧ (∀ i < 13, bitAt brief i = bitAt lengthy i) ∧
      scan brief lengthy 13 22 = some 19 ∧ scan brief lengthy 13 18 = some 18 ∧
      IsLeast {place | place = 22 ∨
        8 * (13 / 8) ≤ place ∧ bitAt brief place ≠ bitAt lengthy place} 19 ∧
      IsGreatest {place | place ≤ 22 ∧ ∀ i < place, bitAt brief i = bitAt lengthy i} 19 ∧
      compareBits brief lengthy 13 22 = compareBits brief lengthy 0 22 ∧
      compareBits brief lengthy 0 (8 * 3) = compare (padded 3 brief) (padded 3 lengthy) := by
  have hagree : ∀ i < 13, bitAt brief i = bitAt lengthy i := by decide
  obtain ⟨hscans, hbytes, hknown, -⟩ := comparing_exact
  obtain ⟨place, hscan, hplace, hleast, hgreatest⟩ := hscans brief lengthy 13 22 (by decide)
  obtain ⟨capped, hcapped, hcap, -⟩ := hscans brief lengthy 13 18 (by decide)
  obtain rfl : place = 19 := hplace.symm.trans (by decide +kernel)
  obtain rfl : capped = 18 := hcap.symm.trans (by decide +kernel)
  exact ⟨by decide, hagree, hscan, hcapped, hleast, hgreatest fun i hi => hagree i (by omega),
    hknown brief lengthy 13 22 hagree, hbytes brief lengthy 3⟩

end ByteString

end ElasticTree
