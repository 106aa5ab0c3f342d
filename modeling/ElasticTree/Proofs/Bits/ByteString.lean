import ElasticTree.Bits.Padding
import ElasticTree.Proofs.Bits.Numeral
import Mathlib.Order.Bounds.Defs

/-!
# The first difference of two byte strings

Comparing two byte strings comes down to finding the first bit in which they
differ, if there is one within the length of the comparison (`PartsAt`).  There
is at most one such place, so it does not matter where a scan for it starts, as
long as all bits before the start are known to agree.
-/

namespace ElasticTree

namespace ByteString

variable {first second : ByteArray} {known limit place : Nat}

/-- The strings agree in all bits before the place, and differ there unless it is
the end of the comparison. -/
structure PartsAt (first second : ByteArray) (limit place : Nat) : Prop where
  le : place ≤ limit
  agrees : ∀ i < place, bitAt first i = bitAt second i
  differs : place < limit → bitAt first place ≠ bitAt second place

theorem PartsAt.unique {place' : Nat} (h : PartsAt first second limit place)
    (h' : PartsAt first second limit place') : place = place' := by
  rcases Nat.lt_trichotomy place place' with hlt | heq | hgt
  · exact absurd (h'.agrees place hlt) (h.differs (Nat.lt_of_lt_of_le hlt h'.le))
  · exact heq
  · exact absurd (h.agrees place' hgt) (h'.differs (Nat.lt_of_lt_of_le hgt h.le))

/-- A shorter comparison that finds a difference finds that of a longer one. -/
theorem PartsAt.extend {limit' : Nat} (h : PartsAt first second limit place) (hlt : place < limit)
    (hle : limit ≤ limit') : PartsAt first second limit' place where
  le := Nat.le_trans h.le hle
  agrees := h.agrees
  differs _ := h.differs hlt

/-! ## Bytes -/

theorem byteAt_of_size_le {string : ByteArray} {index : Nat} (h : string.size ≤ index) :
    byteAt string index = 0 := by
  rw [byteAt, getElem?_neg string index (Nat.not_lt.mpr h)]

theorem bitAt_eq_of_byteAt_eq {i : Nat} (h : byteAt first (i / 8) = byteAt second (i / 8)) :
    bitAt first i = bitAt second i := by
  rw [bitAt, bitAt, h]

private theorem byteAt_eq_of_none {start : Nat}
    (h : firstDifferentByte? first second start = none) :
    ∀ index, start ≤ index → byteAt first index = byteAt second index := by
  intro index hstart
  by_cases hsize : index < max first.size second.size
  · have hmem : index ∈ List.range' start (max first.size second.size - start) := by
      rw [List.mem_range'_1]
      omega
    simpa using List.find?_eq_none.mp h index hmem
  · rw [byteAt_of_size_le (by omega), byteAt_of_size_le (by omega)]

private theorem of_some {start index : Nat}
    (h : firstDifferentByte? first second start = some index) :
    start ≤ index ∧ byteAt first index ≠ byteAt second index ∧
      ∀ other, start ≤ other → other < index → byteAt first other = byteAt second other := by
  rw [firstDifferentByte?, List.find?_range'_eq_some] at h
  refine ⟨(List.mem_range'_1.mp h.2.1).1, by simpa using h.1, fun other hstart hlt => ?_⟩
  simpa using h.2.2 other hstart hlt

/-! ## The scan -/

/-- Inside the first byte that differs, its highest differing bit comes first. -/
private theorem differs_in_byte {index : Nat} (h : byteAt first index ≠ byteAt second index) :
    ∃ offset < 8, 8 - topBit (byteAt first index ^^^ byteAt second index).toNat = offset ∧
      bitAt first (8 * index + offset) ≠ bitAt second (8 * index + offset) ∧
        ∀ i, i / 8 = index → i < 8 * index + offset → bitAt first i = bitAt second i := by
  have hne : (byteAt first index).toNat ≠ (byteAt second index).toNat :=
    fun heq => h (UInt8.toNat_inj.mp heq)
  have hxor : (byteAt first index ^^^ byteAt second index).toNat ≠ 0 := by
    rw [UInt8.toNat_xor]
    exact fun hzero => hne (Nat.xor_eq_zero_iff.mp hzero)
  have hpos := topBit_pos hxor
  have hle : topBit (byteAt first index ^^^ byteAt second index).toNat ≤ 8 :=
    topBit_le (byteAt first index ^^^ byteAt second index).toNat_lt
  have hdiffer := testBit_ne_of_ne hne
  have hagree : ∀ i, topBit ((byteAt first index).toNat ^^^ (byteAt second index).toNat) ≤ i →
      (byteAt first index).toNat.testBit i = (byteAt second index).toNat.testBit i :=
    fun i => testBit_eq_of_topBit_le
  rw [UInt8.toNat_xor] at hpos hle ⊢
  generalize topBit ((byteAt first index).toNat ^^^ (byteAt second index).toNat) = top at *
  refine ⟨8 - top, by omega, rfl, ?_, fun i hi hlt => ?_⟩
  · rw [bitAt, bitAt, show (8 * index + (8 - top)) / 8 = index by omega,
      show 7 - (8 * index + (8 - top)) % 8 = top - 1 by omega]
    exact hdiffer
  · rw [bitAt, bitAt, hi]
    exact hagree (7 - i % 8) (by omega)

/-- The scan starts with the byte that holds bit `known`.  It finds the first
difference from there on, unless the limit comes before it. -/
theorem isLeast_commonBits (first second : ByteArray) (known limit : Nat) :
    IsLeast {place | place = limit ∨
      8 * (known / 8) ≤ place ∧ bitAt first place ≠ bitAt second place}
      (commonBits first second known limit) := by
  unfold commonBits
  cases hfound : firstDifferentByte? first second (known / 8) with
  | none =>
      refine ⟨.inl rfl, ?_⟩
      rintro place (rfl | ⟨hstart, hdiffers⟩)
      · exact Nat.le_refl place
      · exact absurd
          (bitAt_eq_of_byteAt_eq (byteAt_eq_of_none hfound (place / 8) (by omega))) hdiffers
  | some index =>
      obtain ⟨hstart, hne, hsame⟩ := of_some hfound
      obtain ⟨offset, hoffset, heq, hdiffers, hinside⟩ := differs_in_byte hne
      simp only [heq]
      constructor
      · rcases Nat.le_total (8 * index + offset) limit with hle | hle
        · rw [Nat.min_eq_left hle]
          exact .inr ⟨by omega, hdiffers⟩
        · exact .inl (Nat.min_eq_right hle)
      · rintro place (rfl | ⟨hplace, hother⟩)
        · exact Nat.min_le_right _ _
        · by_contra hlt
          have hlt : place < 8 * index + offset :=
            Nat.lt_of_lt_of_le (Nat.not_le.mp hlt) (Nat.min_le_left _ _)
          by_cases hbyte : place / 8 = index
          · exact hother (hinside place hbyte hlt)
          · exact hother (bitAt_eq_of_byteAt_eq (hsame (place / 8) (by omega) (by omega)))

/-- If the bits before the scan agree, what it finds is the first difference of
all. -/
theorem partsAt_commonBits (hknown : ∀ i < known, bitAt first i = bitAt second i) (limit : Nat) :
    PartsAt first second limit (commonBits first second known limit) := by
  obtain ⟨hmem, hleast⟩ := isLeast_commonBits first second known limit
  refine ⟨hleast (.inl rfl), fun i hi => ?_, fun hlt => ?_⟩
  · by_contra hdiffers
    by_cases hlow : i < known
    · exact hdiffers (hknown i hlow)
    · exact absurd (hleast (.inr ⟨by omega, hdiffers⟩)) (Nat.not_le.mpr hi)
  · rcases hmem with heq | ⟨-, hdiffers⟩
    · omega
    · exact hdiffers

theorem commonBits_eq (hknown : ∀ i < known, bitAt first i = bitAt second i)
    (h : PartsAt first second limit place) : commonBits first second known limit = place :=
  (partsAt_commonBits hknown limit).unique h

/-- The strings compare by the bits at their first difference. -/
theorem compareBits_eq (hknown : ∀ i < known, bitAt first i = bitAt second i)
    (h : PartsAt first second limit place) :
    compareBits first second known limit =
      if limit ≤ place then .eq else compare (bitAt first place) (bitAt second place) := by
  rw [compareBits, commonBits_eq hknown h]

end ByteString

end ElasticTree
