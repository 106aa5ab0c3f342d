import ElasticTree.ByteTree.Search
import ElasticTree.Proofs.ByteTree.Landing

/-!
# Searching for byte strings

The search takes the way down that insertion takes, and passes a branch only if
the key agrees with its owner in all bits up to the split.  A key that does not
agree there is none of those below.  What the way ends at, a leaf or a group,
holds one key, which is compared in full; the answer is the first node of it.
-/

namespace ElasticTree

open Shape ByteString

namespace ByteTree

variable {K V : Type} [ByteKey K] {tree : ByteTree K V} {length limit shared : Nat}
  {key stored : ByteArray} {context : Context} {hole : Shape} {shape : Option Shape}

/-- A key that parts from the owner before the split is none of those below. -/
private theorem find?_eq_none_of_lt {owner : NodeId} {split place : Nat} {left right : Shape}
    (h : Approaches length tree key shared context (.branch owner split left right))
    (hstored : padded length stored = bytesOf length tree owner)
    (hparts : PartsAt key stored split place) (hlt : place < split) :
    (context.plug (.branch owner split left right)).members.find?
      (fun id => bytesOf length tree id = padded length key) = none := by
  have hadmits : (split : Int) < 8 * length := h.descends.admits
  rw [h.descends.find?_eq h.plain]
  refine List.find?_eq_none.mpr fun id hid hkey => hparts.differs hlt ?_
  have hagree := h.descends.agrees_owner hid
  rw [show tree.rank _ id = padded length key from of_decide_eq_true hkey,
    show tree.rank _ owner = padded length stored from hstored.symm] at hagree
  exact (bitAt_eq_of_agreeTo (by omega) hagree place hlt).symm

private theorem findWithin?_eq (h : Approaches length tree key shared context hole)
    (hlimit : hole.height ≤ limit) :
    tree.findWithin? key (8 * length) limit shared hole.link =
      .ok ((context.plug hole).members.find? fun id =>
        bytesOf length tree id = padded length key) := by
  induction hole generalizing context limit shared with
  | leaf head behind =>
      obtain ⟨stored, hkey, hstored, -⟩ := h.keyOf_eq List.mem_cons_self
      have hleaf := (obeys_plug_iff.mp h.descends.obeys).1
      rw [Shape.link, findWithin?, hkey, Fault.ok_bind,
        h.descends.find?_of_same h.plain fun id hid =>
          (hleaf.eq_of_leaf _ (mem_keys_iff.mpr ⟨id, hid, rfl⟩)).trans hstored.symm]
      simp only [commonBits_eq_length_iff]
      rfl
  | branch owner split left right hleft hright =>
      have howner := h.descends.owner_mem
      obtain ⟨stored, hkey, hstored, hknown⟩ := h.keyOf_eq howner
      rw [Shape.height] at hlimit
      obtain ⟨limit, rfl⟩ : ∃ rest, limit = rest + 1 := ⟨limit - 1, by omega⟩
      rw [Shape.link, findWithin?, hkey, Fault.ok_bind, h.descends.stands.branch_eq, Fault.ok_bind]
      simp only [Branch.isGroup, decide_eq_true_eq]
      by_cases hgroup : split < 0
      · have hsame : ∀ id ∈ (Shape.branch owner split left right).members,
            bytesOf length tree id = padded length stored := fun id hid =>
          ((agreeTo_iff_of_neg hgroup).mp (h.descends.agrees_owner hid)).symm.trans hstored.symm
        rw [if_pos hgroup, h.descends.find?_of_same h.plain hsame]
        simp only [commonBits_eq_length_iff]
        split_ifs
        · rw [← Shape.link, h.descends.stands.descend_eq .left]
          rfl
        · rfl
      · obtain ⟨split, rfl⟩ := Int.eq_ofNat_of_zero_le (Int.not_lt.mp hgroup)
        have hparts := partsAt_commonBits hknown split
        rw [if_neg hgroup]
        simp only [Int.toNat_natCast]
        by_cases hlt : commonBits key stored shared split < split
        · rw [if_pos hlt, find?_eq_none_of_lt h hstored hparts hlt]
          rfl
        · -- all bits up to the split agree, and it is these that are known further down
          have hle := hparts.le
          have heq : commonBits key stored shared split = split := by omega
          have hagrees := h.agrees_owner hstored fun i hi => hparts.agrees i (by omega)
          rw [if_neg hlt, heq]
          cases hside : Side.ofBit (bitAt key split) with
          | left =>
              exact hleft ((h.into_left hagrees hside).mono (Nat.le_max_right _ _)) (by omega)
          | right =>
              exact hright ((h.into_right hagrees hside).mono (Nat.le_max_right _ _)) (by omega)

/-- The search finds the first node whose key is the same over the length. -/
theorem find?_eq (hlength : 8 * length < 2 ^ 31) (h : tree.Stands shape)
    (hobeys : ∀ found ∈ shape, found.Obeys (discipline length) (bytesOf length tree))
    (key : ByteArray) : tree.find? key length =
      .ok ((shape.elim [] Shape.members).find? fun id =>
        bytesOf length tree id = padded length key) := by
  rw [find?, h.root_eq, bitLengthWrapped_eq hlength]
  cases shape with
  | none => rfl
  | some found => exact findWithin?_eq (.root h (hobeys _ rfl) key) h.height_lt.le

end ByteTree

end ElasticTree
