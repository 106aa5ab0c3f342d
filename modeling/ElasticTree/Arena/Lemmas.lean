import ElasticTree.Arena.Basic
import Mathlib.Algebra.Group.Nat.Defs

/-!
# What an arena answers

An arena is seen through `get?`.  Changing, releasing and adding a record each
have one lemma that says what `get?` answers afterwards, for every name.  The
first two hold of every arena; adding needs a sound one, in which the list of
vacant slots is right about which slots are vacant.
-/

namespace ElasticTree

namespace Arena

variable {α β : Type} {arena : Arena α} {id other : NodeId}

/-! ## Fetching -/

theorem fetch_eq_ok_iff {value : α} :
    arena.fetch id = .ok value ↔ arena.get? id = some value := by
  unfold fetch
  cases arena.get? id <;> simp

theorem fetch_of_get? {value : α} (h : arena.get? id = some value) :
    arena.fetch id = .ok value :=
  fetch_eq_ok_iff.mpr h

theorem update_of_get? {value : α} (change : α → α) (h : arena.get? id = some value) :
    arena.update id change = .ok (arena.modify id change) := by
  simp [update, h]

/-! ## Changing in place -/

theorem get?_modify (change : α → α) :
    (arena.modify id change).get? other =
      if other = id then (arena.get? id).map change else arena.get? other := by
  unfold get? modify
  rw [Array.getElem?_modify]
  by_cases hindex : id.index.toNat = other.index.toNat
  · rw [if_pos hindex, ← hindex]
    cases hslot : arena.slots[id.index.toNat]? with
    | none => simp
    | some slot =>
        simp only [Option.map_some]
        have hsame : other = id ↔ other.generation = id.generation := by
          constructor
          · rintro rfl
            rfl
          · intro h
            cases other
            cases id
            simp only [NodeId.mk.injEq]
            exact ⟨(UInt32.toNat_inj.mp hindex).symm, h⟩
        by_cases hid : slot.generation = id.generation
        · by_cases hother : other.generation = id.generation
          · simp [hid, hsame, hother]
          · have : ¬ id.generation = other.generation := fun h => hother h.symm
            simp [hid, hsame, hother, this]
        · by_cases hother : other.generation = id.generation
          · simp [hid, hsame, hother]
          · simp [hid, hsame, hother]
  · have hne : other ≠ id := by
      rintro rfl
      exact hindex rfl
    rw [if_neg hindex, if_neg hne]

@[simp] theorem get?_modify_self (change : α → α) :
    (arena.modify id change).get? id = (arena.get? id).map change := by
  simp [get?_modify]

theorem get?_modify_of_ne (change : α → α) (h : other ≠ id) :
    (arena.modify id change).get? other = arena.get? other := by
  simp [get?_modify, h]

@[simp] theorem vacant_modify (change : α → α) :
    (arena.modify id change).vacant = arena.vacant := rfl

@[simp] theorem size_modify (change : α → α) : (arena.modify id change).size = arena.size := rfl

@[simp] theorem slotCount_modify (change : α → α) :
    (arena.modify id change).slotCount = arena.slotCount := by
  simp [slotCount, modify]

/-! ## Releasing -/

theorem remove_of_get?_eq_none (h : arena.get? id = none) : arena.remove id = (none, arena) := by
  simp [remove, h]

theorem slots_remove_of_get? {value : α} (h : arena.get? id = some value) :
    (arena.remove id).2.slots = arena.slots.modify id.index.toNat fun slot =>
      { generation := slot.generation + 1, value := none } := by
  unfold remove
  rw [h]

@[simp] theorem remove_fst : (arena.remove id).1 = arena.get? id := by
  unfold remove
  cases h : arena.get? id <;> rfl

theorem get?_remove :
    (arena.remove id).2.get? other = if other = id then none else arena.get? other := by
  cases hget : arena.get? id with
  | none =>
      rw [remove_of_get?_eq_none hget]
      split
      · rename_i h
        rw [h, hget]
      · rfl
  | some value =>
      rw [get?, slots_remove_of_get? hget, Array.getElem?_modify]
      by_cases hindex : id.index.toNat = other.index.toNat
      · rw [if_pos hindex, ← hindex]
        have hslot : ∃ slot, arena.slots[id.index.toNat]? = some slot ∧
            slot.generation = id.generation := by
          unfold get? at hget
          cases h : arena.slots[id.index.toNat]? with
          | none => simp [h] at hget
          | some slot =>
              rw [h] at hget
              simp only at hget
              split at hget
              · exact ⟨slot, rfl, by assumption⟩
              · exact absurd hget (by simp)
        obtain ⟨slot, hslot, hgeneration⟩ := hslot
        rw [hslot]
        simp only [Option.map_some, ite_self]
        split
        · rfl
        · rename_i hne
          have : ¬ slot.generation = other.generation := by
            intro h
            apply hne
            cases other
            cases id
            simp only [NodeId.mk.injEq]
            exact ⟨(UInt32.toNat_inj.mp hindex).symm, h.symm.trans hgeneration⟩
          simp [get?, ← hindex, hslot, this]
      · have hne : other ≠ id := by
          rintro rfl
          exact hindex rfl
        rw [if_neg hindex, if_neg hne]
        rfl

/-! ## Sound arenas -/

/-- The bookkeeping of an arena is right: the list of vacant slots holds each
slot without a record once, no index is out of the range of names, and `size`
counts the records. -/
structure Sound (arena : Arena α) : Prop where
  slotCount_le : arena.slotCount ≤ 2 ^ 32
  vacant_nodup : arena.vacant.Nodup
  mem_vacant_iff : ∀ index : UInt32,
    index ∈ arena.vacant ↔ ∃ slot, arena.slots[index.toNat]? = some slot ∧ slot.value = none
  size_eq : arena.size = arena.slots.countP fun slot => slot.value.isSome

theorem sound_empty : (empty : Arena α).Sound where
  slotCount_le := by simp [slotCount, empty]
  vacant_nodup := by simp [empty]
  mem_vacant_iff index := by simp [empty]
  size_eq := by simp [empty]

/-! ## Adding -/

@[simp] theorem add_fst (make : NodeId → α) : (arena.add make).1 = arena.nextId := rfl

theorem get?_add (sound : arena.Sound) (room : arena.vacant ≠ [] ∨ arena.slotCount < 2 ^ 32)
    (make : NodeId → α) :
    (arena.add make).2.get? other =
      if other = arena.nextId then some (make arena.nextId) else arena.get? other := by
  obtain ⟨index, generation⟩ := other
  cases hvacant : arena.vacant with
  | nil =>
      have hroom : arena.slots.size < 2 ^ 32 := by simpa [hvacant, slotCount] using room
      have hindex : arena.slots.size.toUInt32.toNat = arena.slots.size := by
        simpa using Nat.mod_eq_of_lt hroom
      simp only [get?, add, nextId, hvacant, NodeId.mk.injEq, Array.getElem?_push]
      by_cases hlast : index.toNat = arena.slots.size
      · have : index = arena.slots.size.toUInt32 := UInt32.toNat_inj.mp (by rw [hlast, hindex])
        rw [if_pos hlast, hlast]
        by_cases hgeneration : generation = 0
        · simp [this, hgeneration]
        · simp [hgeneration, Ne.symm hgeneration]
      · have : index ≠ arena.slots.size.toUInt32 := by
          rintro rfl
          exact hlast hindex
        simp [hlast, this]
  | cons head rest =>
      obtain ⟨slot, hslot, hempty⟩ := (sound.mem_vacant_iff head).mp (by simp [hvacant])
      simp only [get?, add, nextId, hvacant, NodeId.mk.injEq, Array.getElem?_modify, hslot]
      by_cases hhead : head.toNat = index.toNat
      · have : index = head := UInt32.toNat_inj.mp hhead.symm
        subst this
        by_cases hgeneration : generation = slot.generation
        · simp [hslot, hgeneration]
        · simp [hslot, hgeneration, Ne.symm hgeneration]
      · have : index ≠ head := by
          rintro rfl
          exact hhead rfl
        rw [if_neg hhead]
        simp [this]

end Arena

end ElasticTree
