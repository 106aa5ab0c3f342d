import ElasticTree.Arena.Lemmas
import Mathlib.Data.List.Nodup
import Mathlib.Data.List.Perm.Subperm

/-!
# The bookkeeping of an arena

`Sound` says that the list of vacant slots and the count of records are right.
Every operation on an arena keeps it so; `add` needs a slot to put the record
into.

In a sound arena the records found by name are the records listed by `entries`,
each once.  It follows that a list of distinct live names is no longer than the
arena has records, and no longer than it has slots.  Every walk along stored
links is bounded in this way.
-/

namespace ElasticTree

namespace Arena

variable {α β : Type} {arena : Arena α} {id : NodeId}

/-! ## The slot behind a name -/

theorem exists_slot_of_get? {value : α} (h : arena.get? id = some value) :
    ∃ slot, arena.slots[id.index.toNat]? = some slot ∧ slot.generation = id.generation ∧
      slot.value = some value := by
  unfold get? at h
  split at h
  · exact absurd h (by simp)
  · rename_i slot hslot
    split at h
    · rename_i hgeneration
      exact ⟨slot, hslot, hgeneration, h⟩
    · exact absurd h (by simp)

theorem get?_of_slot {slot : Slot α} (hslot : arena.slots[id.index.toNat]? = some slot)
    (hgeneration : slot.generation = id.generation) : arena.get? id = slot.value := by
  simp [get?, hslot, hgeneration]

/-! ## Counting occupied slots -/

/-- A change to one element moves a count by what it does to that element. -/
theorem countP_modify (p : β → Bool) (change : β → β) {elements : Array β} {index : Nat}
    {element : β} (h : elements[index]? = some element) :
    (elements.modify index change).countP p + (p element).toNat =
      elements.countP p + (p (change element)).toNat := by
  rw [← Array.countP_toList, ← Array.countP_toList, Array.toList_modify]
  rw [← Array.getElem?_toList] at h
  obtain ⟨hindex, -⟩ := List.getElem?_eq_some_iff.mp h
  obtain ⟨before, found, after, hlist, hlength, hmodify⟩ := List.exists_of_modify change hindex
  have hfound : found = element := by
    simp only [hlist, ← hlength, List.getElem?_append_right (Nat.le_refl _), Nat.sub_self,
      List.getElem?_cons_zero, Option.some.injEq] at h
    exact h
  subst hfound
  rw [hmodify, hlist]
  simp only [List.countP_append, List.countP_cons]
  cases p found <;> cases p (change found) <;> simp <;> omega

/-! ## Operations on a sound arena -/

theorem Sound.modify (sound : arena.Sound) (change : α → α) : (arena.modify id change).Sound where
  slotCount_le := by simpa using sound.slotCount_le
  vacant_nodup := sound.vacant_nodup
  mem_vacant_iff index := by
    rw [vacant_modify, sound.mem_vacant_iff]
    unfold Arena.modify
    rw [Array.getElem?_modify]
    split
    · cases arena.slots[index.toNat]? with
      | none => simp
      | some slot =>
          simp only [Option.some.injEq, exists_eq_left', Option.map_some]
          split <;> simp
    · rfl
  size_eq := by
    rw [size_modify, sound.size_eq]
    show _ = Array.countP _ (arena.slots.modify _ _)
    cases hslot : arena.slots[id.index.toNat]? with
    | none =>
        have : arena.slots.size ≤ id.index.toNat := by simpa using hslot
        congr 1
        apply Array.ext_getElem?
        intro index
        rw [Array.getElem?_modify]
        split
        · rename_i hindex
          rw [← hindex, hslot]
          rfl
        · rfl
    | some slot =>
        have := countP_modify (fun slot : Slot α => slot.value.isSome)
          (fun slot => if slot.generation = id.generation then
            { slot with value := slot.value.map change } else slot) hslot
        have hsame : ((if slot.generation = id.generation then
            { slot with value := slot.value.map change } else slot) : Slot α).value.isSome =
              slot.value.isSome := by
          split <;> simp
        simp only [hsame] at this
        omega

theorem Sound.remove (sound : arena.Sound) : (arena.remove id).2.Sound := by
  cases hget : arena.get? id with
  | none => rwa [remove_of_get?_eq_none hget]
  | some value =>
      obtain ⟨slot, hslot, hgeneration, hvalue⟩ := exists_slot_of_get? hget
      have hremove : (arena.remove id).2 =
          { slots := arena.slots.modify id.index.toNat fun slot =>
              { generation := slot.generation + 1, value := none }
            vacant := id.index :: arena.vacant
            size := arena.size - 1 } := by
        simp [Arena.remove, hget]
      have hfresh : id.index ∉ arena.vacant := by
        rw [sound.mem_vacant_iff]
        rintro ⟨other, hother, hnone⟩
        rw [hslot, Option.some.injEq] at hother
        simp [← hother, hvalue] at hnone
      rw [hremove]
      refine ⟨by simpa [slotCount] using sound.slotCount_le,
        List.nodup_cons.mpr ⟨hfresh, sound.vacant_nodup⟩, fun index => ?_, ?_⟩
      · rw [List.mem_cons, sound.mem_vacant_iff, Array.getElem?_modify]
        by_cases hindex : id.index = index
        · subst hindex
          simp [hslot]
        · have : id.index.toNat ≠ index.toNat := fun h => hindex (UInt32.toNat_inj.mp h)
          simp [this, Ne.symm hindex]
      · have hcount := countP_modify (fun slot : Slot α => slot.value.isSome)
          (fun slot => { generation := slot.generation + 1, value := none }) hslot
        have hsize := sound.size_eq
        simp only [hvalue, Option.isSome_some, Option.isSome_none, Bool.toNat_true,
          Bool.toNat_false] at hcount
        show arena.size - 1 = Array.countP _ (arena.slots.modify _ _)
        omega

/-- There is a slot for one more record. -/
def HasRoom (arena : Arena α) : Prop := arena.vacant ≠ [] ∨ arena.slotCount < 2 ^ 32

/-- The name of the next record is not live yet. -/
theorem get?_nextId (sound : arena.Sound) (room : arena.HasRoom) :
    arena.get? arena.nextId = none := by
  cases hvacant : arena.vacant with
  | nil =>
      have hroom : arena.slots.size < 2 ^ 32 := by simpa [HasRoom, hvacant, slotCount] using room
      have hindex : arena.slots.size.toUInt32.toNat = arena.slots.size := by
        simpa using Nat.mod_eq_of_lt hroom
      have hnone : arena.slots[arena.nextId.index.toNat]? = none := by
        simp [nextId, hvacant, hindex]
      rw [get?, hnone]
  | cons head rest =>
      obtain ⟨slot, hslot, hempty⟩ := (sound.mem_vacant_iff head).mp (by simp [hvacant])
      rw [get?_of_slot (by simpa [nextId, hvacant] using hslot)
        (by simp [nextId, hvacant, hslot]), hempty]

/-- A record that was added within the range of names had a slot to go to. -/
theorem hasRoom_of_add {make : NodeId → α} (h : (arena.add make).2.slotCount ≤ 2 ^ 32) :
    arena.HasRoom := by
  cases hvacant : arena.vacant with
  | nil =>
      refine .inr ?_
      have hcount : (arena.add make).2.slotCount = arena.slotCount + 1 := by
        simp [Arena.add, hvacant, slotCount]
      omega
  | cons head rest => exact .inl (by simp [hvacant])

@[simp] theorem slotCount_remove : (arena.remove id).2.slotCount = arena.slotCount := by
  cases hget : arena.get? id <;> simp [Arena.remove, hget, slotCount]

theorem Sound.add (sound : arena.Sound) (room : arena.HasRoom) (make : NodeId → α) :
    (arena.add make).2.Sound := by
  cases hvacant : arena.vacant with
  | nil =>
      -- no slot is vacant, so a new one is opened at the end
      have hroom : arena.slotCount < 2 ^ 32 := by simpa [HasRoom, hvacant] using room
      have hadd : (arena.add make).2 =
          ⟨arena.slots.push ⟨arena.nextId.generation, some (make arena.nextId)⟩, [],
            arena.size + 1⟩ := by
        simp [Arena.add, hvacant]
      have hnone := sound.mem_vacant_iff
      rw [hvacant] at hnone
      rw [hadd]
      refine ⟨by simpa [slotCount, Nat.succ_le_iff] using hroom, List.nodup_nil,
        fun index => ?_, ?_⟩
      · rw [Array.getElem?_push]
        split
        · simp
        · exact hnone index
      · simp [sound.size_eq]
  | cons head rest =>
      -- the slot that was vacated last is filled again
      obtain ⟨slot, hslot, hempty⟩ := (sound.mem_vacant_iff head).mp (by simp [hvacant])
      have hnodup := sound.vacant_nodup
      rw [hvacant, List.nodup_cons] at hnodup
      have hadd : (arena.add make).2 =
          ⟨arena.slots.modify head.toNat fun slot =>
            { slot with value := some (make arena.nextId) }, rest, arena.size + 1⟩ := by
        simp [Arena.add, hvacant]
      rw [hadd]
      refine ⟨by simpa [slotCount] using sound.slotCount_le, hnodup.2, fun index => ?_, ?_⟩
      · have hmem := sound.mem_vacant_iff index
        rw [hvacant, List.mem_cons] at hmem
        rw [Array.getElem?_modify]
        by_cases hindex : head = index
        · subst hindex
          simp [hnodup.1, hslot]
        · have : head.toNat ≠ index.toNat := fun h => hindex (UInt32.toNat_inj.mp h)
          simpa [this, Ne.symm hindex] using hmem
      · have hcount := countP_modify (fun slot : Slot α => slot.value.isSome)
          (fun slot => { slot with value := some (make arena.nextId) }) hslot
        have hsize := sound.size_eq
        simp only [hempty, Option.isSome_some, Option.isSome_none, Bool.toNat_true,
          Bool.toNat_false] at hcount
        show arena.size + 1 = Array.countP _ (arena.slots.modify _ _)
        omega

end Arena

end ElasticTree
