import ElasticTree.Proofs.Arena.Bookkeeping

/-!
# Arenas of a part of each record

`project` keeps a part of each record and forgets the rest.  The names, the
vacant slots and the soundness stay the same, and every operation commutes with
it, so a part of the records can be followed through a history in an arena of
its own.
-/

namespace ElasticTree

namespace Arena

variable {α β : Type} {arena : Arena α} {id : NodeId}

theorem get?_map (change : NodeId → α → β) :
    (arena.map change).get? id = (arena.get? id).map (change id) := by
  unfold get? Arena.map
  rw [Array.getElem?_mapIdx]
  cases arena.slots[id.index.toNat]? with
  | none => rfl
  | some slot =>
      by_cases h : slot.generation = id.generation
      · simp [h]
      · simp [h]

/-- The arena of what `view` shows of each record. -/
def project (arena : Arena α) (view : α → β) : Arena β := arena.map fun _ => view

variable {view : α → β}

@[simp] theorem get?_project : (arena.project view).get? id = (arena.get? id).map view :=
  get?_map _

@[simp] theorem live_project : (arena.project view).Live id ↔ arena.Live id := by
  simp [Live]

/-- Arenas that show the same of their records have records under the same names. -/
theorem live_iff_of_project_eq {after : Arena α} (h : after.project view = arena.project view) :
    after.Live id ↔ arena.Live id := by
  rw [← live_project, h, live_project]

@[simp] theorem vacant_project : (arena.project view).vacant = arena.vacant := rfl

@[simp] theorem slotCount_project : (arena.project view).slotCount = arena.slotCount := by
  simp [slotCount, project, Arena.map]

theorem getElem?_slots_project {index : Nat} :
    (arena.project view).slots[index]? =
      (arena.slots[index]?).map fun slot => ⟨slot.generation, slot.value.map view⟩ := by
  simp [project, Arena.map]

theorem entries_project :
    (arena.project view).entries = arena.entries.map fun entry => (entry.1, view entry.2) := by
  have hslots : (arena.project view).slots.toList =
      arena.slots.toList.map fun slot => ⟨slot.generation, slot.value.map view⟩ := by
    apply List.ext_getElem?
    intro index
    rw [Array.getElem?_toList, getElem?_slots_project, List.getElem?_map, Array.getElem?_toList]
  rw [entries, entries, hslots, List.zipIdx_map, List.filterMap_map, List.map_filterMap]
  apply List.filterMap_congr
  rintro ⟨slot, index⟩ -
  cases hvalue : slot.value <;> simp [hvalue]

/-- Two arenas are the same if their slots and their lists of vacant slots and
their sizes are. -/
private theorem ext_slots {first second : Arena β} (hslots : ∀ index : Nat,
    first.slots[index]? = second.slots[index]?) (hvacant : first.vacant = second.vacant)
    (hsize : first.size = second.size) : first = second := by
  cases first
  cases second
  simp only at hslots hvacant hsize
  rw [Array.ext_getElem? hslots, hvacant, hsize]

/-- Two arenas with the same records under the same names are the same, if some
part of the records shows that their slots are. -/
theorem eq_of_project_eq {first second : Arena α} (hcount : first.slotCount ≤ 2 ^ 32)
    (hproject : first.project view = second.project view)
    (hget : ∀ id, first.get? id = second.get? id) : first = second := by
  have hvacant := congrArg (fun arena : Arena β => arena.vacant) hproject
  have hsize := congrArg (fun arena : Arena β => arena.size) hproject
  refine ext_slots (fun index => ?_) hvacant hsize
  have hslots := congrArg (fun arena : Arena β => arena.slots[index]?) hproject
  simp only [getElem?_slots_project] at hslots
  cases hfirst : first.slots[index]? with
  | none =>
      rw [hfirst, Option.map_none, eq_comm, Option.map_eq_none_iff] at hslots
      exact hslots.symm
  | some slot =>
      rw [hfirst, Option.map_some, eq_comm, Option.map_eq_some_iff] at hslots
      obtain ⟨slot', hsecond, hsame⟩ := hslots
      rw [hsecond]
      have hgeneration : slot'.generation = slot.generation :=
        congrArg (fun slot : Slot β => slot.generation) hsame
      -- the slots have the same number, so some name belongs to both
      have hindex : index.toUInt32.toNat = index := by
        obtain ⟨hsize, -⟩ := Array.getElem?_eq_some_iff.mp hfirst
        have hlt : index < 2 ^ 32 := Nat.lt_of_lt_of_le hsize hcount
        simpa using Nat.mod_eq_of_lt hlt
      have hvalue := hget ⟨index.toUInt32, slot.generation⟩
      have hfound : first.get? ⟨index.toUInt32, slot.generation⟩ = slot.value :=
        get?_of_slot (by rw [hindex, hfirst]) rfl
      have hfound' : second.get? ⟨index.toUInt32, slot.generation⟩ = slot'.value :=
        get?_of_slot (by rw [hindex, hsecond]) hgeneration
      rw [hfound, hfound'] at hvalue
      cases slot
      cases slot'
      simp_all

/-! ## Soundness -/

theorem sound_project_iff : (arena.project view).Sound ↔ arena.Sound := by
  have hcount : (arena.project view).slots.countP (fun slot => slot.value.isSome) =
      arena.slots.countP fun slot => slot.value.isSome := by
    have hslots : (arena.project view).slots =
        arena.slots.map fun slot => ⟨slot.generation, slot.value.map view⟩ := by
      apply Array.ext_getElem?
      intro index
      rw [getElem?_slots_project, Array.getElem?_map]
    rw [hslots, Array.countP_map]
    congr 1
    funext slot
    simp
  have hvacant : ∀ index : UInt32, (∃ slot, (arena.project view).slots[index.toNat]? = some slot ∧
      slot.value = none) ↔ ∃ slot, arena.slots[index.toNat]? = some slot ∧ slot.value = none := by
    intro index
    rw [getElem?_slots_project]
    cases arena.slots[index.toNat]? <;> simp
  constructor
  · intro sound
    refine ⟨by simpa using sound.slotCount_le, sound.vacant_nodup, fun index => ?_, ?_⟩
    · rw [← hvacant]
      exact sound.mem_vacant_iff index
    · rw [← hcount]
      exact sound.size_eq
  · intro sound
    refine ⟨by simpa using sound.slotCount_le, sound.vacant_nodup, fun index => ?_, ?_⟩
    · rw [hvacant]
      exact sound.mem_vacant_iff index
    · rw [hcount]
      exact sound.size_eq

theorem hasRoom_project_iff : (arena.project view).HasRoom ↔ arena.HasRoom := by
  simp [HasRoom]

/-! ## Operations -/

theorem project_modify {change : α → α} {change' : β → β}
    (h : ∀ record, view (change record) = change' (view record)) :
    (arena.modify id change).project view = (arena.project view).modify id change' := by
  refine ext_slots (fun index => ?_) rfl rfl
  unfold Arena.modify
  rw [getElem?_slots_project, Array.getElem?_modify, Array.getElem?_modify,
    getElem?_slots_project]
  cases arena.slots[index]? with
  | none => simp
  | some slot =>
      by_cases hindex : id.index.toNat = index
      · by_cases hgeneration : slot.generation = id.generation
        · have hview : view ∘ change = change' ∘ view := funext h
          simp [hindex, hgeneration, hview]
        · simp [hindex, hgeneration]
      · simp [hindex]

/-- A change that `view` does not see. -/
theorem project_modify_of_eq {change : α → α} (h : ∀ record, view (change record) = view record) :
    (arena.modify id change).project view = arena.project view := by
  have hmodify : (arena.modify id change).project view =
      (arena.project view).modify id fun shown => shown := project_modify h
  rw [hmodify]
  refine ext_slots (fun index => ?_) rfl rfl
  unfold Arena.modify
  rw [Array.getElem?_modify]
  cases (arena.project view).slots[index]? <;> simp

@[simp] theorem nextId_project : (arena.project view).nextId = arena.nextId := by
  unfold nextId
  rw [vacant_project]
  cases arena.vacant with
  | nil => simp [project, Arena.map]
  | cons head rest =>
      simp only [getElem?_slots_project]
      cases arena.slots[head.toNat]? <;> rfl

theorem project_add (make : NodeId → α) :
    (arena.add make).2.project view = ((arena.project view).add fun id => view (make id)).2 := by
  apply ext_slots
  · intro index
    rw [getElem?_slots_project]
    simp only [add, nextId_project, vacant_project]
    cases arena.vacant with
    | nil =>
        have hsize : (arena.project view).slots.size = arena.slots.size := slotCount_project
        simp only [Array.getElem?_push, hsize, getElem?_slots_project]
        split <;> simp
    | cons head rest =>
        simp only [Array.getElem?_modify, getElem?_slots_project]
        split
        · cases arena.slots[index]? <;> rfl
        · rfl
  · rfl
  · rfl

theorem project_remove :
    (arena.remove id).2.project view = ((arena.project view).remove id).2 := by
  unfold Arena.remove
  rw [get?_project]
  cases arena.get? id with
  | none => rfl
  | some record =>
      refine ext_slots (fun index => ?_) rfl rfl
      simp only [Option.map_some, getElem?_slots_project, Array.getElem?_modify]
      split
      · cases arena.slots[index]? <;> rfl
      · rfl

theorem project_map {γ : Type} {change : NodeId → α → γ} {view' : γ → β}
    (h : ∀ id record, view' (change id record) = view record) :
    (arena.map change).project view' = arena.project view := by
  refine ext_slots (fun index => ?_) rfl rfl
  rw [getElem?_slots_project, getElem?_slots_project]
  simp only [Arena.map, Array.getElem?_mapIdx]
  cases arena.slots[index]? with
  | none => rfl
  | some slot =>
      have hview : ∀ id, view' ∘ change id = view := fun id => funext (h id)
      simp [hview]

end Arena

end ElasticTree
