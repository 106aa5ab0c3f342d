import ElasticTree.Proofs.Arena.Bookkeeping
import Mathlib.Data.List.Perm.Subperm

/-!
# The records of an arena as a list

In a sound arena `entries` lists exactly the records that can be found by name,
each once.  A list of distinct live names is therefore no longer than the arena
has records (`length_le_size`), and no longer than it has slots
(`length_le_slotCount`).  The second bound is what makes the limit on walks
along stored links sufficient.
-/

namespace ElasticTree

namespace Arena

variable {α β : Type} {arena : Arena α} {id : NodeId}

/-- The names of the records, in the order of their slots. -/
def names (arena : Arena α) : List NodeId := arena.entries.map Prod.fst

theorem mem_entries_iff (sound : arena.Sound) {value : α} :
    (id, value) ∈ arena.entries ↔ arena.get? id = some value := by
  unfold entries
  simp only [List.mem_filterMap, Prod.exists, List.mk_mem_zipIdx_iff_getElem?,
    Array.getElem?_toList, Option.map_eq_some_iff, Prod.mk.injEq]
  constructor
  · rintro ⟨slot, index, hslot, found, hfound, rfl, rfl⟩
    have hindex : index < arena.slots.size := (Array.getElem?_eq_some_iff.mp hslot).1
    have hlt : index < 2 ^ 32 := Nat.lt_of_lt_of_le hindex sound.slotCount_le
    have hnat : index.toUInt32.toNat = index := by simpa using Nat.mod_eq_of_lt hlt
    rw [get?_of_slot (by simpa [hnat] using hslot) rfl, hfound]
  · intro h
    obtain ⟨slot, hslot, hgeneration, hvalue⟩ := exists_slot_of_get? h
    refine ⟨slot, id.index.toNat, hslot, value, hvalue, ?_, rfl⟩
    cases id
    simp_all

theorem mem_names_iff (sound : arena.Sound) : id ∈ arena.names ↔ arena.Live id := by
  simp only [names, List.mem_map, Prod.exists, exists_and_right, exists_eq_right,
    mem_entries_iff sound, Live, Option.isSome_iff_exists]

/-- The slots that hold a record, by their index. -/
private theorem sublist_indices (slots : List (Slot α × Nat)) :
    List.Sublist (slots.filterMap fun (slot, index) => slot.value.map fun _ => index)
      (slots.map Prod.snd) := by
  induction slots with
  | nil => simp
  | cons pair slots ih =>
      cases hvalue : pair.1.value with
      | none => simpa [List.filterMap_cons, hvalue] using ih.cons _
      | some value => simpa [List.filterMap_cons, hvalue] using ih

private theorem map_index_names (sound : arena.Sound) :
    (arena.names.map fun id => id.index.toNat) =
      arena.slots.toList.zipIdx.filterMap fun (slot, index) => slot.value.map fun _ => index := by
  rw [names, entries, List.map_map, List.map_filterMap]
  apply List.filterMap_congr
  rintro ⟨slot, index⟩ hmem
  have hslot := List.mk_mem_zipIdx_iff_getElem?.mp hmem
  rw [Array.getElem?_toList] at hslot
  have hindex : index < arena.slots.size := (Array.getElem?_eq_some_iff.mp hslot).1
  have hlt : index < 2 ^ 32 := Nat.lt_of_lt_of_le hindex sound.slotCount_le
  have hnat : index.toUInt32.toNat = index := by simpa using Nat.mod_eq_of_lt hlt
  simp only [Option.map_map]
  congr 1
  funext value
  exact hnat

theorem names_sorted (sound : arena.Sound) :
    arena.names.Pairwise fun first second => first.index < second.index := by
  have hindices : (arena.slots.toList.zipIdx.map Prod.snd).Pairwise (· < ·) := by
    rw [List.zipIdx_eq_zip_range', List.map_snd_zip (by simp)]
    exact List.pairwise_lt_range'
  have hsorted := hindices.sublist (sublist_indices _)
  rw [← map_index_names sound, List.pairwise_map] at hsorted
  exact hsorted.imp UInt32.lt_iff_toNat_lt.mpr

theorem nodup_names (sound : arena.Sound) : arena.names.Nodup := by
  refine (names_sorted sound).imp fun {first second} hlt => ?_
  rintro rfl
  exact UInt32.lt_irrefl _ hlt

private theorem length_filterMap_slots (slots : List (Slot α)) (start : Nat) :
    ((slots.zipIdx start).filterMap fun (slot, index) => slot.value.map fun value =>
      ((⟨index.toUInt32, slot.generation⟩ : NodeId), value)).length =
      slots.countP fun slot => slot.value.isSome := by
  induction slots generalizing start with
  | nil => simp
  | cons slot slots ih =>
      cases hvalue : slot.value with
      | none => simp [List.zipIdx_cons, hvalue, ih]
      | some value => simp [List.zipIdx_cons, hvalue, ih]

theorem length_names (sound : arena.Sound) : arena.names.length = arena.size := by
  rw [sound.size_eq, ← Array.countP_toList, names, List.length_map, entries]
  exact length_filterMap_slots _ 0

/-- Among all names there are those of any list, if they are live. -/
theorem countP_names (sound : arena.Sound) {ids : List NodeId} (hnodup : ids.Nodup)
    (hlive : ∀ id ∈ ids, arena.Live id) : arena.names.countP (· ∈ ids) = ids.length := by
  have hperm : (arena.names.filter (· ∈ ids)).Perm ids := by
    refine (List.perm_ext_iff_of_nodup ((nodup_names sound).filter _) hnodup).mpr fun id => ?_
    rw [List.mem_filter, mem_names_iff sound, decide_eq_true_eq]
    exact and_iff_right_of_imp (hlive id)
  rw [List.countP_eq_length_filter, hperm.length_eq]

/-- As many records are of some kind as are listed, if the list has the names of all
of them and no others. -/
theorem countP_entries (sound : arena.Sound) {ids : List NodeId} (kind : α → Bool)
    (hnodup : ids.Nodup) (hlive : ∀ id ∈ ids, arena.Live id)
    (hkind : ∀ id value, arena.get? id = some value → (kind value = true ↔ id ∈ ids)) :
    (arena.entries.countP fun entry => kind entry.2) = ids.length := by
  rw [← countP_names sound hnodup hlive, names, List.countP_map]
  apply List.countP_congr
  intro entry hentry
  rw [hkind entry.1 entry.2 ((mem_entries_iff sound).mp hentry), Function.comp_apply,
    decide_eq_true_eq]

/-- If as many records are of some kind as are listed, and all listed ones are of
that kind, then there are no others. -/
theorem mem_of_countP_eq (sound : arena.Sound) {ids : List NodeId} (kind : α → Bool)
    (hnodup : ids.Nodup)
    (hids : ∀ id ∈ ids, ∃ value, arena.get? id = some value ∧ kind value = true)
    (hcount : (arena.entries.countP fun entry => kind entry.2) = ids.length) {value : α}
    (hvalue : arena.get? id = some value) (hkind : kind value = true) : id ∈ ids := by
  have hlive : ∀ id ∈ ids, arena.Live id := by
    intro id hid
    obtain ⟨value, hvalue, -⟩ := hids id hid
    exact Option.isSome_iff_exists.mpr ⟨value, hvalue⟩
  have hlisted : (arena.entries.countP fun entry => entry.1 ∈ ids) = ids.length := by
    rw [← countP_names sound hnodup hlive, names, List.countP_map]
    rfl
  -- the listed records are a part of those of the kind, and just as many
  have hsublist : List.Sublist (arena.entries.filter fun entry => decide (entry.1 ∈ ids))
      (arena.entries.filter fun entry => kind entry.2) := by
    rw [show (arena.entries.filter fun entry => decide (entry.1 ∈ ids)) =
      (arena.entries.filter fun entry => kind entry.2).filter fun entry => entry.1 ∈ ids from ?_]
    · exact List.filter_sublist
    · rw [List.filter_filter]
      apply List.filter_congr
      intro entry hentry
      have hget := (mem_entries_iff sound).mp hentry
      rw [Bool.eq_iff_iff, Bool.and_eq_true, decide_eq_true_eq]
      refine ⟨fun hid => ⟨hid, ?_⟩, fun h => h.1⟩
      obtain ⟨found, hfound, hfound_kind⟩ := hids entry.1 hid
      rw [hget, Option.some.injEq] at hfound
      rw [hfound]
      exact hfound_kind
  have heq := hsublist.eq_of_length
    (by rw [← List.countP_eq_length_filter, ← List.countP_eq_length_filter, hlisted, hcount])
  have hmem : (id, value) ∈ arena.entries.filter fun entry => kind entry.2 :=
    List.mem_filter.mpr ⟨(mem_entries_iff sound).mpr hvalue, hkind⟩
  rw [← heq] at hmem
  simpa using (List.mem_filter.mp hmem).2

/-! ## Bounds on lists of names -/

theorem length_le_size (sound : arena.Sound) {ids : List NodeId} (hnodup : ids.Nodup)
    (hlive : ∀ id ∈ ids, arena.Live id) : ids.length ≤ arena.size := by
  rw [← length_names sound]
  exact (hnodup.subperm fun id hid => (mem_names_iff sound).mpr (hlive id hid)).length_le

theorem size_le_slotCount (sound : arena.Sound) : arena.size ≤ arena.slotCount := by
  rw [sound.size_eq]
  exact Array.countP_le_size

theorem length_le_slotCount (sound : arena.Sound) {ids : List NodeId} (hnodup : ids.Nodup)
    (hlive : ∀ id ∈ ids, arena.Live id) : ids.length ≤ arena.slotCount :=
  Nat.le_trans (length_le_size sound hnodup hlive) (size_le_slotCount sound)

end Arena

end ElasticTree
