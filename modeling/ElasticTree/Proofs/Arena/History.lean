import ElasticTree.Arena.History
import ElasticTree.Proofs.Arena.Entries

/-!
# What an arena owes to its history

An arena is a map from names to records: after any history a name stands for what
was last stored under it, and the records can be told from what the caller has
seen (`faithful_to_history`).

What goes along the history besides the bookkeeping is the generation of each slot,
which counts how often the slot was left (`Tracks`).  So a name that was removed is
that of a later occupant again exactly if the count has come round to the same
generation since.
-/

namespace ElasticTree

namespace Arena

variable {α : Type} {arena after : Arena α} {events later earlier : List (Event α)} {id : NodeId}
  {index : UInt32} {value : α}

/-! ## Passing through the records -/

theorem visitFrom_fst {σ : Type} (step : σ → NodeId → α → σ × α) (start : Nat) (state : σ)
    (slots : List (Slot α)) :
    (visitFrom step start state slots).1 =
      ((slots.zipIdx start).filterMap fun (slot, index) => slot.value.map fun value =>
        ((⟨index.toUInt32, slot.generation⟩ : NodeId), value)).foldl
          (fun state entry => (step state entry.1 entry.2).1) state := by
  induction slots generalizing start state with
  | nil => rfl
  | cons slot slots ih =>
      rw [visitFrom, List.zipIdx_cons]
      cases hvalue : slot.value with
      | none => simp [hvalue, ih]
      | some value => simp [hvalue, ih]

theorem visit_fst {σ : Type} (step : σ → NodeId → α → σ × α) (state : σ) :
    (arena.visit step state).1 =
      arena.entries.foldl (fun state entry => (step state entry.1 entry.2).1) state :=
  visitFrom_fst step 0 state _

/-! ## Single accesses -/

/-- Writing over nothing changes nothing. -/
theorem modify_of_get?_eq_none (change : α → α) (h : arena.get? id = none) :
    arena.modify id change = arena := by
  obtain ⟨slots, vacant, size⟩ := arena
  rw [modify, Arena.mk.injEq]
  refine ⟨Array.ext_getElem? fun index => ?_, rfl, rfl⟩
  rw [Array.getElem?_modify]
  split_ifs with hindex
  · subst hindex
    cases hslot : slots[id.index.toNat]? with
    | none => rfl
    | some slot =>
        rw [Option.map_some]
        split_ifs with hgeneration
        · have hvalue : slot.value = none := (get?_of_slot hslot hgeneration).symm.trans h
          cases slot
          simp_all
        · rfl
  · rfl

/-- What an access does to an arena, and what is noted of it. -/
inductive Passes (arena : Arena α) : Option (Event α) → Arena α → Prop where
  | kept : Passes arena none arena
  | issued (make : NodeId → α) :
      Passes arena (some (.issued arena.nextId (make arena.nextId))) (arena.add make).2
  | written {id : NodeId} (value : α) (live : arena.Live id) :
      Passes arena (some (.written id value)) (arena.modify id fun _ => value)
  | removed {id : NodeId} (live : arena.Live id) :
      Passes arena (some (.removed id)) (arena.remove id).2

theorem passes_of_perform {access : Access α} {outcome : Outcome α}
    (h : arena.perform access = .ok (outcome, after)) :
    arena.Passes (access.event? outcome) after := by
  cases access with
  | add make =>
      obtain ⟨rfl, rfl⟩ := Prod.mk.inj (Except.ok.inj h)
      exact .issued make
  | remove id =>
      have hremove : arena.perform (.remove id) =
          .ok (.taken (arena.get? id), (arena.remove id).2) := by
        rw [← remove_fst]
        rfl
      obtain ⟨rfl, rfl⟩ := Prod.mk.inj (Except.ok.inj (hremove.symm.trans h))
      cases hvalue : arena.get? id with
      | none =>
          rw [remove_of_get?_eq_none hvalue]
          exact .kept
      | some value => exact .removed (Option.isSome_iff_exists.mpr ⟨value, hvalue⟩)
  | get id =>
      obtain ⟨rfl, rfl⟩ := Prod.mk.inj (Except.ok.inj h)
      exact .kept
  | set id value =>
      obtain ⟨rfl, rfl⟩ := Prod.mk.inj (Except.ok.inj h)
      cases hvalue : arena.get? id with
      | none =>
          rw [modify_of_get?_eq_none _ hvalue]
          exact .kept
      | some old => exact .written value (Option.isSome_iff_exists.mpr ⟨old, hvalue⟩)
  | put id value =>
      rw [perform] at h
      cases hvalue : arena.get? id with
      | none =>
          rw [update, hvalue] at h
          cases h
      | some old =>
          rw [update_of_get? _ hvalue] at h
          obtain ⟨rfl, rfl⟩ := Prod.mk.inj (Except.ok.inj h)
          exact .written value (Option.isSome_iff_exists.mpr ⟨old, hvalue⟩)

theorem perform_ok_iff {access : Access α} :
    (∃ outcome after, arena.perform access = .ok (outcome, after)) ↔
      ∀ id value, access = .put id value → arena.Live id := by
  cases access with
  | put id value =>
      rw [perform, update]
      constructor
      · rintro ⟨outcome, after, h⟩ other _ heq
        obtain ⟨rfl, -⟩ := Access.put.inj heq
        cases hvalue : arena.get? id with
        | none =>
            rw [hvalue] at h
            cases h
        | some old => exact Option.isSome_iff_exists.mpr ⟨old, hvalue⟩
      · intro h
        obtain ⟨old, hvalue⟩ := Option.isSome_iff_exists.mp (h id value rfl)
        rw [hvalue]
        exact ⟨_, _, rfl⟩
  | _ => exact iff_of_true ⟨_, _, rfl⟩ (by rintro _ _ ⟨⟩)

theorem Passes.slotCount_le {event? : Option (Event α)} (h : arena.Passes event? after) :
    arena.slotCount ≤ after.slotCount := by
  cases h with
  | kept => exact Nat.le_refl _
  | issued make => cases hvacant : arena.vacant <;> simp [Arena.add, hvacant, slotCount]
  | written => exact Nat.le_of_eq (slotCount_modify _).symm
  | removed => exact Nat.le_of_eq slotCount_remove.symm

theorem exists_of_play_cons {access : Access α} {rest : List (Access α)}
    {outcomes : List (Outcome α)} (h : arena.play (access :: rest) = .ok (outcomes, after)) :
    ∃ outcome middle outcomes', outcomes = outcome :: outcomes' ∧
      arena.perform access = .ok (outcome, middle) ∧ middle.play rest = .ok (outcomes', after) := by
  rw [Arena.play] at h
  cases hperform : arena.perform access with
  | error fault =>
      rw [hperform] at h
      cases h
  | ok performed =>
      obtain ⟨outcome, middle⟩ := performed
      rw [hperform, Fault.ok_bind] at h
      cases hrest : middle.play rest with
      | error fault =>
          simp only [hrest] at h
          cases h
      | ok played =>
          obtain ⟨outcomes', last⟩ := played
          simp only [hrest] at h
          obtain ⟨rfl, rfl⟩ := Prod.mk.inj (Except.ok.inj h)
          exact ⟨outcome, middle, outcomes', rfl, rfl, hrest⟩

theorem slotCount_le_of_play {accesses : List (Access α)} {outcomes : List (Outcome α)}
    (h : arena.play accesses = .ok (outcomes, after)) : arena.slotCount ≤ after.slotCount := by
  induction accesses generalizing arena outcomes with
  | nil =>
      obtain ⟨rfl, rfl⟩ := Prod.mk.inj (Except.ok.inj h)
      exact Nat.le_refl _
  | cons access rest ih =>
      obtain ⟨outcome, middle, outcomes', -, hperform, hrest⟩ := exists_of_play_cons h
      exact Nat.le_trans (passes_of_perform hperform).slotCount_le (ih hrest)

/-! ## What goes along a history -/

/-- The arena is where these events have led to. -/
structure Tracks (events : List (Event α)) (arena : Arena α) : Prop where
  sound : arena.Sound
  get?_eq : ∀ id, arena.get? id = lastStored? events id
  issued : ∀ id, arena.Live id → ∃ value, .issued id value ∈ events
  freed_lt : ∀ index ∈ freed events, index.toNat < arena.slotCount
  /-- A generation counts how often the slot was left. -/
  generation_eq : ∀ (index : UInt32) slot, arena.slots[index.toNat]? = some slot →
    slot.generation = UInt32.ofNat ((freed events).count index)
  removed_generation : ∀ later id earlier, events = later ++ .removed id :: earlier →
    id.generation = UInt32.ofNat ((freed earlier).count id.index)
  vacant_sorted : arena.vacant.Pairwise fun first second =>
    (freed events).idxOf first < (freed events).idxOf second

@[simp] theorem freed_issued : freed (.issued id value :: earlier) = freed earlier := rfl

@[simp] theorem freed_written : freed (.written id value :: earlier) = freed earlier := rfl

@[simp] theorem freed_removed : freed (.removed id :: earlier : List (Event α)) =
    id.index :: freed earlier := rfl

namespace Tracks

theorem empty : Tracks [] (Arena.empty : Arena α) where
  sound := sound_empty
  get?_eq id := by simp [get?, Arena.empty, lastStored?]
  issued id hlive := by simp [Live, get?, Arena.empty] at hlive
  freed_lt index hindex := by simp [freed] at hindex
  generation_eq index slot hslot := by simp [Arena.empty] at hslot
  removed_generation later id earlier heq := by simp at heq
  vacant_sorted := List.Pairwise.nil

/-- A later event than a removal, which is none itself. -/
private theorem exists_earlier {event : Event α} {id : NodeId}
    (heq : event :: events = later ++ .removed id :: earlier) (hne : ∀ id, event ≠ .removed id) :
    ∃ between, events = between ++ .removed id :: earlier := by
  cases later with
  | nil => exact absurd (List.cons.inj heq).1 (hne id)
  | cons first between => exact ⟨between, (List.cons.inj heq).2⟩

/-- A new record comes into a slot of the generation that the slot has. -/
private theorem generation_add (h : Tracks events arena) (make : NodeId → α) {slot : Slot α}
    (hslot : (arena.add make).2.slots[index.toNat]? = some slot) :
    slot.generation = UInt32.ofNat ((freed events).count index) := by
  cases hvacant : arena.vacant with
  | nil =>
      have hadd : (arena.add make).2.slots =
          arena.slots.push ⟨arena.nextId.generation, some (make arena.nextId)⟩ := by
        simp [Arena.add, hvacant]
      rw [hadd, Array.getElem?_push] at hslot
      split_ifs at hslot with hlast
      · -- the slot is new, and nobody has left it yet
        have hnever : index ∉ freed events := fun hindex => by
          have hlt := h.freed_lt index hindex
          rw [slotCount] at hlt
          omega
        obtain rfl := Option.some.inj hslot
        rw [List.count_eq_zero_of_not_mem hnever]
        simp [nextId, hvacant]
      · exact h.generation_eq index slot hslot
  | cons head rest =>
      have hadd : (arena.add make).2.slots = arena.slots.modify head.toNat fun slot =>
          { slot with value := some (make arena.nextId) } := by
        simp [Arena.add, hvacant]
      rw [hadd, Array.getElem?_modify] at hslot
      split_ifs at hslot with hhead
      · obtain ⟨old, hold, rfl⟩ := Option.map_eq_some_iff.mp hslot
        exact h.generation_eq index old hold
      · exact h.generation_eq index slot hslot

theorem add (h : Tracks events arena) (make : NodeId → α)
    (hslots : (arena.add make).2.slotCount ≤ 2 ^ 32) :
    Tracks (.issued arena.nextId (make arena.nextId) :: events) (arena.add make).2 := by
  have hroom := hasRoom_of_add hslots
  have hget : ∀ id, (arena.add make).2.get? id =
      if id = arena.nextId then some (make arena.nextId) else arena.get? id :=
    fun id => get?_add h.sound hroom make
  refine ⟨h.sound.add hroom make, fun id => ?_, fun id hlive => ?_, fun index hindex => ?_,
    fun index slot hslot => ?_, fun later id earlier heq => ?_, ?_⟩
  · rw [hget, lastStored?, h.get?_eq]
    simp only [eq_comm]
  · rw [Live, hget] at hlive
    split_ifs at hlive with heq
    · rw [heq]
      exact ⟨_, List.mem_cons_self⟩
    · obtain ⟨value, hvalue⟩ := h.issued id hlive
      exact ⟨value, List.mem_cons_of_mem _ hvalue⟩
  · exact Nat.lt_of_lt_of_le (h.freed_lt index hindex) (Passes.issued make).slotCount_le
  · exact h.generation_add make hslot
  · obtain ⟨between, heq⟩ := exists_earlier heq fun id => by simp
    exact h.removed_generation between id earlier heq
  · exact h.vacant_sorted.tail

theorem write (h : Tracks events arena) (hlive : arena.Live id) (value : α) :
    Tracks (.written id value :: events) (arena.modify id fun _ => value) := by
  refine ⟨h.sound.modify _, fun other => ?_, fun other hother => ?_, fun index hindex => ?_,
    fun index slot hslot => ?_, fun later other earlier heq => ?_, h.vacant_sorted⟩
  · obtain ⟨old, hvalue⟩ := Option.isSome_iff_exists.mp hlive
    rw [get?_modify, lastStored?, hvalue, h.get?_eq]
    simp only [Option.map_some, eq_comm]
  · have hbefore : arena.Live other := by
      rw [Live, get?_modify] at hother
      split_ifs at hother with heq
      · rwa [heq]
      · exact hother
    obtain ⟨value, hvalue⟩ := h.issued other hbefore
    exact ⟨value, List.mem_cons_of_mem _ hvalue⟩
  · rw [slotCount_modify]
    exact h.freed_lt index hindex
  · rw [Arena.modify, Array.getElem?_modify] at hslot
    split_ifs at hslot with hindex
    · obtain ⟨old, hold, rfl⟩ := Option.map_eq_some_iff.mp hslot
      rw [freed_written, ← h.generation_eq index old hold]
      split <;> rfl
    · exact h.generation_eq index slot hslot
  · obtain ⟨between, heq⟩ := exists_earlier heq fun id => by simp
    exact h.removed_generation between other earlier heq

theorem remove (h : Tracks events arena) (hlive : arena.Live id) :
    Tracks (.removed id :: events) (arena.remove id).2 := by
  obtain ⟨value, hvalue⟩ := Option.isSome_iff_exists.mp hlive
  obtain ⟨slot, hslot, hgeneration, hfull⟩ := exists_slot_of_get? hvalue
  have hvacant : (arena.remove id).2.vacant = id.index :: arena.vacant := by
    simp [Arena.remove, hvalue]
  have hfresh : id.index ∉ arena.vacant := by
    have hnodup : (arena.remove id).2.vacant.Nodup := h.sound.remove.vacant_nodup
    rw [hvacant] at hnodup
    exact (List.nodup_cons.mp hnodup).1
  refine ⟨h.sound.remove, fun other => ?_, fun other hother => ?_, fun index hindex => ?_,
    fun index found hfound => ?_, fun later other earlier heq => ?_, ?_⟩
  · rw [get?_remove, lastStored?, h.get?_eq]
    simp only [eq_comm]
  · have hbefore : arena.Live other := by
      rw [Live, get?_remove] at hother
      split_ifs at hother
      · cases hother
      · exact hother
    obtain ⟨value, hvalue⟩ := h.issued other hbefore
    exact ⟨value, List.mem_cons_of_mem _ hvalue⟩
  · rw [slotCount_remove]
    rcases List.mem_cons.mp hindex with rfl | hindex
    · exact (Array.getElem?_eq_some_iff.mp hslot).1
    · exact h.freed_lt index hindex
  · rw [slots_remove_of_get? hvalue, Array.getElem?_modify] at hfound
    split_ifs at hfound with hindex
    · obtain rfl := UInt32.toNat_inj.mp hindex
      rw [hslot, Option.map_some, Option.some.injEq] at hfound
      rw [← hfound, freed_removed, List.count_cons_self, h.generation_eq _ slot hslot]
      simp
    · have hne : id.index ≠ index := fun heq => hindex (heq ▸ rfl)
      rw [freed_removed, List.count_cons_of_ne hne]
      exact h.generation_eq index found hfound
  · cases later with
    | nil =>
        obtain ⟨hevent, rfl⟩ := List.cons.inj heq
        obtain rfl := Event.removed.inj hevent
        rw [← hgeneration, h.generation_eq _ slot hslot]
    | cons event between =>
        exact h.removed_generation between other earlier (List.cons.inj heq).2
  · -- the slot that is left last comes in front of all others
    rw [hvacant, freed_removed, List.pairwise_cons]
    have hlater : ∀ index ∈ arena.vacant, (id.index :: freed events).idxOf index =
        (freed events).idxOf index + 1 := by
      intro index hindex
      exact List.idxOf_cons_ne _ fun heq => hfresh (heq ▸ hindex)
    refine ⟨fun index hindex => ?_, h.vacant_sorted.imp_of_mem fun hfirst hsecond hlt => ?_⟩
    · rw [List.idxOf_cons_self, hlater index hindex]
      exact Nat.succ_pos _
    · rw [hlater _ hfirst, hlater _ hsecond]
      exact Nat.succ_lt_succ hlt

/-- An access leads from one to the other, as long as there are names for the
slots. -/
theorem step (h : Tracks events arena) {event? : Option (Event α)}
    (hpasses : arena.Passes event? after) (hslots : after.slotCount ≤ 2 ^ 32) :
    Tracks (event?.toList ++ events) after := by
  cases hpasses with
  | kept => exact h
  | issued make => exact h.add make hslots
  | written value hlive => exact h.write hlive value
  | removed hlive => exact h.remove hlive

/-- A history leads from one to the other. -/
theorem play (h : Tracks events arena) {accesses : List (Access α)} {outcomes : List (Outcome α)}
    (hplay : arena.play accesses = .ok (outcomes, after)) (hslots : after.slotCount ≤ 2 ^ 32) :
    Tracks (chronicle accesses outcomes ++ events) after := by
  induction accesses generalizing arena events outcomes with
  | nil =>
      obtain ⟨rfl, rfl⟩ := Prod.mk.inj (Except.ok.inj hplay)
      exact h
  | cons access rest ih =>
      obtain ⟨outcome, middle, outcomes', rfl, hperform, hrest⟩ := exists_of_play_cons hplay
      have hmiddle := h.step (passes_of_perform hperform)
        (Nat.le_trans (slotCount_le_of_play hrest) hslots)
      rw [chronicle, List.append_assoc]
      exact ih hmiddle hrest

end Tracks

/-! ## What is to be expected -/

/-- The generations of a slot have come round if it was left so often. -/
private theorem ofNat_eq_iff_dvd (first : Nat) {count : Nat} :
    UInt32.ofNat (count + first) = UInt32.ofNat first ↔ 2 ^ 32 ∣ count := by
  rw [← UInt32.toNat_inj]
  simp
  omega

namespace Tracks

/-- A slot that is taken has the generation of its occupant. -/
private theorem generation_of_live (h : Tracks events arena) (hlive : arena.Live id) :
    id.generation = UInt32.ofNat ((freed events).count id.index) := by
  obtain ⟨value, hvalue⟩ := Option.isSome_iff_exists.mp hlive
  obtain ⟨slot, hslot, hgeneration, -⟩ := exists_slot_of_get? hvalue
  rw [← hgeneration, h.generation_eq _ slot hslot]

theorem live_again_iff (h : Tracks events arena) (heq : events = later ++ .removed id :: earlier) :
    arena.Live id ↔ (∃ other, arena.Live other ∧ other.index = id.index) ∧
      2 ^ 32 ∣ (freed later).count id.index + 1 := by
  have hcount : (freed events).count id.index =
      (freed later).count id.index + 1 + (freed earlier).count id.index := by
    rw [heq, freed, List.filterMap_append, List.count_append]
    show (freed later).count id.index + (id.index :: freed earlier).count id.index = _
    rw [List.count_cons_self]
    omega
  have hgeneration := h.removed_generation later id earlier heq
  rw [← ofNat_eq_iff_dvd ((freed earlier).count id.index), ← hcount, ← hgeneration]
  constructor
  · intro hlive
    exact ⟨⟨id, hlive, rfl⟩, (h.generation_of_live hlive).symm⟩
  · rintro ⟨⟨other, hother, hindex⟩, hround⟩
    have hsame : other = id := by
      have hgeneration' := h.generation_of_live hother
      rw [hindex, hround] at hgeneration'
      cases other
      cases id
      simp_all
    exact hsame ▸ hother

theorem mem_vacant_iff (h : Tracks events arena) : index ∈ arena.vacant ↔
    index.toNat < arena.slotCount ∧ ∀ id, arena.Live id → id.index ≠ index := by
  rw [h.sound.mem_vacant_iff]
  constructor
  · rintro ⟨slot, hslot, hempty⟩
    refine ⟨(Array.getElem?_eq_some_iff.mp hslot).1, ?_⟩
    rintro id hlive rfl
    obtain ⟨value, hvalue⟩ := Option.isSome_iff_exists.mp hlive
    obtain ⟨found, hfound, -, hfull⟩ := exists_slot_of_get? hvalue
    rw [hslot, Option.some.injEq] at hfound
    rw [← hfound, hempty] at hfull
    cases hfull
  · rintro ⟨hlt, hnone⟩
    have hslot := Array.getElem?_eq_getElem hlt
    refine ⟨_, hslot, Option.eq_none_iff_forall_ne_some.mpr fun value hvalue => ?_⟩
    -- otherwise the record would have a name with this index
    refine hnone ⟨index, arena.slots[index.toNat].generation⟩ ?_ rfl
    rw [Live, get?_of_slot hslot rfl, hvalue]
    rfl

theorem faithful (h : Tracks events arena) : Faithful events arena where
  get?_eq := h.get?_eq
  get?_unissued id hnever := by
    rw [← Option.not_isSome_iff_eq_none]
    intro hlive
    obtain ⟨value, hvalue⟩ := h.issued id hlive
    exact hnever value hvalue
  live_again_iff _ _ _ heq := h.live_again_iff heq
  add_eq make hslots := by
    have hroom := hasRoom_of_add hslots
    rw [add_fst, Live, get?_nextId h.sound hroom, get?_add h.sound hroom, if_pos rfl]
    exact ⟨by simp, rfl⟩
  remove_eq id := by
    refine ⟨by rw [remove_fst, h.get?_eq], fun hdead => ?_⟩
    rw [remove_of_get?_eq_none (Option.not_isSome_iff_eq_none.mp hdead)]
  perform_ok_iff _ := Arena.perform_ok_iff
  entries_sorted := by
    have hsorted := names_sorted h.sound
    rwa [names, List.pairwise_map] at hsorted
  mem_entries_iff _ _ := Arena.mem_entries_iff h.sound
  length_entries := by rw [← length_names h.sound, names, List.length_map]
  visit_eq := visit_fst
  mem_vacant_iff _ := h.mem_vacant_iff
  vacant_nodup := h.sound.vacant_nodup
  vacant_sorted := h.vacant_sorted
  add_index make := by
    refine ⟨fun index hindex => ?_, fun hvacant => ?_⟩
    · obtain ⟨rest, hvacant⟩ := List.head?_eq_some_iff.mp hindex
      rw [add_fst, nextId, hvacant]
      exact ⟨rfl, by rw [Arena.add, hvacant]⟩
    · rw [add_fst, nextId, hvacant]
      rfl

end Tracks

/-- After any history that opens no more slots than can be named, an arena is a map
from names to records as its caller has seen them come and go. -/
theorem faithful_to_history {accesses : List (Access α)} {outcomes : List (Outcome α)}
    (hplay : Arena.empty.play accesses = .ok (outcomes, arena))
    (hslots : arena.slotCount ≤ 2 ^ 32) :
    Faithful (chronicle accesses outcomes) arena := by
  have htracks := Tracks.empty.play hplay hslots
  rw [List.append_nil] at htracks
  exact htracks.faithful

/-- Two records, of which the first goes and leaves its slot to a third, and some
accesses by names that are not live. -/
private def succession : List (Access Nat) :=
  [.add fun _ => 1, .add fun id => id.index.toNat, .remove ⟨0, 0⟩, .remove ⟨0, 0⟩, .add fun _ => 3,
    .set ⟨0, 0⟩ 4, .set ⟨0, 1⟩ 5, .put ⟨1, 0⟩ 6, .remove ⟨1, 0⟩, .get ⟨7, 0⟩]

theorem faithful_to_history_succession :
    ∃ outcomes arena, Arena.empty.play succession = .ok (outcomes, arena) ∧
      arena.slotCount ≤ 2 ^ 32 ∧
      chronicle succession outcomes =
        [.removed ⟨1, 0⟩, .written ⟨1, 0⟩ 6, .written ⟨0, 1⟩ 5, .issued ⟨0, 1⟩ 3, .removed ⟨0, 0⟩,
          .issued ⟨1, 0⟩ 1, .issued ⟨0, 0⟩ 1] ∧
      arena.get? ⟨0, 1⟩ = some 5 ∧ arena.vacant = [1] ∧
      Faithful (chronicle succession outcomes) arena := by
  have hplay : Arena.empty.play succession = .ok
      ([.made ⟨0, 0⟩, .made ⟨1, 0⟩, .taken (some 1), .taken none, .made ⟨0, 1⟩, .found none,
        .found (some 3), .done, .taken (some 6), .found none],
      ⟨#[⟨1, some 5⟩, ⟨1, none⟩], [1], 1⟩) := by decide +kernel
  exact ⟨_, _, hplay, by decide, by decide, by decide, rfl, faithful_to_history hplay (by decide)⟩

end Arena

end ElasticTree
