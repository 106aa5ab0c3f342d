import ElasticTree.Proofs.Arena.Projection
import ElasticTree.Proofs.Ring.Circle

/-!
# Rings in an arena

The operations on rings succeed as long as the names they write to are live, and
what they write are the assignments of `Table.append` and `Table.remove`.  A
part of the records that ring links have no bearing on stays as it was; this is
said for every view that is blind to them.
-/

namespace ElasticTree

namespace Ring

open RingMember

variable {α : Type} [RingMember α] {arena after : Arena α} {head id : NodeId}

/-- The ring links stored in an arena.  A name that is not live counts as
alone. -/
def table (arena : Arena α) : Table := fun id =>
  ((arena.get? id).map links).getD (.alone id)

theorem table_of_get? {record : α} (h : arena.get? id = some record) :
    table arena id = links record := by
  simp [table, h]

theorem neighbours_iff {first second : NodeId} : Neighbours arena first second ↔
    Faces (table arena) first second ∧ arena.Live first ∧ arena.Live second := by
  constructor
  · rintro ⟨before, after, hbefore, hafter, hnext, hprev⟩
    refine ⟨⟨?_, ?_⟩, Option.isSome_iff_exists.mpr ⟨_, hbefore⟩,
      Option.isSome_iff_exists.mpr ⟨_, hafter⟩⟩
    · rw [table_of_get? hbefore, hnext]
    · rw [table_of_get? hafter, hprev]
  · rintro ⟨⟨hnext, hprev⟩, hfirst, hsecond⟩
    obtain ⟨before, hbefore⟩ := Option.isSome_iff_exists.mp hfirst
    obtain ⟨after, hafter⟩ := Option.isSome_iff_exists.mp hsecond
    rw [table_of_get? hbefore] at hnext
    rw [table_of_get? hafter] at hprev
    exact ⟨before, after, hbefore, hafter, hnext, hprev⟩

/-- A cycle is a circle of live members. -/
theorem cycle_iff {rest : List NodeId} : Cycle arena head rest ↔
    Circle (table arena) head rest ∧ ∀ id ∈ head :: rest, arena.Live id := by
  constructor
  · intro h
    refine ⟨⟨h.nodup, h.neighbours.imp fun first second hpair => (neighbours_iff.mp hpair).1⟩,
      fun id hid => ?_⟩
    -- every member has a neighbour behind it
    obtain ⟨front, back, hlist⟩ := List.append_of_mem hid
    obtain ⟨second, others, hothers⟩ : ∃ second others, back ++ [head] = second :: others :=
      List.exists_cons_of_ne_nil (by simp)
    have hchain := h.neighbours
    rw [← List.cons_append, hlist, List.append_assoc, List.cons_append, hothers,
      List.isChain_append_cons_cons] at hchain
    exact (neighbours_iff.mp hchain.2.1).2.1
  · rintro ⟨hcircle, hlive⟩
    have hmem : ∀ id ∈ head :: (rest ++ [head]), arena.Live id := by
      intro id hid
      exact hlive id (by simpa [or_comm] using hid)
    exact ⟨hcircle.nodup, hcircle.faces.imp_of_mem_imp fun first second hfirst hsecond hfaces =>
      neighbours_iff.mpr ⟨hfaces, hmem first hfirst, hmem second hsecond⟩⟩

instance (arena : Arena α) (head : NodeId) (rest : List NodeId) :
    Decidable (Cycle arena head rest) :=
  decidable_of_iff _ cycle_iff.symm

/-- The second arena has other ring links than the first, and differs in nothing
else. -/
structure Rewrites (before after : Arena α) (links' : Table) : Prop where
  table_eq : table after = links'
  project_eq : ∀ {β : Type} (view : α → β),
    (∀ new record, view (withLinks new record) = view record) →
      after.project view = before.project view

namespace Rewrites

variable {middle : Arena α} {between links' : Table}

theorem trans (h : Rewrites arena middle between) (h' : Rewrites middle after links') :
    Rewrites arena after links' :=
  ⟨h'.table_eq, fun view hview => (h'.project_eq view hview).trans (h.project_eq view hview)⟩

theorem live_iff (h : Rewrites arena after links') : after.Live id ↔ arena.Live id :=
  Arena.live_iff_of_project_eq (h.project_eq (fun _ => ()) fun _ _ => rfl)

end Rewrites

/-! ## Single assignments -/

theorem update_rewrites (hid : arena.Live id) (change : RingLinks → RingLinks) :
    ∃ after, (arena.update id fun record => withLinks (change (links record)) record) = .ok after ∧
      Rewrites arena after (Function.update (table arena) id (change (table arena id))) := by
  obtain ⟨record, hrecord⟩ := Option.isSome_iff_exists.mp hid
  refine ⟨_, Arena.update_of_get? _ hrecord, ?_, fun view hview => ?_⟩
  · funext other
    by_cases hother : other = id
    · subst hother
      simp [table, hrecord, links_withLinks]
    · simp [table, Arena.get?_modify_of_ne _ hother, hother]
  · exact Arena.project_modify_of_eq fun record => hview _ record

theorem setLinks_rewrites (hid : arena.Live id) (new : RingLinks) :
    ∃ after, setLinks arena id new = .ok after ∧
      Rewrites arena after (Function.update (table arena) id new) :=
  update_rewrites hid fun _ => new

theorem setNext_rewrites (hid : arena.Live id) (next : NodeId) :
    ∃ after, setNext arena id next = .ok after ∧ Rewrites arena after
      (Function.update (table arena) id { table arena id with next := next }) :=
  update_rewrites hid fun old => { old with next := next }

theorem setPrev_rewrites (hid : arena.Live id) (prev : NodeId) :
    ∃ after, setPrev arena id prev = .ok after ∧ Rewrites arena after
      (Function.update (table arena) id { table arena id with prev := prev }) :=
  update_rewrites hid fun old => { old with prev := prev }

theorem linksOf_eq (hid : arena.Live id) : linksOf arena id = .ok (table arena id) := by
  obtain ⟨record, hrecord⟩ := Option.isSome_iff_exists.mp hid
  rw [linksOf, Arena.fetch_of_get? hrecord, table_of_get? hrecord]
  rfl

theorem isAlone_eq (hid : arena.Live id) :
    isAlone arena id = .ok ((table arena id).next == id) := by
  rw [isAlone, linksOf_eq hid]
  rfl

theorem isolate_rewrites (hid : arena.Live id) :
    ∃ after, isolate arena id = .ok after ∧
      Rewrites arena after (Function.update (table arena) id (.alone id)) :=
  setLinks_rewrites hid _

/-! ## Joining and leaving -/

theorem append_rewrites (hhead : arena.Live head) (htail : arena.Live (table arena head).prev)
    (hid : arena.Live id) :
    ∃ after, append arena head id = .ok after ∧
      Rewrites arena after ((table arena).append head id) := by
  obtain ⟨first, hfirst, rfirst⟩ := setLinks_rewrites hid ⟨head, (table arena head).prev⟩
  obtain ⟨second, hsecond, rsecond⟩ := setNext_rewrites (rfirst.live_iff.mpr htail) id
  obtain ⟨third, hthird, rthird⟩ :=
    setPrev_rewrites (rsecond.live_iff.mpr (rfirst.live_iff.mpr hhead)) id
  refine ⟨third, ?_, ?_⟩
  · rw [append, linksOf_eq hhead]
    show (setLinks arena id ⟨head, (table arena head).prev⟩ >>= _) = _
    rw [hfirst]
    show (setNext first (table arena head).prev id >>= _) = _
    rw [hsecond]
    exact hthird
  · refine ⟨?_, (rfirst.trans (rsecond.trans rthird)).project_eq⟩
    rw [rthird.table_eq, rsecond.table_eq, rfirst.table_eq]
    rfl

theorem remove_rewrites (hid : arena.Live id) (hprev : arena.Live (table arena id).prev)
    (hnext : arena.Live (table arena id).next) :
    ∃ after, remove arena id = .ok after ∧ Rewrites arena after ((table arena).remove id) := by
  obtain ⟨first, hfirst, rfirst⟩ := setNext_rewrites hprev (table arena id).next
  obtain ⟨second, hsecond, rsecond⟩ :=
    setPrev_rewrites (rfirst.live_iff.mpr hnext) (table arena id).prev
  obtain ⟨third, hthird, rthird⟩ :=
    isolate_rewrites (rsecond.live_iff.mpr (rfirst.live_iff.mpr hid))
  refine ⟨third, ?_, ?_⟩
  · rw [remove, linksOf_eq hid]
    show (setNext arena (table arena id).prev (table arena id).next >>= _) = _
    rw [hfirst]
    show (setPrev first (table arena id).next (table arena id).prev >>= _) = _
    rw [hsecond]
    exact hthird
  · refine ⟨?_, (rfirst.trans (rsecond.trans rthird)).project_eq⟩
    rw [rthird.table_eq, rsecond.table_eq, rfirst.table_eq]
    rfl

end Ring

end ElasticTree
