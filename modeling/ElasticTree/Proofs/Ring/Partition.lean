import ElasticTree.Node
import ElasticTree.Proofs.Arena.Entries
import ElasticTree.Proofs.Ring.Splicing

/-!
# Arenas full of rings

If the links of an arena partition its records into rings, they go on doing so
whatever joins or leaves a ring.  A ring that is entered through another of its
members is the same list read from there (`Circle.enter`), and two rings with a
member in common have all of them in common (`Circle.mem_of_mem`), so each record
lies in one ring only and what is written in one ring is not seen in another.

Leaving a ring at once after joining it puts all links back
(`Circle.remove_append`).
-/

namespace ElasticTree

namespace Ring

open RingMember

/-! ## Circles -/

namespace Circle

variable {table : Table} {head id other : NodeId} {rest others before after : List NodeId}

/-- A circle may be entered through any of its members. -/
theorem enter (h : Circle table head (before ++ id :: after)) :
    Circle table id (after ++ head :: before) := by
  induction before generalizing head after with
  | nil => exact h.rotate
  | cons first before ih =>
      have hround : Circle table first (before ++ id :: (after ++ [head])) := by
        simpa using h.rotate
      simpa using ih hround

theorem exists_enter (h : Circle table head rest) (hid : id ∈ head :: rest) :
    ∃ others, Circle table id others ∧ ∀ member, member ∈ id :: others ↔ member ∈ head :: rest := by
  rcases List.mem_cons.mp hid with rfl | hid
  · exact ⟨rest, h, fun _ => Iff.rfl⟩
  · obtain ⟨before, after, rfl⟩ := List.append_of_mem hid
    refine ⟨_, h.enter, fun member => ?_⟩
    simp only [List.mem_cons, List.mem_append]
    tauto

/-- Circles do not overlap: with one member in common, the head of one is a member
of the other. -/
theorem mem_of_mem (h : Circle table head rest) (h' : Circle table other others)
    (hid : id ∈ head :: rest) (hid' : id ∈ other :: others) : other ∈ head :: rest := by
  obtain ⟨members, hcircle, hmembers⟩ := h.exists_enter hid
  obtain ⟨members', hcircle', hmembers'⟩ := h'.exists_enter hid'
  obtain rfl := hcircle.rest_eq hcircle'
  exact (hmembers other).mp ((hmembers' other).mpr List.mem_cons_self)

/-- The successor of the last member is the first. -/
theorem next_prev_head (h : Circle table head rest) : (table (table head).prev).next = head := by
  obtain ⟨init, hlist⟩ := h.exists_tail
  have hchain := h.faces
  rw [← List.cons_append, hlist, List.append_assoc, List.singleton_append,
    List.isChain_append_cons_cons] at hchain
  exact hchain.2.1.1

/-- What has joined a circle can leave it without a trace. -/
theorem remove_append (h : Circle table head rest) (hid : id ∉ head :: rest)
    (halone : table id = .alone id) : (table.append head id).remove id = table := by
  have hhead : id ≠ head := fun heq => hid (heq ▸ List.mem_cons_self)
  have htail : id ≠ (table head).prev := fun heq => hid (heq ▸ h.prev_head_mem)
  have hprev : (table.append head id id).prev = (table head).prev := by
    rw [Table.prev_append, if_neg hhead, if_pos rfl]
  have hnext : (table.append head id id).next = head := by
    rw [Table.next_append, if_neg htail, if_pos rfl]
  funext other
  have hsame : ((table.append head id).remove id other).next = (table other).next ∧
      ((table.append head id).remove id other).prev = (table other).prev := by
    rw [Table.next_remove, Table.prev_remove, hprev, hnext, Table.next_append, Table.prev_append]
    refine ⟨?_, ?_⟩
    · split_ifs with hother hother
      · rw [hother, halone, RingLinks.alone]
      · rw [hother, h.next_prev_head]
      · rfl
    · split_ifs with hother hother
      · rw [hother, halone, RingLinks.alone]
      · rw [hother]
      · rfl
  cases hlinks : table other
  cases hlinks' : (table.append head id).remove id other
  simp_all

end Circle

/-! ## Rings in an arena -/

variable {α : Type} [RingMember α] {arena after : Arena α} {head id other : NodeId}
  {rest others members : List NodeId}

namespace Cycle

theorem live (h : Cycle arena head rest) (hid : id ∈ head :: rest) : arena.Live id :=
  (cycle_iff.mp h).2 id hid

theorem exists_enter (h : Cycle arena head rest) (hid : id ∈ head :: rest) :
    ∃ others, Cycle arena id others ∧ ∀ member, member ∈ id :: others ↔ member ∈ head :: rest := by
  obtain ⟨others, hcircle, hmembers⟩ := (cycle_iff.mp h).1.exists_enter hid
  exact ⟨others,
    cycle_iff.mpr ⟨hcircle, fun member hmember => h.live ((hmembers member).mp hmember)⟩, hmembers⟩

theorem mem_of_mem (h : Cycle arena head rest) (h' : Cycle arena other others)
    (hid : id ∈ head :: rest) (hid' : id ∈ other :: others) : other ∈ head :: rest :=
  (cycle_iff.mp h).1.mem_of_mem (cycle_iff.mp h').1 hid hid'

theorem isAlone_eq (h : Cycle arena id rest) : isAlone arena id = .ok (decide (rest = [])) := by
  obtain ⟨hcircle, hlive⟩ := cycle_iff.mp h
  rw [Ring.isAlone_eq (hlive id List.mem_cons_self), Except.ok.injEq, Bool.eq_iff_iff, beq_iff_eq,
    decide_eq_true_eq, hcircle.next_head_eq_iff]

end Cycle

/-- The members are those of whole rings. -/
def Closed (arena : Arena α) (members : List NodeId) : Prop :=
  ∀ id ∈ members, ∃ rest, Cycle arena id rest ∧ ∀ member ∈ rest, member ∈ members

theorem Cycle.closed (h : Cycle arena head rest) : Closed arena (head :: rest) := by
  intro id hid
  obtain ⟨others, hcycle, hmembers⟩ := h.exists_enter hid
  exact ⟨others, hcycle,
    fun member hmember => (hmembers member).mp (List.mem_cons_of_mem _ hmember)⟩

theorem Closed.append {members' : List NodeId} (h : Closed arena members)
    (h' : Closed arena members') : Closed arena (members ++ members') := by
  intro id hid
  rcases List.mem_append.mp hid with hid | hid
  · obtain ⟨rest, hcycle, hrest⟩ := h id hid
    exact ⟨rest, hcycle, fun member hmember => List.mem_append_left _ (hrest member hmember)⟩
  · obtain ⟨rest, hcycle, hrest⟩ := h' id hid
    exact ⟨rest, hcycle, fun member hmember => List.mem_append_right _ (hrest member hmember)⟩

/-- Another ring has no member in common with them. -/
theorem Closed.apart (h : Closed arena members) (hcycle : Cycle arena other others)
    (hother : other ∉ members) : ∀ id ∈ other :: others, id ∉ members := by
  intro id hid hmem
  obtain ⟨rest, hring, hrest⟩ := h id hmem
  rcases List.mem_cons.mp (hring.mem_of_mem hcycle List.mem_cons_self hid) with rfl | hmem'
  · exact hother hmem
  · exact hother (hrest other hmem')

/-! ## What changes -/

/-- A record whose links are put back is the record it was. -/
theorem Rewrites.get?_eq {links' : Table} (h : Rewrites arena after links')
    (hsame : links' other = table arena other) : after.get? other = arena.get? other := by
  have hview : (after.project (withLinks (.alone other) : α → α)).get? other =
      (arena.project (withLinks (.alone other))).get? other := by
    rw [h.project_eq _ fun new record => withLinks_withLinks _ new record]
  rw [Arena.get?_project, Arena.get?_project] at hview
  have htable : table after other = table arena other := (congrFun h.table_eq other).trans hsame
  cases hafter : after.get? other with
  | none =>
      rw [hafter, Option.map_none, eq_comm, Option.map_eq_none_iff] at hview
      exact hview.symm
  | some record =>
      rw [hafter, Option.map_some, eq_comm, Option.map_eq_some_iff] at hview
      obtain ⟨record', hbefore, hview⟩ := hview
      rw [table_of_get? hafter, table_of_get? hbefore] at htable
      rw [hbefore, Option.some.injEq]
      -- both records come from what is left without the links, with the same links
      calc record = withLinks (links record) (withLinks (.alone other) record) := by
            rw [withLinks_withLinks, withLinks_links]
        _ = withLinks (links record') (withLinks (.alone other) record') := by rw [htable, hview]
        _ = record' := by rw [withLinks_withLinks, withLinks_links]

theorem Rewrites.relinks {links' : Table} (h : Rewrites arena after links')
    (hsame : ∀ id ∉ members, links' id = table arena id) : Relinks members arena after where
  get?_eq id hid := h.get?_eq (hsame id hid)
  project_eq := h.project_eq

namespace Relinks

theorem live_iff (h : Relinks members arena after) : after.Live id ↔ arena.Live id :=
  Arena.live_iff_of_project_eq (h.project_eq (fun _ => ()) fun _ _ => rfl)

/-- The rings of other members stay as they are. -/
theorem cycle (h : Relinks members arena after) (hclosed : Closed arena members)
    (hcycle : Cycle arena other others) (hother : other ∉ members) : Cycle after other others := by
  obtain ⟨hcircle, hlive⟩ := cycle_iff.mp hcycle
  refine cycle_iff.mpr ⟨hcircle.congr fun id hid => ?_, fun id hid => h.live_iff.mpr (hlive id hid)⟩
  rw [table, table, h.get?_eq id (hclosed.apart hcycle hother id hid)]

/-- If the members are in rings again, all records are. -/
theorem ringed (h : Relinks members arena after) (hringed : Ringed arena)
    (hclosed : Closed arena members) (hmembers : Closed after members) : Ringed after := by
  intro id hid
  by_cases hmem : id ∈ members
  · obtain ⟨rest, hcycle, -⟩ := hmembers id hmem
    exact ⟨rest, hcycle⟩
  · obtain ⟨rest, hcycle⟩ := hringed id (h.live_iff.mp hid)
    exact ⟨rest, h.cycle hclosed hcycle hmem⟩

end Relinks

/-! ## Joining and leaving -/

namespace Cycle

/-- A record that is alone is in no other ring. -/
theorem not_mem_of_alone (h : Cycle arena head rest) (hid : Cycle arena id []) (hne : id ≠ head) :
    id ∉ head :: rest := by
  intro hmem
  have hhead := hid.mem_of_mem h List.mem_cons_self hmem
  exact hne (List.mem_singleton.mp hhead).symm

theorem remove_rewrites (h : Cycle arena id rest) :
    ∃ after, remove arena id = .ok after ∧ Rewrites arena after ((table arena).remove id) := by
  obtain ⟨hprev, hnext⟩ := (cycle_iff.mp h).1.links_mem List.mem_cons_self
  exact Ring.remove_rewrites (h.live List.mem_cons_self) (h.live hprev) (h.live hnext)

/-- A record that was alone joins a ring as its last member, and it may leave again
as if nothing had been. -/
theorem append (h : Cycle arena head rest) (hid : Cycle arena id []) (hne : id ≠ head) :
    ∃ joined, append arena head id = .ok joined ∧
      Relinks (head :: (rest ++ [id])) arena joined ∧ Cycle joined head (rest ++ [id]) ∧
      ∃ restored, remove joined id = .ok restored ∧ Relinks [] arena restored := by
  obtain ⟨hcircle, hlive⟩ := cycle_iff.mp h
  have hmem := h.not_mem_of_alone hid hne
  obtain ⟨joined, hjoined, hrewrites⟩ :=
    append_rewrites (h.live List.mem_cons_self) (h.live hcircle.prev_head_mem)
      (hid.live List.mem_cons_self)
  have hrelinks : Relinks (head :: (rest ++ [id])) arena joined := by
    refine hrewrites.relinks fun other hother => ?_
    rw [← List.cons_append, List.mem_append, List.mem_singleton, not_or] at hother
    exact Table.append_of_ne (fun heq => hother.1 (heq ▸ List.mem_cons_self))
      (fun heq => hother.1 (heq ▸ hcircle.prev_head_mem)) hother.2
  have hcycle : Cycle joined head (rest ++ [id]) := by
    refine cycle_iff.mpr ⟨hrewrites.table_eq ▸ hcircle.append hmem, fun other hother => ?_⟩
    rw [hrelinks.live_iff]
    rw [← List.cons_append, List.mem_append, List.mem_singleton] at hother
    exact hother.elim h.live fun heq => hid.live (heq ▸ List.mem_cons_self)
  obtain ⟨_, hround, -⟩ := hcycle.exists_enter (by simp : id ∈ head :: (rest ++ [id]))
  obtain ⟨restored, hrestored, hrewrites'⟩ := hround.remove_rewrites
  refine ⟨joined, hjoined, hrelinks, hcycle, restored, hrestored, ?_⟩
  refine (hrewrites.trans hrewrites').relinks fun other _ => ?_
  rw [hrewrites.table_eq,
    hcircle.remove_append hmem (Circle.nil_iff.mp (cycle_iff.mp hid).1)]

/-- A record leaves its ring, which closes behind it. -/
theorem remove (h : Cycle arena id rest) :
    ∃ left, remove arena id = .ok left ∧ Relinks (id :: rest) arena left ∧ Cycle left id [] ∧
      ∀ heir others, rest = heir :: others → Cycle left heir others := by
  obtain ⟨hcircle, hlive⟩ := cycle_iff.mp h
  obtain ⟨left, hleft, hrewrites⟩ := h.remove_rewrites
  have hrelinks : Relinks (id :: rest) arena left := by
    obtain ⟨hprev, hnext⟩ := hcircle.links_mem List.mem_cons_self
    refine hrewrites.relinks fun other hother => ?_
    exact Table.remove_of_ne (fun heq => hother (heq ▸ List.mem_cons_self))
      (fun heq => hother (heq ▸ hprev)) (fun heq => hother (heq ▸ hnext))
  refine ⟨left, hleft, hrelinks, cycle_iff.mpr ⟨?_, ?_⟩, ?_⟩
  · rw [hrewrites.table_eq, Circle.nil_iff, Table.remove_self]
  · exact fun other hother => hrelinks.live_iff.mpr (hlive other (by
      rw [List.mem_singleton.mp hother]
      exact List.mem_cons_self))
  · rintro heir others rfl
    refine cycle_iff.mpr ⟨hrewrites.table_eq ▸ hcircle.remove_head, fun other hother => ?_⟩
    exact hrelinks.live_iff.mpr (hlive other (List.mem_cons_of_mem _ hother))

end Cycle

/-- In an arena full of rings, a ring is a list, for whichever member it is read from,
and a record is alone if nothing comes behind it in the list.

A record that is alone joins another ring as its last member, just before the head,
and leaving at once afterwards puts all links back.  A record that leaves its ring is
alone then, and the ring goes on from the next member as it did before.  Both leave an
arena full of rings, in which all other rings are the same and no record has changed in
anything but its links. -/
theorem rings_exact (hringed : Ringed arena) :
    (∀ id, arena.Live id → ∃ rest, Cycle arena id rest ∧
      (∀ rest', Cycle arena id rest' → rest' = rest) ∧
      isAlone arena id = .ok (decide (rest = []))) ∧
    (∀ head rest id, Cycle arena head rest → Cycle arena id [] → id ≠ head →
      ∃ joined, append arena head id = .ok joined ∧ Ringed joined ∧
        Cycle joined head (rest ++ [id]) ∧ (∃ next, linksOf joined head = .ok ⟨next, id⟩) ∧
        Relinks (head :: (rest ++ [id])) arena joined ∧
        (∀ other others, Cycle arena other others → other ∉ head :: (rest ++ [id]) →
          Cycle joined other others) ∧
        ∃ restored, remove joined id = .ok restored ∧ Relinks [] arena restored) ∧
    ∀ id rest, Cycle arena id rest →
      ∃ left, remove arena id = .ok left ∧ Ringed left ∧ Cycle left id [] ∧
        (∀ heir others, rest = heir :: others → Cycle left heir others) ∧
        Relinks (id :: rest) arena left ∧
        ∀ other others, Cycle arena other others → other ∉ id :: rest →
          Cycle left other others := by
  refine ⟨fun id hlive => ?_, fun head rest id hhead hid hne => ?_, fun id rest hcycle => ?_⟩
  · obtain ⟨rest, hcycle⟩ := hringed id hlive
    exact ⟨rest, hcycle, fun rest' hcycle' =>
      (cycle_iff.mp hcycle').1.rest_eq (cycle_iff.mp hcycle).1, hcycle.isAlone_eq⟩
  · obtain ⟨joined, hjoined, hrelinks, hcycle, hrestores⟩ := hhead.append hid hne
    have hclosed : Closed arena (head :: (rest ++ [id])) := hhead.closed.append hid.closed
    refine ⟨joined, hjoined, hrelinks.ringed hringed hclosed hcycle.closed, hcycle, ?_, hrelinks,
      fun other others hother => hrelinks.cycle hclosed hother, hrestores⟩
    have hprev : (table joined head).prev = id := by
      rw [(cycle_iff.mp hcycle).1.prev_head, List.getLastD_concat]
    exact ⟨(table joined head).next, by
      rw [linksOf_eq (hcycle.live List.mem_cons_self), ← hprev]⟩
  · obtain ⟨left, hleft, hrelinks, halone, hheir⟩ := hcycle.remove
    refine ⟨left, hleft, hrelinks.ringed hringed hcycle.closed ?_, halone, hheir, hrelinks,
      fun other others hother => hrelinks.cycle hcycle.closed hother⟩
    cases rest with
    | nil => exact halone.closed
    | cons heir others => exact halone.closed.append (hheir heir others rfl).closed

/-- A ring of three, a ring of two and a record that is alone. -/
private def crowd : Arena (Node Nat Unit) :=
  [(2, 1), (0, 2), (1, 0), (4, 4), (3, 3), (5, 5)].foldl (fun arena (next, prev) =>
    (arena.add fun _ => ⟨0, (), .detached, none, ⟨⟨next, 0⟩, ⟨prev, 0⟩⟩⟩).2) .empty

private theorem ringed_crowd : Ringed crowd := by
  have hsound : crowd.Sound := by
    dsimp only [crowd, List.foldl_cons, List.foldl_nil]
    refine ((((((Arena.sound_empty.add ?_ _).add ?_ _).add ?_ _).add ?_ _).add ?_ _).add ?_ _) <;>
      exact .inr (by decide)
  have hall : ∀ id ∈ crowd.names, ∃ rest ∈ [[], [⟨3, 0⟩], [⟨4, 0⟩], [⟨2, 0⟩, ⟨1, 0⟩],
      [⟨1, 0⟩, ⟨0, 0⟩], [⟨0, 0⟩, ⟨2, 0⟩]], Cycle crowd id rest := by decide +kernel
  intro id hlive
  obtain ⟨rest, -, hcycle⟩ := hall id ((Arena.mem_names_iff hsound).mpr hlive)
  exact ⟨rest, hcycle⟩

theorem rings_exact_crowd :
    Ringed crowd ∧ Cycle crowd ⟨3, 0⟩ [⟨4, 0⟩] ∧ Cycle crowd ⟨5, 0⟩ [] ∧
      (∃ joined, append crowd ⟨3, 0⟩ ⟨5, 0⟩ = .ok joined ∧ Ringed joined ∧
        Cycle joined ⟨3, 0⟩ [⟨4, 0⟩, ⟨5, 0⟩] ∧ Cycle joined ⟨1, 0⟩ [⟨0, 0⟩, ⟨2, 0⟩] ∧
        ∃ restored, remove joined ⟨5, 0⟩ = .ok restored ∧ Relinks [] crowd restored) ∧
      ∃ left, remove crowd ⟨0, 0⟩ = .ok left ∧ Ringed left ∧ Cycle left ⟨0, 0⟩ [] ∧
        Cycle left ⟨2, 0⟩ [⟨1, 0⟩] ∧ Cycle left ⟨4, 0⟩ [⟨3, 0⟩] := by
  have hpair : Cycle crowd ⟨3, 0⟩ [⟨4, 0⟩] := by decide +kernel
  have hlone : Cycle crowd ⟨5, 0⟩ [] := by decide +kernel
  obtain ⟨-, happend, hremove⟩ := rings_exact ringed_crowd
  obtain ⟨joined, hjoined, hringed, hcycle, -, -, hothers, hrestores⟩ :=
    happend ⟨3, 0⟩ _ ⟨5, 0⟩ hpair hlone (by decide)
  obtain ⟨left, hleft, hringed', halone, hheir, -, hothers'⟩ :=
    hremove ⟨0, 0⟩ [⟨2, 0⟩, ⟨1, 0⟩] (by decide +kernel)
  exact ⟨ringed_crowd, hpair, hlone,
    ⟨joined, hjoined, hringed, hcycle, hothers _ _ (by decide +kernel) (by decide), hrestores⟩,
    left, hleft, hringed', halone, hheir _ _ rfl, hothers' _ _ (by decide +kernel) (by decide)⟩

end Ring

end ElasticTree
