import ElasticTree.Proofs.Layout.Determined

/-!
# What a change of a layout touches

Every assignment writes to the links of one name, so a change touches no more names
than it has assignments.  Which names these are is found in the layout itself: the
owners of slots, the ends of links, and the neighbours in a ring.  Some of them may
coincide, and so a list of them is only an upper bound.

Unlinking is the widest change.  It closes the gap at the node, and then it may have
to hand over a branch that lies elsewhere, with the slot above it and the two links
below.
-/

namespace ElasticTree

open Shape

/-- The node whose branch has the slot, if it is not the root slot. -/
def Position.owners : Position → List NodeId
  | .root => []
  | .under owner _ => [owner]

theorem Position.length_owners_le (position : Position) : position.owners.length ≤ 1 := by
  cases position <;> simp [owners]

/-- The nodes that a branch is tied to. -/
def Branch.neighbours (branch : Branch) : List NodeId :=
  branch.position.owners ++ [branch.left.node, branch.right.node]

theorem Branch.length_neighbours_le (branch : Branch) : branch.neighbours.length ≤ 3 := by
  have := branch.position.length_owners_le
  simp only [neighbours, List.length_append, List.length_cons, List.length_nil]
  omega

namespace Layout

variable {layout middle after : Layout} {id head : NodeId} {position : Position}
  {names others : List NodeId}

/-- Apart from the names listed, the links of all names are the same. -/
structure Touches (before after : Layout) (names : List NodeId) : Prop where
  placement_eq : ∀ id, id ∉ names → after.placement id = before.placement id
  branch_eq : ∀ id, id ∉ names → after.branch id = before.branch id
  ring_eq : ∀ id, id ∉ names → after.ring id = before.ring id

namespace Touches

theorem trans (h : layout.Touches middle names) (h' : middle.Touches after others) :
    layout.Touches after (names ++ others) := by
  refine ⟨fun id hid => ?_, fun id hid => ?_, fun id hid => ?_⟩ <;>
    rw [List.mem_append, not_or] at hid
  · exact (h'.placement_eq id hid.2).trans (h.placement_eq id hid.1)
  · exact (h'.branch_eq id hid.2).trans (h.branch_eq id hid.1)
  · exact (h'.ring_eq id hid.2).trans (h.ring_eq id hid.1)

theorem mono (h : layout.Touches after names) (hsub : names ⊆ others) :
    layout.Touches after others :=
  ⟨fun id hid => h.placement_eq id fun hmem => hid (hsub hmem),
    fun id hid => h.branch_eq id fun hmem => hid (hsub hmem),
    fun id hid => h.ring_eq id fun hmem => hid (hsub hmem)⟩

/-! ## Single assignments -/

variable (layout id)

theorem setPlacement (placement : Placement) :
    layout.Touches (layout.setPlacement id placement) [id] :=
  ⟨fun other hother => Function.update_of_ne (by simpa using hother) _ _, fun _ _ => rfl,
    fun _ _ => rfl⟩

theorem setBranch (branch : Option Branch) : layout.Touches (layout.setBranch id branch) [id] :=
  ⟨fun _ _ => rfl, fun other hother => Function.update_of_ne (by simpa using hother) _ _,
    fun _ _ => rfl⟩

variable {id}

theorem setRing (names : List NodeId) {ring : Ring.Table}
    (h : ∀ id, id ∉ names → ring id = layout.ring id) :
    layout.Touches (layout.setRing ring) names :=
  ⟨fun _ _ => rfl, fun _ _ => rfl, h⟩

theorem setChild (position : Position) (link : Link) :
    layout.Touches (layout.setChild position link) position.owners := by
  cases position with
  | root => exact ⟨fun _ _ => rfl, fun _ _ => rfl, fun _ _ => rfl⟩
  | under owner side => exact .setBranch layout owner _

theorem setPosition (link : Link) (position : Position) :
    layout.Touches (layout.setPosition link position) [link.node] := by
  cases link with
  | leaf id => exact .setPlacement layout id _
  | branch id => exact .setBranch layout id _

/-- Leaving a ring is noticed by the neighbours. -/
theorem remove (id : NodeId) : layout.Touches (layout.setRing (layout.ring.remove id))
    [id, (layout.ring id).prev, (layout.ring id).next] :=
  .setRing layout _ fun other hother => by
    simp only [List.mem_cons, List.not_mem_nil, or_false, not_or] at hother
    exact Ring.Table.remove_of_ne hother.1 hother.2.1 hother.2.2

/-! ## Linking -/

theorem plant (id : NodeId) : layout.Touches (layout.plant id) [id] := by
  refine ((((setPlacement layout id _).trans (.setBranch _ id none)).trans
    (.setRing _ [id] fun other hother => ?_)).trans (.setChild _ .root _)).mono ?_
  · exact Function.update_of_ne (by simpa using hother) _ _
  · simp [Position.owners]

theorem chain (head id : NodeId) :
    layout.Touches (layout.chain head id) [id, (layout.ring head).prev, head] := by
  refine (((setPlacement layout id _).trans (.setBranch _ id none)).trans
    (.setRing _ [id, (layout.ring head).prev, head] fun other hother => ?_)).mono ?_
  · simp only [List.mem_cons, List.not_mem_nil, or_false, not_or] at hother
    exact Ring.Table.append_of_ne hother.2.2 hother.2.1 hother.1
  · simp

theorem splice (id : NodeId) (position : Position) (old : Link) (side : Side) (split : Int) :
    layout.Touches (layout.splice id position old side split)
      (id :: (position.owners ++ [old.node])) := by
  refine (((((setPlacement layout id _).trans (.setBranch _ id _)).trans
    (.setRing _ [id] fun other hother => ?_)).trans (.setChild _ position _)).trans
      (.setPosition _ old _)).mono ?_
  · exact Function.update_of_ne (by simpa using hother) _ _
  · simp

/-! ## Unlinking -/

theorem uproot (id : NodeId) : layout.Touches (layout.uproot id) [id] := by
  have hcut : layout.Touches { layout with root := none } [] :=
    ⟨fun _ _ => rfl, fun _ _ => rfl, fun _ _ => rfl⟩
  exact hcut.trans (.setPlacement _ id _)

theorem unchain (id : NodeId) : layout.Touches (layout.unchain id)
    [id, (layout.ring id).prev, (layout.ring id).next] :=
  ((remove layout id).trans (.setPlacement _ id _)).mono (by simp)

theorem promote (id heir : NodeId) (position : Position) :
    layout.Touches (layout.promote id heir position)
      (id :: (layout.ring id).prev :: (layout.ring id).next :: heir :: position.owners) :=
  (((remove layout id).trans (.setPlacement _ heir _)).trans (.setChild _ position _)).mono
    (by simp)

theorem lift (owner : NodeId) (branch : Branch) (side : Side) :
    layout.Touches (layout.lift owner branch side)
      (owner :: (branch.child side.opposite).node :: branch.position.owners) :=
  (((setPosition layout _ _).trans (.setChild _ branch.position _)).trans
    (.setBranch _ owner none)).mono (by simp)

theorem relocate (branch : Branch) (spare : NodeId) :
    layout.Touches (layout.relocate branch spare) (spare :: branch.neighbours) :=
  ((((setBranch layout spare _).trans (.setChild _ branch.position _)).trans
    (.setPosition _ branch.left _)).trans (.setPosition _ branch.right _)).mono
      (by simp [Branch.neighbours])

theorem withdraw (id spare : NodeId) : ∃ neighbours : List NodeId, neighbours.length ≤ 3 ∧
    layout.Touches (layout.withdraw id spare) (id :: spare :: neighbours) := by
  rw [Layout.withdraw]
  cases layout.branch id with
  | none => exact ⟨[], by simp, (setPlacement layout id _).mono (by simp)⟩
  | some branch =>
      exact ⟨branch.neighbours, branch.length_neighbours_le,
        (((setPlacement layout id _).trans (.setBranch _ id none)).trans
          (.relocate _ branch spare)).mono (by simp)⟩

end Touches

namespace Draws

/-- Whatever is drawn after a node came differs in two others at most. -/
theorem adds_touches {before : Option Shape} {found : Shape} (h : layout.Draws before)
    (hdetached : layout.placement id = .detached) (hadds : Adds id before found)
    (hafter : after.Draws (some found)) :
    ∃ others : List NodeId, others.length ≤ 2 ∧ layout.Touches after (id :: others) := by
  cases hadds with
  | first =>
      obtain rfl := (h.plant hdetached).layout_eq hafter
      exact ⟨[], by simp, .plant layout id⟩
  | last context head behind =>
      obtain rfl := (h.chain hdetached).layout_eq hafter
      exact ⟨_, by simp, .chain layout head id⟩
  | beside context hole side split =>
      obtain rfl := (h.splice hdetached side split).layout_eq hafter
      refine ⟨_, ?_, .splice layout id context.position hole.link side split⟩
      have := context.position.length_owners_le
      simp only [List.length_append, List.length_cons, List.length_nil]
      omega

/-- Whatever is drawn after a node went differs in six others at most. -/
theorem removes_touches {found : Shape} {left : Option Shape} (h : layout.Draws (some found))
    (hremoves : Removes id found left) (hafter : after.Draws left) :
    ∃ others : List NodeId, others.length ≤ 6 ∧ layout.Touches after (id :: others) := by
  cases hremoves with
  | last =>
      obtain rfl := h.uproot.layout_eq hafter
      exact ⟨[], by simp, .uproot layout id⟩
  | member context head front back =>
      obtain rfl := h.unchain.layout_eq hafter
      exact ⟨_, by simp, .unchain layout id⟩
  | head context heir behind =>
      obtain rfl := h.promote.layout_eq hafter
      -- the next member is the heir, so it is not counted twice
      have hheir : (layout.ring id).next = heir := h.leaf_ring.next_head
      obtain ⟨neighbours, hlength, hwithdraw⟩ :=
        Touches.withdraw (layout.promote id heir context.position) id heir
      refine ⟨(layout.ring id).prev :: heir :: (context.position.owners ++ neighbours), ?_,
        ((Touches.promote layout id heir context.position).trans hwithdraw).mono fun other => ?_⟩
      · have := context.position.length_owners_le
        simp only [List.length_append, List.length_cons]
        omega
      · simp only [hheir, List.mem_append, List.mem_cons]
        tauto
  | single frame outer =>
      obtain ⟨branch, hbranch, -⟩ := h.carries_plug.wires.branch_close
      obtain rfl := (h.lift hbranch).layout_eq hafter
      obtain ⟨neighbours, hlength, hwithdraw⟩ :=
        Touches.withdraw (layout.lift frame.owner branch frame.side) id frame.owner
      refine ⟨frame.owner :: (branch.child frame.side.opposite).node ::
        (branch.position.owners ++ neighbours), ?_,
        ((Touches.lift layout frame.owner branch frame.side).trans hwithdraw).mono fun other => ?_⟩
      · have := branch.position.length_owners_le
        simp only [List.length_append, List.length_cons]
        omega
      · simp only [List.mem_append, List.mem_cons]
        tauto

end Draws

end Layout

end ElasticTree
