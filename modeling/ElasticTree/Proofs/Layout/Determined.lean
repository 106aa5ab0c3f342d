import ElasticTree.Proofs.Layout.Drawing

/-!
# What a drawing determines

A layout draws no more than one shape, and a shape is drawn by no more than one
layout.  So to see that two changes of a tree come to the same, it is enough to
see that they lead to the same shape, however different the assignments are that
they consist of.

The layout is read off the roles: the slots, the seats and the splits make up the
branches, and the seats and the chained nodes make up the placements.  In the
other direction, the shape is read off the links from the root down.
-/

namespace ElasticTree

open Shape

namespace Layout

variable {layout layout' : Layout} {roles : List Role} {context context' : Context}

/-! ## Layouts of one shape -/

/-- Branches are what their seats, their slots and their splits say. -/
private theorem branch_eq (hslot : layout.slot? = layout'.slot?)
    (hseat : layout.seat? = layout'.seat?)
    (hsplit : layout.split? = layout'.split?) : layout.branch = layout'.branch := by
  funext owner
  cases hbranch : layout.branch owner with
  | none =>
      have hnone : layout.split? owner = none := by simp [split?, hbranch]
      by_contra hsome
      exact branch_ne_none_iff.mp (Ne.symm hsome) (hsplit ▸ hnone)
  | some branch =>
      symm
      show layout'.branch owner = some ⟨branch.position, branch.left, branch.right, branch.split⟩
      refine branch_eq_some ?_ ?_ ?_ ?_
      · rw [← hseat, seat?, hbranch, Option.map_some]
      · rw [← hslot, slot?, hbranch, Option.map_some, Branch.child]
      · rw [← hslot, slot?, hbranch, Option.map_some, Branch.child]
      · rw [← hsplit, split?, hbranch, Option.map_some]

/-- Placements are what the seats say, and which nodes are chained. -/
private theorem placement_eq (hseat : layout.seat? = layout'.seat?)
    (hchained : ∀ id, layout.IsChained id ↔ layout'.IsChained id) :
    layout.placement = layout'.placement := by
  funext id
  have hposition : (layout.placement id).position? = (layout'.placement id).position? :=
    congrFun hseat (.leaf id)
  have hchained := hchained id
  unfold IsChained at hchained
  cases hplacement : layout.placement id <;> cases hplacement' : layout'.placement id <;>
    simp_all

/-- Two layouts that carry out the same roles are the same. -/
theorem Carries.eq (h : layout.Carries roles) (h' : layout'.Carries roles) : layout = layout' := by
  have hslot := h.wires.slot.function_eq h'.wires.slot
  have hseat := h.wires.seat.function_eq h'.wires.seat
  have hring : layout.ring = layout'.ring := by
    funext id
    by_cases hid : id ∈ roles.flatMap Role.members
    · -- a node that is met is a member of one of the rings
      obtain ⟨role, hrole, hmem⟩ := List.mem_flatMap.mp hid
      cases role with
      | branch position owner split => simp at hmem
      | leaf position head behind =>
          have hmember : (head, behind) ∈ roles.flatMap Role.rings :=
            List.mem_flatMap.mpr ⟨_, hrole, by simp⟩
          exact (h.rings _ hmember).links_eq (h'.rings _ hmember) hmem
    · rw [h.alone id hid, h'.alone id hid]
  have hplacement :=
    placement_eq hseat fun id => (h.isChained_iff id).trans (h'.isChained_iff id).symm
  have hbranch := branch_eq hslot hseat (h.wires.fork.function_eq h'.wires.fork)
  have hroot : layout.root = layout'.root := congrFun hslot .root
  cases layout
  cases layout'
  simp_all

/-- Two layouts that draw the same shape are the same. -/
theorem Draws.layout_eq {shape : Option Shape} (h : layout.Draws shape) (h' : layout'.Draws shape) :
    layout = layout' :=
  h.carries.eq h'.carries

/-! ## Shapes of one layout -/

/-- What hangs from a slot is determined by the link that is found there. -/
private theorem hole_eq {hole hole' : Shape} (h : layout.Draws (some (context.plug hole)))
    (h' : layout.Draws (some (context'.plug hole'))) (hlink : hole.link = hole'.link) :
    hole = hole' := by
  induction hole generalizing context context' hole' with
  | leaf head behind =>
      cases hole' with
      | branch owner split left right => simp [link] at hlink
      | leaf head' behind' =>
          obtain rfl : head = head' := by simpa [link] using hlink
          rw [h.leaf_ring.rest_eq h'.leaf_ring]
  | branch owner split left right hleft hright =>
      cases hole' with
      | leaf head behind => simp [link] at hlink
      | branch owner' split' left' right' =>
          obtain rfl : owner = owner' := by simpa [link] using hlink
          have hbranch :=
            h.carries_plug.wires.branch_root.symm.trans h'.carries_plug.wires.branch_root
          simp only [Option.some.injEq, Branch.mk.injEq] at hbranch
          obtain ⟨-, hlink_left, hlink_right, rfl⟩ := hbranch
          have hinto : layout.Draws
              (some (Context.plug (⟨owner, split, .left, right⟩ :: context) left)) := h
          have hinto' : layout.Draws
              (some (Context.plug (⟨owner, split, .left, right'⟩ :: context') left')) := h'
          have hbeside : layout.Draws
              (some (Context.plug (⟨owner, split, .right, left⟩ :: context) right)) := h
          have hbeside' : layout.Draws
              (some (Context.plug (⟨owner, split, .right, left'⟩ :: context') right')) := h'
          rw [hleft hinto hinto' hlink_left, hright hbeside hbeside' hlink_right]

/-- A layout draws one shape only. -/
theorem Draws.shape_eq {shape shape' : Option Shape} (h : layout.Draws shape)
    (h' : layout.Draws shape') : shape = shape' := by
  have hroot : ∀ {shape : Option Shape}, layout.Draws shape →
      layout.root = shape.map Shape.link := by
    intro shape h
    cases shape with
    | none =>
        have hslot : layout.slot? .root = none := by simp [h.carries.wires.slot.eq_none_iff]
        exact hslot
    | some found =>
        have hplug : layout.Draws (some (Context.plug [] found)) := h
        exact hplug.carries_plug.wires.slot_root
  have hlinks := (hroot h).symm.trans (hroot h')
  cases shape with
  | none =>
      cases shape' with
      | none => rfl
      | some found => simp at hlinks
  | some found =>
      cases shape' with
      | none => simp at hlinks
      | some found' =>
          have hplug : layout.Draws (some (Context.plug [] found)) := h
          have hplug' : layout.Draws (some (Context.plug [] found')) := h'
          exact congrArg some (hole_eq hplug hplug' (by simpa using hlinks))

end Layout

end ElasticTree
