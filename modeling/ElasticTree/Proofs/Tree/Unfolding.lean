import ElasticTree.Proofs.Shape.Occurrence
import ElasticTree.Proofs.Tree.Walking
import ElasticTree.Shape.Unfolding

/-!
# Standing trees unfold

A tree that stands as a shape is well formed: its links unfold to the shape, and
no live node records a role that it does not play there.  What a single node
records depends on where it is found in the shape, and there are three ways for
that (`Stance`).
-/

namespace ElasticTree

open Shape

/-- Where a node is found in a shape, and what it records accordingly. -/
inductive Stance {K V : Type} (shape : Option Shape) (id : NodeId) (node : Node K V) : Prop where
  | detached (not_mem : id ∉ shape.elim [] Shape.members)
      (placement_eq : node.placement = .detached)
      (branch_eq : node.branch = none) (ring_eq : node.ring = .alone id)
  | chained (context : Context) (head : NodeId) (behind : List NodeId)
      (shape_eq : shape = some (context.plug (.leaf head behind))) (mem : id ∈ behind)
      (placement_eq : node.placement = .chained) (branch_eq : node.branch = none)
  | placed (context : Context) (behind : List NodeId)
      (shape_eq : shape = some (context.plug (.leaf id behind)))
      (placement_eq : node.placement = .placed context.position)

namespace Tree

namespace Stands

variable {K V : Type} {tree : Tree K V} {shape : Option Shape} {id : NodeId} {node : Node K V}
  {context : Context} {hole : Shape}

/-- A node lends a branch to the tree if and only if the shape has one of it. -/
theorem branch_ne_none_iff (h : tree.Stands shape) (hnode : tree.nodes.get? id = some node) :
    node.branch ≠ none ↔ id ∈ shape.elim [] Shape.owners := by
  rw [← branch_layout hnode, ne_eq, h.draws.branch_eq_none_iff, not_not]

/-- A branch in use is one of the shape, and stored as it stands there. -/
theorem exists_plug_of_branch {branch : Branch} (h : tree.Stands shape)
    (hnode : tree.nodes.get? id = some node) (hbranch : node.branch = some branch) :
    ∃ (context : Context) (split : Int) (left right : Shape),
      shape = some (context.plug (.branch id split left right)) ∧
        branch = ⟨context.position, left.link, right.link, split⟩ := by
  have howner : id ∈ shape.elim [] Shape.owners :=
    (h.branch_ne_none_iff hnode).mp (by simp [hbranch])
  cases shape with
  | none => simp at howner
  | some found =>
      obtain ⟨context, split, left, right, rfl⟩ := exists_plug_of_mem_owners howner
      obtain ⟨owner, hget, howner_branch⟩ := h.exists_owner
      obtain rfl : owner = node := Option.some.inj (hget.symm.trans hnode)
      exact ⟨context, split, left, right, rfl, Option.some.inj (hbranch.symm.trans howner_branch)⟩

/-- No node holds a leaf position and is chained as well. -/
theorem not_mem_chained (h : tree.Stands shape) (hid : id ∈ shape.elim [] Shape.leaves) :
    id ∉ shape.elim [] Shape.chained := by
  cases shape with
  | none => simp at hid
  | some found =>
      intro hchained
      have hnodup := h.draws.members_nodup
      rw [Option.elim_some, (members_perm _).nodup_iff, List.nodup_append] at hnodup
      exact hnodup.2.2 id hid id hchained rfl

theorem stance (h : tree.Stands shape) (hnode : tree.nodes.get? id = some node) :
    Stance shape id node := by
  by_cases hid : id ∈ shape.elim [] Shape.members
  · cases shape with
    | none => simp at hid
    | some found =>
        obtain ⟨context, head, behind, rfl, hmem⟩ := exists_plug_of_mem_members hid
        rcases List.mem_cons.mp hmem with rfl | hmem
        · exact .placed context behind rfl ((placement_layout hnode).symm.trans h.leaf_placement)
        · refine .chained context head behind rfl hmem
            ((placement_layout hnode).symm.trans (h.chained_placement hmem)) ?_
          by_contra hbranch
          have hleaf := h.draws.owners_subset id ((h.branch_ne_none_iff hnode).mp hbranch)
          exact h.not_mem_chained hleaf
            ((chained_plug _ _).mem_iff.mpr (List.mem_append_left _ hmem))
  · have hplacement := h.placement_eq_detached_iff.mpr hid
    have hfree := (h.draws.isFree hplacement).1
    exact .detached hid ((placement_layout hnode).symm.trans hplacement)
      ((branch_layout hnode).symm.trans hfree.branch) ((ring_layout hnode).symm.trans hfree.ring)

/-! ## Well-formedness -/

/-- Every link unfolds to what hangs from it. -/
theorem unfolds (h : tree.Stands (some (context.plug hole))) :
    tree.Unfolds context.position hole.link hole := by
  induction hole generalizing context with
  | leaf head behind =>
      obtain ⟨node, hnode, hplacement⟩ := h.exists_head
      exact .leaf hnode hplacement
        (Ring.cycle_iff.mpr ⟨h.leaf_ring, fun other hother => h.live (mem_of_leaf hother)⟩)
  | branch owner split left right hleft hright =>
      obtain ⟨node, hnode, hbranch⟩ := h.exists_owner
      exact .branch hnode hbranch rfl (hleft h.into_left) (hright h.into_right)

theorem formsWith (h : tree.Stands shape) : tree.FormsWith shape where
  unfolds := by
    cases shape with
    | none => exact h.root_eq
    | some found =>
        have hplug : tree.Stands (some (Context.plug [] found)) := h
        exact ⟨found.link, h.root_eq, hplug.unfolds⟩
  leaves_nodup found hfound := (Option.mem_def.mp hfound ▸ h).draws.leaves_nodup
  owners_nodup found hfound := (Option.mem_def.mp hfound ▸ h).draws.owners_nodup
  covered := h.draws.covered
  placed_reached id node position hnode hplacement := by
    cases h.stance hnode with
    | detached _ hdetached => simp [hdetached] at hplacement
    | chained _ _ _ _ _ hchained => simp [hchained] at hplacement
    | placed context behind hshape _ =>
        exact ⟨_, hshape, (leaves_plug _ _).mem_iff.mpr (by simp [leaves])⟩
  branch_reached id node hnode hbranch := by
    have howner := (h.branch_ne_none_iff hnode).mp hbranch
    cases shape with
    | none => simp at howner
    | some found => exact ⟨found, rfl, howner⟩
  chained_iff id node hnode := by
    have hchained := h.draws.carries.isChained_iff id
    rw [Layout.IsChained, placement_layout hnode] at hchained
    rw [hchained]
    cases shape <;> simp
  detached_alone id node hnode hplacement := by
    cases h.stance hnode with
    | detached _ _ hbranch hring => exact ⟨hbranch, hring⟩
    | chained _ _ _ _ _ hchained => simp [hchained] at hplacement
    | placed _ _ _ hplaced => simp [hplaced] at hplacement
  linked_eq := by
    rw [h.linked_eq]
    cases shape <;> rfl

/-- A leaf position is what a node has whose placement says so. -/
theorem mem_leaves_iff (h : tree.Stands shape) : id ∈ shape.elim [] Shape.leaves ↔
    ∃ node position, tree.nodes.get? id = some node ∧ node.placement = .placed position := by
  constructor
  · intro hid
    cases shape with
    | none => simp at hid
    | some found =>
        obtain ⟨context, behind, rfl⟩ := exists_plug_of_mem_leaves hid
        obtain ⟨node, hnode, hplacement⟩ := h.exists_head
        exact ⟨node, _, hnode, hplacement⟩
  · rintro ⟨node, position, hnode, hplacement⟩
    obtain ⟨found, hfound, hid⟩ := h.formsWith.placed_reached id node position hnode hplacement
    rw [Option.mem_def] at hfound
    subst hfound
    exact hid

end Stands

end Tree

end ElasticTree
