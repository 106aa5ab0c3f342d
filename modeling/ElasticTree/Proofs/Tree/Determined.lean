import ElasticTree.Proofs.Layout.Determined
import ElasticTree.Proofs.Tree.Standing

/-!
# What a standing tree is determined by

Nothing is stored in a tree besides keys and values, the links and the count.  So
a tree that stands is given by its contents and its shape, down to every field of
every record.  Two ways to change a tree come to exactly the same if they lead to
the same shape.
-/

namespace ElasticTree

namespace Tree

variable {K V : Type} {tree after : Tree K V} {id : NodeId} {shape shape' : Option Shape}

/-- The record of a name consists of its key, its value and its links. -/
theorem get?_eq_of_links (hkeeps : Keeps tree after)
    (hplacement : after.layout.placement id = tree.layout.placement id)
    (hbranch : after.layout.branch id = tree.layout.branch id)
    (hring : after.layout.ring id = tree.layout.ring id) :
    after.nodes.get? id = tree.nodes.get? id := by
  have hentry := hkeeps.entry_eq id
  cases hnode : tree.nodes.get? id with
  | none => simpa [hnode] using hentry
  | some node =>
      rw [hnode, Option.map_some, Option.map_eq_some_iff] at hentry
      obtain ⟨node', hnode', hsame⟩ := hentry
      rw [placement_layout hnode, placement_layout hnode'] at hplacement
      rw [branch_layout hnode, branch_layout hnode'] at hbranch
      rw [ring_layout hnode, ring_layout hnode'] at hring
      rw [hnode']
      cases node
      cases node'
      simp_all

/-- A tree stands as one shape only. -/
theorem Stands.shape_eq (h : tree.Stands shape) (h' : tree.Stands shape') : shape = shape' :=
  h.draws.shape_eq h'.draws

/-- A tree that stands as the shape of another and has its contents is that other
tree. -/
theorem Stands.tree_eq (h : tree.Stands shape) (h' : after.Stands shape)
    (hkeeps : Keeps tree after) : after = tree := by
  have hlayout := h'.draws.layout_eq h.draws
  have hnodes : after.nodes = tree.nodes :=
    Arena.eq_of_project_eq h'.sound.slotCount_le hkeeps.contents_eq fun id =>
      get?_eq_of_links hkeeps (by rw [hlayout]) (by rw [hlayout]) (by rw [hlayout])
  have hroot := h'.root_eq.trans h.root_eq.symm
  have hlinked := h'.linked_eq.trans h.linked_eq.symm
  have hunique := hkeeps.unique_eq
  cases after
  cases tree
  simp_all

end Tree

end ElasticTree
