import ElasticTree.Proofs.Shape.Occurrence
import ElasticTree.Proofs.Tree.Outline
import ElasticTree.Tree.Paths

/-!
# The paths of a standing tree

Every path of a standing tree is the way through its shape to the hole of some context
(`path_iff`).  No path passes more branches than the shape is high, and one to a leaf
passes as many.
-/

namespace ElasticTree

open Shape

/-- Some leaf lies as deep as the shape is high. -/
theorem Shape.exists_plug_height (shape : Shape) :
    ∃ (context : Context) (head : NodeId) (behind : List NodeId),
      shape = context.plug (.leaf head behind) ∧ context.length = shape.height := by
  induction shape with
  | leaf head behind => exact ⟨[], head, behind, rfl, rfl⟩
  | branch owner split left right hleft hright =>
      rcases Nat.le_total right.height left.height with hle | hle
      · obtain ⟨context, head, behind, hshape, hlength⟩ := hleft
        refine ⟨context ++ [⟨owner, split, .left, right⟩], head, behind, ?_, ?_⟩
        · rw [plug_append, ← hshape]
          rfl
        · rw [List.length_append, hlength, height, Nat.max_eq_left hle, List.length_singleton]
      · obtain ⟨context, head, behind, hshape, hlength⟩ := hright
        refine ⟨context ++ [⟨owner, split, .right, left⟩], head, behind, ?_, ?_⟩
        · rw [plug_append, ← hshape]
          rfl
        · rw [List.length_append, hlength, height, Nat.max_eq_right hle, List.length_singleton]

namespace Tree

variable {K V : Type} {tree : Tree K V} {splits splits' : List Int} {upper middle lower link : Link}
  {id : NodeId}

theorem Path.append (h : tree.Path upper splits middle) (h' : tree.Path middle splits' lower) :
    tree.Path upper (splits ++ splits') lower := by
  induction h with
  | here => exact h'
  | down branch_eq side _ ih => exact .down branch_eq side (ih h')

namespace Stands

variable {context : Context} {hole : Shape} {shape : Option Shape}

/-- What a path leads to lies in the hole of a context, whose branches it passes. -/
theorem path_iff (h : tree.Stands (some (context.plug hole))) :
    tree.Path hole.link splits link ↔ ∃ (inner : Context) (part : Shape), hole = inner.plug part ∧
      part.link = link ∧ splits = (inner.map Frame.split).reverse := by
  constructor
  · intro hpath
    generalize htop : hole.link = top at hpath
    induction hpath generalizing context hole with
    | here link => exact ⟨[], hole, rfl, htop, rfl⟩
    | @down owner branch splits link hbranch side _ ih =>
        cases hole with
        | leaf head behind => cases htop
        | branch top split left right =>
            obtain rfl : top = owner := Link.branch.inj htop
            obtain rfl := Except.ok.inj (h.branch_eq.symm.trans hbranch)
            cases side with
            | left =>
                obtain ⟨inner, part, rfl, hpart, hsplits⟩ := ih h.into_left rfl
                refine ⟨inner ++ [⟨top, split, .left, right⟩], part, ?_, hpart, ?_⟩
                · rw [plug_append]
                  rfl
                · simp [hsplits]
            | right =>
                obtain ⟨inner, part, rfl, hpart, hsplits⟩ := ih h.into_right rfl
                refine ⟨inner ++ [⟨top, split, .right, left⟩], part, ?_, hpart, ?_⟩
                · rw [plug_append]
                  rfl
                · simp [hsplits]
  · rintro ⟨inner, part, rfl, rfl, rfl⟩
    induction inner generalizing part with
    | nil => exact .here _
    | cons frame outer ih =>
        -- the path to the innermost branch goes on for one step
        obtain ⟨owner, split, side, sibling⟩ := frame
        have houter := ih (Frame.close ⟨owner, split, side, sibling⟩ part) h
        rw [Frame.link_close] at houter
        rw [Context.plug, ← plug_append] at h
        rw [List.map_cons, List.reverse_cons]
        refine houter.append ?_
        cases side with
        | left => exact .down h.branch_eq .left (.here _)
        | right => exact .down h.branch_eq .right (.here _)

theorem pathFromRoot_iff (h : tree.Stands shape) :
    tree.PathFromRoot splits link ↔ ∃ (context : Context) (part : Shape),
      shape = some (context.plug part) ∧ part.link = link ∧
      splits = (context.map Frame.split).reverse := by
  unfold PathFromRoot
  rw [h.root_eq]
  cases shape with
  | none => simp
  | some found =>
      have hplug : tree.Stands (some (Context.plug [] found)) := h
      simp [hplug.path_iff]

/-- The leaves below a link are those of its part of the shape. -/
theorem exists_path_iff (h : tree.Stands (some (context.plug hole))) :
    (∃ splits, tree.Path hole.link splits (.leaf id)) ↔ id ∈ hole.leaves := by
  constructor
  · rintro ⟨splits, hpath⟩
    obtain ⟨inner, part, rfl, hpart, -⟩ := h.path_iff.mp hpath
    cases part with
    | leaf head behind =>
        obtain rfl : head = id := Link.leaf.inj hpart
        exact (leaves_plug inner (.leaf head behind)).mem_iff.mpr
          (List.mem_append_left _ List.mem_cons_self)
    | branch owner split left right => cases hpart
  · intro hid
    obtain ⟨inner, behind, rfl⟩ := exists_plug_of_mem_leaves hid
    exact ⟨_, h.path_iff.mpr ⟨inner, .leaf id behind, rfl, rfl, rfl⟩⟩

/-- The root has a path to every node that has a leaf position, and to no other. -/
theorem exists_pathFromRoot_iff (h : tree.Stands shape) :
    (∃ splits, tree.PathFromRoot splits (.leaf id)) ↔ id ∈ shape.elim [] Shape.leaves := by
  unfold PathFromRoot
  rw [h.root_eq]
  cases shape with
  | none => simp
  | some found =>
      have hplug : tree.Stands (some (Context.plug [] found)) := h
      rw [Option.elim_some, ← hplug.exists_path_iff]
      simp

/-- No path from the root is longer than the shape is high, and one is as long. -/
theorem length_path_le (h : tree.Stands shape) (hpath : tree.PathFromRoot splits link) :
    splits.length ≤ shape.elim 0 Shape.height := by
  obtain ⟨context, part, rfl, -, rfl⟩ := h.pathFromRoot_iff.mp hpath
  have hlength := length_add_height_le context part
  rw [List.length_reverse, List.length_map, Option.elim_some]
  omega

theorem exists_longest_path {found : Shape} (h : tree.Stands (some found)) :
    ∃ splits id, tree.PathFromRoot splits (.leaf id) ∧ splits.length = found.height := by
  obtain ⟨context, head, behind, hshape, hlength⟩ := found.exists_plug_height
  refine ⟨(context.map Frame.split).reverse, head, ?_, ?_⟩
  · exact h.pathFromRoot_iff.mpr ⟨context, .leaf head behind, congrArg some hshape, rfl, rfl⟩
  · rw [List.length_reverse, List.length_map, hlength]

end Stands

end Tree

end ElasticTree
