import ElasticTree.Proofs.Tree.Insertion

/-!
# What the other requests come to

Apart from insertion, the requests are the same for all kinds of keys.  Those
that name a node want it to be in some state, linked or detached.  They are
refused if the name is not live or the node is in the other state, and then
nothing changes (`Outcome`).  On a standing tree none of them fails: unlinking
takes the node out of the shape, releasing takes it out of the contents, and
removing does the one and then the other.
-/

namespace ElasticTree

open Shape

namespace Tree

variable {K V A : Type} {tree middle after : Tree K V} {shape shape' : Option Shape} {id : NodeId}
  {node : Node K V}

/-- What a request comes to that names a node and wants it to be in some state. -/
inductive Outcome (tree : Tree K V) (id : NodeId) (wanted : Prop) (refusal : Refusal)
    (effect : Node K V → A → Tree K V → Prop) : Except Refusal A → Tree K V → Prop where
  | unknown (get?_eq : tree.nodes.get? id = none) :
      Outcome tree id wanted refusal effect (.error (.unknownNode id)) tree
  | refused (node : Node K V) (get?_eq : tree.nodes.get? id = some node) (other : ¬ wanted) :
      Outcome tree id wanted refusal effect (.error refusal) tree
  | granted (node : Node K V) (get?_eq : tree.nodes.get? id = some node) (holds : wanted)
      (answer : A) (after : Tree K V) (done : effect node answer after) :
      Outcome tree id wanted refusal effect (.ok answer) after

/-- What holds of the tree holds afterwards, if the effect keeps it. -/
theorem Outcome.keeps {wanted : Prop} {refusal : Refusal} {effect : Node K V → A → Tree K V → Prop}
    {answer : Except Refusal A} (h : Outcome tree id wanted refusal effect answer after)
    (holds : Tree K V → Prop) (htree : holds tree)
    (heffect : ∀ node answer after, effect node answer after → holds after) : holds after := by
  cases h with
  | unknown => exact htree
  | refused => exact htree
  | granted node hnode hwanted answer after hdone => exact heffect node answer after hdone

/-- The node was taken out of the shape. -/
structure Unlinked (tree : Tree K V) (shape : Option Shape) (id : NodeId) (after : Tree K V)
    (shape' : Option Shape) : Prop where
  removes : ∃ found ∈ shape, Removes id found shape'
  stands : after.Stands shape'
  keeps : Keeps tree after

/-- The node, which was not linked, was taken out of the contents. -/
structure Released (tree : Tree K V) (shape : Option Shape) (id : NodeId) (after : Tree K V) :
    Prop where
  not_mem : id ∉ shape.elim [] Shape.members
  stands : after.Stands shape
  contents_eq : after.contents = (tree.contents.remove id).2
  unique_eq : after.unique = tree.unique

namespace Unlinked

/-- The other members stay, in the same order. -/
theorem members (h : tree.Unlinked shape id after shape') :
    ∃ front back, shape.elim [] Shape.members = front ++ id :: back ∧
      shape'.elim [] Shape.members = front ++ back := by
  obtain ⟨found, hfound, hremoves⟩ := h.removes
  rw [Option.mem_def] at hfound
  subst hfound
  exact hremoves.members

/-- No node is left of the shape where it was taken out. -/
theorem not_mem (h : tree.Unlinked shape id after shape') (hstands : tree.Stands shape) :
    id ∉ shape'.elim [] Shape.members := by
  obtain ⟨front, back, hbefore, hafter⟩ := h.members
  have hnodup := hstands.draws.members_nodup
  rw [hbefore, List.nodup_append, List.nodup_cons] at hnodup
  rw [hafter, List.mem_append, not_or]
  exact ⟨fun hid => hnodup.2.2 id hid id List.mem_cons_self rfl, hnodup.2.1.1⟩

theorem splits_subset (h : tree.Unlinked shape id after shape') :
    ∀ split ∈ shape'.elim [] Shape.splits, split ∈ shape.elim [] Shape.splits := by
  obtain ⟨found, hfound, hremoves⟩ := h.removes
  rw [Option.mem_def] at hfound
  subst hfound
  exact hremoves.splits_subset

/-- What is stored under a name is stored under it still. -/
theorem exists_node (h : tree.Unlinked shape id after shape') {other : NodeId}
    (hnode : tree.nodes.get? other = some node) :
    ∃ left, after.nodes.get? other = some left ∧ left.key = node.key ∧ left.value = node.value := by
  have hentry := h.keeps.entry_eq other
  rw [hnode, Option.map_some] at hentry
  obtain ⟨left, hleft, hsame⟩ := Option.map_eq_some_iff.mp hentry
  exact ⟨left, hleft, congrArg Prod.fst hsame, congrArg Prod.snd hsame⟩

end Unlinked

namespace Stands

/-! ## Granted requests -/

/-- Whatever is taken out of the shape when the node goes, unlinking takes it out. -/
theorem unlink_of_removes {found : Shape} (h : tree.Stands (some found))
    (hremoves : Removes id found shape') :
    ∃ after, tree.unlink id = .ok (.ok shape'.isSome, after) ∧ after.Stands shape' ∧
      Keeps tree after := by
  have hid : id ∈ (some found).elim [] Shape.members := hremoves.mem
  obtain ⟨node, hnode⟩ := Option.isSome_iff_exists.mp (h.live hid)
  obtain ⟨after, hunlink, hstands, hkeeps⟩ := h.unlinkNode_of_removes hremoves
  refine ⟨after, ?_, hstands, hkeeps⟩
  rw [placement_layout hnode] at hunlink
  rw [unlink, h.expectLinked_of_mem hnode hid]
  show (tree.unlinkNode id node.placement >>= _) = _
  rw [hunlink]
  rfl

/-- A linked node is unlinked, and the answer tells whether others remain. -/
theorem unlink_of_mem (h : tree.Stands shape) (hid : id ∈ shape.elim [] Shape.members) :
    ∃ after shape', tree.unlink id = .ok (.ok shape'.isSome, after) ∧
      tree.Unlinked shape id after shape' := by
  cases shape with
  | none => simp at hid
  | some found =>
      obtain ⟨shape', hremoves⟩ := exists_removes hid
      obtain ⟨after, hunlink, hstands, hkeeps⟩ := h.unlink_of_removes hremoves
      exact ⟨after, shape', hunlink, ⟨found, rfl, hremoves⟩, hstands, hkeeps⟩

theorem free_of_not_mem (h : tree.Stands shape) (hnode : tree.nodes.get? id = some node)
    (hid : id ∉ shape.elim [] Shape.members) :
    ∃ after, tree.free id = (.ok (node.key, node.value), after) ∧ tree.Released shape id after := by
  have hdetached : node.placement = .detached := by
    rw [← placement_layout hnode]
    exact h.placement_eq_detached_iff.mpr hid
  refine ⟨{ tree with nodes := (tree.nodes.remove id).2 }, ?_,
    ⟨hid, h.release hnode hdetached, contents_release tree id, rfl⟩⟩
  rw [free, h.expectDetached_of_not_mem hnode hid]

/-! ## Outcomes -/

/-- Unlinking wants the node to be linked, and tells whether any are left. -/
theorem unlink_outcome (h : tree.Stands shape) (id : NodeId) :
    ∃ answer after, tree.unlink id = .ok (answer, after) ∧
      tree.Outcome id (id ∈ shape.elim [] Shape.members) (.notLinked id)
        (fun _ more after => ∃ shape', more = shape'.isSome ∧ tree.Unlinked shape id after shape')
        answer after := by
  cases hnode : tree.nodes.get? id with
  | none => exact ⟨_, tree, by rw [unlink, expectLinked_of_none hnode], .unknown hnode⟩
  | some node =>
      by_cases hid : id ∈ shape.elim [] Shape.members
      · obtain ⟨after, shape', hunlink, hunlinked⟩ := h.unlink_of_mem hid
        exact ⟨_, after, hunlink, .granted node hnode hid _ after ⟨shape', rfl, hunlinked⟩⟩
      · refine ⟨_, tree, ?_, .refused node hnode hid⟩
        rw [unlink, h.expectLinked_of_not_mem hnode hid]

/-- Releasing wants the node to be detached, and hands out what it stored. -/
theorem free_outcome (h : tree.Stands shape) (id : NodeId) :
    ∃ answer after, tree.free id = (answer, after) ∧
      tree.Outcome id (id ∉ shape.elim [] Shape.members) (.alreadyLinked id)
        (fun node stored after => stored = (node.key, node.value) ∧ tree.Released shape id after)
        answer after := by
  cases hnode : tree.nodes.get? id with
  | none => exact ⟨_, tree, by rw [free, expectDetached_of_none hnode], .unknown hnode⟩
  | some node =>
      by_cases hid : id ∈ shape.elim [] Shape.members
      · refine ⟨_, tree, ?_, .refused node hnode (not_not_intro hid)⟩
        rw [free, h.expectDetached_of_mem hnode hid]
      · obtain ⟨after, hfree, hreleased⟩ := h.free_of_not_mem hnode hid
        exact ⟨_, after, hfree, .granted node hnode hid _ after ⟨rfl, hreleased⟩⟩

/-- Removing wants the node to be linked, unlinks it and releases it then. -/
theorem remove_outcome (h : tree.Stands shape) (id : NodeId) :
    ∃ answer after, tree.remove id = .ok (answer, after) ∧
      tree.Outcome id (id ∈ shape.elim [] Shape.members) (.notLinked id)
        (fun node stored after => stored = (node.key, node.value) ∧ ∃ middle shape',
          tree.Unlinked shape id middle shape' ∧ middle.Released shape' id after)
        answer after := by
  obtain ⟨answer, middle, hunlink, houtcome⟩ := h.unlink_outcome id
  rw [remove, hunlink]
  cases houtcome with
  | unknown hnode => exact ⟨_, tree, rfl, .unknown hnode⟩
  | refused node hnode hid => exact ⟨_, tree, rfl, .refused node hnode hid⟩
  | granted node hnode hid more middle hdone =>
      obtain ⟨shape', -, hunlinked⟩ := hdone
      obtain ⟨left, hleft, hkey, hvalue⟩ := hunlinked.exists_node hnode
      obtain ⟨after, hfree, hreleased⟩ :=
        hunlinked.stands.free_of_not_mem hleft (hunlinked.not_mem h)
      refine ⟨.ok (node.key, node.value), after, ?_,
        .granted node hnode hid _ after ⟨rfl, middle, shape', hunlinked, hreleased⟩⟩
      show Except.ok (middle.free id) = _
      rw [hfree, hkey, hvalue]

end Stands

/-! ## Keys of linked nodes -/

variable {C : Type} [Inhabited C] (view : K → C)

/-- A node that is made has a name of its own. -/
theorem Stands.rank_alloc (h : tree.Stands shape) (hroom : tree.nodes.HasRoom) (key : K) (value : V)
    (hid : id ∈ shape.elim [] Shape.members) :
    (tree.alloc key value).2.rank view id = tree.rank view id := by
  have hlive := h.live hid
  have hne : id ≠ tree.contents.nextId := by
    rintro rfl
    rw [contents, Arena.nextId_project, Arena.Live, Arena.get?_nextId h.sound hroom] at hlive
    simp at hlive
  have hget : (tree.contents.add fun _ => (key, value)).2.get? id = tree.contents.get? id := by
    have hsound : tree.contents.Sound := Arena.sound_project_iff.mpr h.sound
    rw [Arena.get?_add hsound (Arena.hasRoom_project_iff.mpr hroom)]
    exact if_neg hne
  rw [rank, rank, rankIn, rankIn, contents_alloc, hget]

/-- A node that goes from the contents has not been linked. -/
theorem Released.rank_eq (h : tree.Released shape id after) {other : NodeId}
    (hother : other ∈ shape.elim [] Shape.members) :
    after.rank view other = tree.rank view other := by
  have hne : other ≠ id := fun heq => h.not_mem (heq ▸ hother)
  rw [rank, rank, rankIn, rankIn, h.contents_eq, Arena.get?_remove, if_neg hne]

/-- The value of a node is no part of its key. -/
theorem rank_setValue (tree : Tree K V) (id : NodeId) (value : V) :
    (tree.setValue id value).rank view = tree.rank view := by
  funext other
  rw [rank, rank, rankIn, rankIn, contents_setValue, Arena.get?_modify]
  split
  · rename_i heq
    rw [heq]
    cases tree.contents.get? id <;> rfl
  · rfl

end Tree

end ElasticTree
