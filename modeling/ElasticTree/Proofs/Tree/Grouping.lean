import ElasticTree.Proofs.Shape.Outline
import ElasticTree.Proofs.Tree.Placement

/-!
# From one key to the next

Stepping to another group goes up without crossing the branches of the group, and
enters the first subtree beside the way.  Seen from a key, all nodes beside a
branch of the group have the same key, and all nodes beside one that parts
different keys have a larger or all a smaller one.  So the step leads to the first
node, in the direction of moving, that has another key (`stepGroup_eq`).
-/

namespace ElasticTree

open Shape

variable {C : Type} [LT C]

/-- The other key is met later than the key when moving towards `direction`. -/
def liesBeyond [DecidableLT C] (direction : Side) (key other : C) : Bool :=
  match direction with
  | .right => key < other
  | .left => other < key

namespace Shape

variable {discipline : Discipline C} {rank : NodeId → C} {context : Context} {known : C}
  {id head : NodeId} {behind : List NodeId}

/-- What a branch above the hole asks of a key in the hole and of one beside it. -/
theorem Context.Obeys.beside {held : List C} {splits : List Int} {frame : Frame}
    (h : context.Obeys discipline rank held splits) (hknown : known ∈ held)
    (hframe : frame ∈ context)
    (hid : id ∈ frame.sibling.members) :
    discipline.agrees frame.split known (rank id) ∧ discipline.onSide frame.split frame.side known ∧
      discipline.onSide frame.split frame.side.opposite (rank id) := by
  induction context generalizing held splits with
  | nil => simp at hframe
  | cons innermost outer ih =>
      obtain ⟨hparts, -, houter⟩ := h
      rcases List.mem_cons.mp hframe with rfl | hframe
      · have hbeside : rank id ∈ frame.sibling.keys rank := List.mem_map_of_mem hid
        refine ⟨?_, hparts.here known hknown, hparts.there _ hbeside⟩
        exact hparts.agrees known (List.mem_append_left _ hknown)
          _ (List.mem_append_right _ hbeside)
      · exact ih houter (List.mem_append_left _ hknown) hframe

section Ahead

variable [DecidableLT C] {held : List C} {splits : List Int}
  (h : context.Obeys discipline rank held splits) (hknown : known ∈ held) (direction : Side)
include h hknown

/-- No node beside the way on the near side lies beyond the key. -/
theorem Context.Obeys.not_beyond_near :
    ∀ id ∈ context.ahead direction.opposite, liesBeyond direction known (rank id) = false := by
  intro id hid
  have hfollows := h.follows hknown
  cases direction with
  | right => exact decide_eq_false (h.not_lt_before hknown hfollows id hid)
  | left => exact decide_eq_false (h.not_lt_after hknown hfollows id hid)

/-- The nodes beside a frame on the side moved to lie beyond the key, unless they
are of its group. -/
private theorem Context.Obeys.beyond_beside (hsettles : discipline.Settles) {frame : Frame}
    (hframe : frame ∈ context) (hside : frame.side = direction.opposite) :
    ∀ id ∈ frame.sibling.members,
      liesBeyond direction known (rank id) = !decide (frame.split < 0) := by
  intro id hid
  obtain ⟨hagrees, hhere, hthere⟩ := h.beside hknown hframe hid
  by_cases hgroup : frame.split < 0
  · rw [decide_eq_true hgroup, ← hsettles.eq_of_agrees hgroup hagrees]
    cases direction <;> exact decide_eq_false (discipline.lt_irrefl known)
  · rw [decide_eq_false hgroup]
    rw [hside] at hhere hthere
    cases direction with
    | right => exact decide_eq_true (discipline.lt (Int.not_lt.mp hgroup) hagrees hhere hthere)
    | left => exact decide_eq_true (discipline.lt (Int.not_lt.mp hgroup)
        (discipline.agrees_symm hagrees) hthere hhere)

/-- Of the nodes outside the hole, the first one beyond the key is the first one
beside a branch of different keys. -/
theorem Context.Obeys.find?_ahead (hsettles : discipline.Settles) :
    (arranged direction (context.ahead direction)).find?
        (fun id => liesBeyond direction known (rank id)) =
      metFirst direction
        (Context.ahead direction (context.filter fun frame => !decide (frame.split < 0))) := by
  induction context generalizing held splits with
  | nil => cases direction <;> rfl
  | cons frame outer ih =>
      have hrest := ih h.2.2 (List.mem_append_left _ hknown)
      rw [arranged_ahead_cons, List.find?_append, hrest, List.filter_cons]
      by_cases hside : frame.side = direction.opposite
      · have hbeside := h.beyond_beside hknown direction hsettles List.mem_cons_self hside
        rw [if_pos hside]
        cases hcrossed : !decide (frame.split < 0) with
        | false =>
            rw [find?_arranged_eq_none fun id hid => (hbeside id hid).trans hcrossed,
              Option.none_or, if_neg Bool.false_ne_true]
        | true =>
            have hne : arranged direction frame.sibling.members ≠ [] := by
              cases direction <;> simp [arranged, frame.sibling.members_ne_nil]
            rw [find?_arranged_of_forall fun id hid => (hbeside id hid).trans hcrossed, if_pos rfl,
              ← head?_arranged, ← head?_arranged, ← head?_arranged, arranged_ahead_cons,
              if_pos hside, List.head?_append]
      · have hahead : metFirst direction (Context.ahead direction
            (frame :: outer.filter fun frame => !decide (frame.split < 0))) =
              metFirst direction (Context.ahead direction
                (outer.filter fun frame => !decide (frame.split < 0))) := by
          rw [← head?_arranged, ← head?_arranged, arranged_ahead_cons, if_neg hside,
            List.nil_append]
        rw [if_neg hside, List.find?_nil, Option.none_or]
        split_ifs
        · exact hahead.symm
        · rfl

end Ahead

/-- Seen from a leaf, the first node of another key is the first one beside a
branch of different keys. -/
theorem Obeys.find?_beyond [DecidableLT C] (hsettles : discipline.Settles) (direction : Side)
    (h : (context.plug (leaf head behind)).Obeys discipline rank) :
    (arranged direction (context.plug (leaf head behind)).members).find?
        (fun id => liesBeyond direction (rank head) (rank id)) =
      metFirst direction
        (Context.ahead direction (context.filter fun frame => !decide (frame.split < 0))) := by
  obtain ⟨hleaf, hcontext⟩ := obeys_plug_iff.mp h
  have hknown : rank head ∈ (leaf head behind).keys rank :=
    mem_keys_iff.mpr ⟨head, List.mem_cons_self, rfl⟩
  have hring : ∀ id ∈ (leaf head behind).members,
      liesBeyond direction (rank head) (rank id) = false := by
    intro id hid
    rw [hleaf.eq_of_leaf _ (mem_keys_iff.mpr ⟨id, hid, rfl⟩)]
    cases direction <;> exact decide_eq_false (discipline.lt_irrefl _)
  rw [arranged_plug, List.find?_append,
    find?_arranged_eq_none (hcontext.not_beyond_near hknown direction), Option.none_or,
    List.find?_append, find?_arranged_eq_none hring, Option.none_or,
    hcontext.find?_ahead hknown direction hsettles]

end Shape

namespace Tree

namespace Stands

variable {K V : Type} [Inhabited C] {discipline : Discipline C} {view : K → C} {tree : Tree K V}
  {shape : Option Shape} {context : Context} {id head : NodeId} {behind : List NodeId}

omit [LT C] [Inhabited C] in
/-- From any node of a ring the way starts at the leaf. -/
theorem leafPosition_groupHead (h : tree.Stands (some (context.plug (.leaf head behind))))
    (hid : id ∈ head :: behind) :
    (tree.groupHead id >>= tree.leafPosition) = .ok context.position := by
  have hhead : tree.groupHead id = .ok head := by
    rcases List.mem_cons.mp hid with rfl | hid
    · exact h.groupHead_head
    · exact h.groupHead_eq hid
  obtain ⟨node, hnode, hplacement⟩ := h.exists_head
  rw [hhead, Fault.ok_bind, leafPosition, node_eq hnode, Fault.ok_bind, hplacement]
  rfl

omit [LT C] [Inhabited C] in
/-- Stepping to another group leads to the first node beside a branch on the way up
that is none of a group. -/
theorem stepGroup_eq_metFirst (direction : Side)
    (h : tree.Stands (some (context.plug (.leaf head behind)))) (hid : id ∈ head :: behind) :
    tree.stepGroup direction id = .ok (metFirst direction
      (Context.ahead direction (context.filter fun frame => !decide (frame.split < 0)))) := by
  rw [← h.beyondWhere_eq direction fun split => !decide (split < 0)]
  show (tree.groupHead id >>= fun head => tree.leafPosition head >>= _) = _
  rw [← bind_assoc, h.leafPosition_groupHead hid]
  rfl

/-- Stepping to another group leads to the first node of another key. -/
theorem stepGroup_eq [DecidableLT C] (hsettles : discipline.Settles) (direction : Side)
    (h : tree.Stands shape) (hobeys : ∀ found ∈ shape, found.Obeys discipline (tree.rank view))
    (hid : id ∈ shape.elim [] Shape.members) :
    tree.stepGroup direction id = .ok ((arranged direction (shape.elim [] Shape.members)).find?
      fun other => liesBeyond direction (tree.rank view id) (tree.rank view other)) := by
  cases shape with
  | none => simp at hid
  | some found =>
      obtain ⟨context, head, behind, rfl, hmem⟩ := exists_plug_of_mem_members hid
      have hleaf := (obeys_plug_iff.mp (hobeys _ rfl)).1
      have hsame : tree.rank view id = tree.rank view head :=
        hleaf.eq_of_leaf _ (mem_keys_iff.mpr ⟨id, hmem, rfl⟩)
      rw [hsame, Option.elim_some, (hobeys _ rfl).find?_beyond hsettles direction,
        h.stepGroup_eq_metFirst direction hmem]

end Stands

end Tree

end ElasticTree
