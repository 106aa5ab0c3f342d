import ElasticTree.Proofs.Shape.Change
import Mathlib.Data.List.Induction
import Mathlib.Data.List.Nodup

/-!
# Where a link occurs in a shape

A link occurs in a shape wherever a context and a hole with that link make the
shape up.  The sides taken on the way down tell the occurrences apart
(`hole_eq_of_sides`).  A shape `MeetsOnce` if all occurrences of one link are
reached by the same sides, and then it lists no link twice
(`MeetsOnce.links_nodup`).
-/

namespace ElasticTree

open scoped List

namespace Shape

/-- The sides taken on the way down to the hole, the last one first. -/
def Context.sides (context : Context) : List Side := context.map Frame.side

/-- The links of all roles. -/
def links (shape : Shape) (position : Position) : List Link :=
  (shape.roles position).map fun role => role.wire.2

/-- Each link occurs in one place only. -/
def MeetsOnce (shape : Shape) : Prop :=
  ∀ (first second : Context) (hole other : Shape), first.plug hole = shape →
    second.plug other = shape → hole.link = other.link → first.sides = second.sides

variable {shape left right hole other : Shape} {owner : NodeId} {split : Int} {link : Link}
  {position : Position} {first second : Context}

theorem plug_concat (context : Context) (frame : Frame) (hole : Shape) :
    (context ++ [frame]).plug hole = frame.close (context.plug hole) :=
  plug_append context [frame] hole

private theorem close_injective {frame frame' : Frame} (h : frame.close hole = frame'.close other)
    (hside : frame.side = frame'.side) : hole = other := by
  obtain ⟨owner, split, side, sibling⟩ := frame
  obtain ⟨owner', split', side', sibling'⟩ := frame'
  cases side <;> cases side' <;> simp_all [Frame.close]

/-- The same sides lead to the same hole. -/
theorem hole_eq_of_sides (h : first.plug hole = second.plug other)
    (hsides : first.sides = second.sides) : hole = other := by
  -- the way is gone from the root on, which is at the end of the lists
  induction first using List.reverseRecOn generalizing second with
  | nil =>
      obtain rfl : second = [] := by simpa [Context.sides] using hsides.symm
      exact h
  | append_singleton first frame ih =>
      rcases List.eq_nil_or_concat second with rfl | ⟨second, frame', rfl⟩
      · simp [Context.sides] at hsides
      · rw [List.concat_eq_append] at h hsides
        rw [plug_concat, plug_concat] at h
        simp only [Context.sides, List.map_append, List.map_cons, List.map_nil,
          List.append_singleton_inj] at hsides
        exact ih (close_injective h hsides.2) hsides.1

/-! ## Occurrences below a branch -/

theorem links_leaf (position : Position) (head : NodeId) (behind : List NodeId) :
    (leaf head behind).links position = [.leaf head] := rfl

theorem links_branch (position : Position) (owner : NodeId) (split : Int) (left right : Shape) :
    (branch owner split left right).links position =
      .branch owner :: (left.links (.under owner .left) ++ right.links (.under owner .right)) := by
  simp [links, roles]

/-- Every link stands in the hole of some context. -/
theorem exists_plug_of_mem_links (h : link ∈ shape.links position) :
    ∃ (context : Context) (hole : Shape), context.plug hole = shape ∧ hole.link = link := by
  induction shape generalizing position with
  | leaf head behind =>
      rw [links_leaf, List.mem_singleton] at h
      exact ⟨[], _, rfl, h.symm⟩
  | branch owner split left right hleft hright =>
      rw [links_branch, List.mem_cons, List.mem_append] at h
      rcases h with rfl | h | h
      · exact ⟨[], _, rfl, rfl⟩
      · obtain ⟨context, hole, rfl, hlink⟩ := hleft h
        exact ⟨context ++ [⟨owner, split, .left, right⟩], hole, plug_concat _ _ _, hlink⟩
      · obtain ⟨context, hole, rfl, hlink⟩ := hright h
        exact ⟨context ++ [⟨owner, split, .right, left⟩], hole, plug_concat _ _ _, hlink⟩

/-- Every role is that of a hole, at the slot from which the hole hangs. -/
theorem exists_plug_of_mem_roles (outer : Context) {role : Role}
    (h : role ∈ hole.roles outer.position) : ∃ (context : Context) (part : Shape),
      context.plug part = outer.plug hole ∧ part.role context.position = role := by
  induction hole generalizing outer with
  | leaf head behind =>
      rw [roles, List.mem_singleton] at h
      exact ⟨outer, _, rfl, h.symm⟩
  | branch owner split left right hleft hright =>
      rw [roles, List.mem_cons, List.mem_append] at h
      rcases h with rfl | h | h
      · exact ⟨outer, _, rfl, rfl⟩
      · exact hleft (⟨owner, split, .left, right⟩ :: outer) h
      · exact hright (⟨owner, split, .right, left⟩ :: outer) h

/-- There is a slot on either side of every branch. -/
theorem exists_role_under (side : Side) (position : Position) (h : owner ∈ shape.owners) :
    ∃ role ∈ shape.roles position, role.wire.1 = .under owner side := by
  induction shape generalizing position with
  | leaf head behind => simp [owners] at h
  | branch owner' split left right hleft hright =>
      simp only [roles, List.mem_cons, List.mem_append]
      rw [owners, List.mem_cons, List.mem_append] at h
      rcases h with rfl | h | h
      · cases side with
        | left =>
            exact ⟨left.role (.under owner .left),
              .inr (.inl (roles_eq_cons _ left ▸ List.mem_cons_self)), by rw [wire_role]⟩
        | right =>
            exact ⟨right.role (.under owner .right),
              .inr (.inr (roles_eq_cons _ right ▸ List.mem_cons_self)), by rw [wire_role]⟩
      · obtain ⟨role, hrole, hslot⟩ := hleft (.under owner' .left) h
        exact ⟨role, .inr (.inl hrole), hslot⟩
      · obtain ⟨role, hrole, hslot⟩ := hright (.under owner' .right) h
        exact ⟨role, .inr (.inr hrole), hslot⟩

/-- The links are those of the leaves and those of the branches. -/
theorem links_perm (shape : Shape) (position : Position) :
    (shape.links position).Perm (shape.leaves.map .leaf ++ shape.owners.map .branch) := by
  induction shape generalizing position with
  | leaf head behind => exact List.Perm.refl _
  | branch owner split left right hleft hright =>
      rw [links_branch, leaves, owners, List.map_append, List.map_cons, List.map_append]
      -- the branches on the left change places with the leaves on the right
      have hswap : (left.leaves.map Link.leaf ++ left.owners.map Link.branch ++
          (right.leaves.map Link.leaf ++ right.owners.map Link.branch)).Perm
            (left.leaves.map Link.leaf ++ right.leaves.map Link.leaf ++
              (left.owners.map Link.branch ++ right.owners.map Link.branch)) := by
        simp only [List.append_assoc]
        refine List.Perm.append_left _ ?_
        simp only [← List.append_assoc]
        exact List.Perm.append_right _ List.perm_append_comm
      calc Link.branch owner ::
            (left.links (.under owner .left) ++ right.links (.under owner .right))
          ~ Link.branch owner :: (left.leaves.map Link.leaf ++ left.owners.map Link.branch ++
              (right.leaves.map Link.leaf ++ right.owners.map Link.branch)) :=
            ((hleft _).append (hright _)).cons _
        _ ~ Link.branch owner :: (left.leaves.map Link.leaf ++ right.leaves.map Link.leaf ++
              (left.owners.map Link.branch ++ right.owners.map Link.branch)) := hswap.cons _
        _ ~ left.leaves.map Link.leaf ++ right.leaves.map Link.leaf ++
              Link.branch owner :: (left.owners.map Link.branch ++ right.owners.map Link.branch) :=
            List.perm_middle.symm

/-- Every leaf stands in the hole of some context. -/
theorem exists_plug_of_mem_leaves {id : NodeId} (h : id ∈ shape.leaves) :
    ∃ (context : Context) (behind : List NodeId), context.plug (.leaf id behind) = shape := by
  have hlink : .leaf id ∈ shape.links .root :=
    (links_perm _ _).mem_iff.mpr (List.mem_append_left _ (List.mem_map_of_mem h))
  obtain ⟨context, hole, hplug, hlink⟩ := exists_plug_of_mem_links hlink
  cases hole with
  | leaf head behind =>
      obtain rfl : head = id := by simpa [Shape.link] using hlink
      exact ⟨context, behind, hplug⟩
  | branch owner split left right => cases hlink

namespace MeetsOnce

/-- A hole is told by its link. -/
theorem hole_eq (h : shape.MeetsOnce) (hfirst : first.plug hole = shape)
    (hsecond : second.plug other = shape) (hlink : hole.link = other.link) : hole = other :=
  hole_eq_of_sides (hfirst.trans hsecond.symm) (h first second hole other hfirst hsecond hlink)

/-- What is met once in the whole is met once in a part of it. -/
theorem of_close {frame : Frame} (h : (frame.close hole).MeetsOnce) : hole.MeetsOnce := by
  intro first second inner inner' hfirst hsecond hlink
  have hsides := h (first ++ [frame]) (second ++ [frame]) inner inner'
    (by rw [plug_concat, hfirst]) (by rw [plug_concat, hsecond]) hlink
  simpa [Context.sides] using hsides

/-- A link below a branch is not that of the branch. -/
private theorem link_ne {frame : Frame} (h : (frame.close hole).MeetsOnce)
    (hlink : link ∈ hole.links position) : (frame.close hole).link ≠ link := by
  obtain ⟨context, inner, hplug, rfl⟩ := exists_plug_of_mem_links hlink
  intro hsame
  have hsides := h [] (context ++ [frame]) _ inner rfl (by rw [plug_concat, hplug]) hsame
  simp [Context.sides] at hsides

/-- Two links below a branch on different sides are different. -/
private theorem disjoint (h : (branch owner split left right).MeetsOnce) {slot slot' : Position}
    {link' : Link} (hleft : link ∈ left.links slot) (hright : link' ∈ right.links slot') :
    link ≠ link' := by
  obtain ⟨context, inner, hplug, rfl⟩ := exists_plug_of_mem_links hleft
  obtain ⟨context', inner', hplug', rfl⟩ := exists_plug_of_mem_links hright
  intro hsame
  have hsides :=
    h (context ++ [⟨owner, split, .left, right⟩]) (context' ++ [⟨owner, split, .right, left⟩])
      inner inner' (by rw [plug_concat, hplug]; rfl) (by rw [plug_concat, hplug']; rfl) hsame
  simp [Context.sides] at hsides

/-- No link is listed twice. -/
theorem links_nodup (h : shape.MeetsOnce) (position : Position) : (shape.links position).Nodup := by
  induction shape generalizing position with
  | leaf head behind => simp [links_leaf]
  | branch owner split left right hleft hright =>
      have hinto : (Frame.close ⟨owner, split, .left, right⟩ left).MeetsOnce := h
      have hinto' : (Frame.close ⟨owner, split, .right, left⟩ right).MeetsOnce := h
      rw [links_branch, List.nodup_cons, List.mem_append, List.nodup_append, not_or]
      exact ⟨⟨fun hmem => hinto.link_ne hmem rfl, fun hmem => hinto'.link_ne hmem rfl⟩,
        hleft hinto.of_close _, hright hinto'.of_close _,
        fun link hmem link' hmem' => h.disjoint hmem hmem'⟩

theorem leaves_nodup (h : shape.MeetsOnce) : shape.leaves.Nodup := by
  have hlinks := (shape.links_perm .root).nodup_iff.mp (h.links_nodup .root)
  exact List.Nodup.of_map _ (List.nodup_append.mp hlinks).1

theorem owners_nodup (h : shape.MeetsOnce) : shape.owners.Nodup := by
  have hlinks := (shape.links_perm .root).nodup_iff.mp (h.links_nodup .root)
  exact List.Nodup.of_map _ (List.nodup_append.mp hlinks).2.1

end MeetsOnce

/-! ## Covered shapes -/

/-- The cover of a shape is a matter of its branches one by one. -/
theorem covered_of_forall (h : ∀ (context : Context) (owner : NodeId) (split : Int)
    (left right : Shape), context.plug (branch owner split left right) = shape →
      owner ∈ left.leaves ++ right.leaves) : shape.Covered := by
  induction shape with
  | leaf head behind => trivial
  | branch owner split left right hleft hright =>
      refine ⟨h [] owner split left right rfl, hleft ?_, hright ?_⟩
      · rintro context owner' split' left' right' rfl
        exact h (context ++ [⟨owner, split, .left, right⟩]) _ split' _ _ (plug_concat _ _ _)
      · rintro context owner' split' left' right' rfl
        exact h (context ++ [⟨owner, split, .right, left⟩]) _ split' _ _ (plug_concat _ _ _)

end Shape

end ElasticTree
