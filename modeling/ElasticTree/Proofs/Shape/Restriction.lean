import ElasticTree.Proofs.Shape.Change

/-!
# Restricting a shape to some of its nodes

A shape can be looked at as if it held only some of its nodes: the others are left
out, and with them every branch that no longer parts anything.  What is left of the
nodes of one key is their group, wherever in the shape it hangs and whatever hangs
around it.

So what happens to other nodes does not show.  When one of them goes, the branches
that are left have the same splits and may only have got other owners
(`Removes.restrict`).
-/

namespace ElasticTree

namespace Shape

/-- The leaf of a ring, if there are any nodes in it. -/
def ofRing : List NodeId → Option Shape
  | [] => none
  | head :: behind => some (leaf head behind)

/-- The two sides under a branch, one or both of which may be left out. -/
def join (owner : NodeId) (split : Int) : Option Shape → Option Shape → Option Shape
  | none, right => right
  | some left, none => some left
  | some left, some right => some (branch owner split left right)

/-- What is left of a shape if it holds only the nodes with the property. -/
def restrict (keep : NodeId → Bool) : Shape → Option Shape
  | leaf head behind => ofRing ((head :: behind).filter keep)
  | branch owner split left right => join owner split (left.restrict keep) (right.restrict keep)

variable {keep : NodeId → Bool} {shape hole hole' : Shape} {context : Context} {id old new : NodeId}

@[simp] theorem join_none_left (owner : NodeId) (split : Int) (right : Option Shape) :
    join owner split none right = right := rfl

@[simp] theorem join_none_right (owner : NodeId) (split : Int) (left : Option Shape) :
    join owner split left none = left := by
  cases left <;> rfl

/-- The nodes that are left are those with the property, in their order. -/
theorem members_restrict (keep : NodeId → Bool) (shape : Shape) :
    (shape.restrict keep).elim [] members = shape.members.filter keep := by
  induction shape with
  | leaf head behind =>
      rw [restrict, members]
      cases (head :: behind).filter keep <;> rfl
  | branch owner split left right hleft hright =>
      rw [restrict, members, List.filter_append, ← hleft, ← hright]
      cases left.restrict keep <;> cases right.restrict keep <;> simp [join, members]

theorem restrict_eq_none (h : ∀ id ∈ shape.members, keep id = false) :
    shape.restrict keep = none := by
  have hmembers := members_restrict keep shape
  rw [List.filter_eq_nil_iff.mpr (by simpa using h)] at hmembers
  cases hrestrict : shape.restrict keep with
  | none => rfl
  | some found =>
      rw [hrestrict] at hmembers
      exact absurd hmembers found.members_ne_nil

theorem restrict_eq_self (h : ∀ id ∈ shape.members, keep id = true) :
    shape.restrict keep = some shape := by
  induction shape with
  | leaf head behind =>
      have hall : (head :: behind).filter keep = head :: behind := List.filter_eq_self.mpr h
      rw [restrict, hall]
      rfl
  | branch owner split left right hleft hright =>
      rw [restrict, hleft fun id hid => h id (List.mem_append_left _ hid),
        hright fun id hid => h id (List.mem_append_right _ hid)]
      rfl

/-- Only the nodes of the shape matter. -/
theorem restrict_congr {keep' : NodeId → Bool} (h : ∀ id ∈ shape.members, keep id = keep' id) :
    shape.restrict keep = shape.restrict keep' := by
  induction shape with
  | leaf head behind =>
      have hsame : (head :: behind).filter keep = (head :: behind).filter keep' :=
        List.filter_congr h
      rw [restrict, restrict, hsame]
  | branch owner split left right hleft hright =>
      rw [restrict, restrict, hleft fun id hid => h id (List.mem_append_left _ hid),
        hright fun id hid => h id (List.mem_append_right _ hid)]

theorem restrict_reown :
    (shape.reown old new).restrict keep = (shape.restrict keep).map (reown old new) := by
  induction shape with
  | leaf head behind =>
      rw [reown, restrict]
      cases (head :: behind).filter keep <;> rfl
  | branch owner split left right hleft hright =>
      rw [reown, restrict, restrict, hleft, hright]
      cases left.restrict keep <;> cases right.restrict keep <;> rfl

/-- If only one node is left, it is a leaf by itself. -/
theorem restrict_eq_leaf (h : shape.members.filter keep = [id]) :
    shape.restrict keep = some (leaf id []) := by
  have hmembers := members_restrict keep shape
  rw [h] at hmembers
  cases hrestrict : shape.restrict keep with
  | none => simp [hrestrict] at hmembers
  | some found =>
      rw [hrestrict, Option.elim_some] at hmembers
      cases found with
      | leaf head behind =>
          obtain ⟨rfl, rfl⟩ := List.cons.inj hmembers
          rfl
      | branch owner split left right =>
          have hleft := List.length_pos_iff.mpr left.members_ne_nil
          have hright := List.length_pos_iff.mpr right.members_ne_nil
          have hlength := congrArg List.length hmembers
          rw [members, List.length_append, List.length_singleton] at hlength
          omega

/-! ## Restricting twice -/

theorem bind_restrict_ofRing (ring : List NodeId) :
    (ofRing ring).bind (restrict keep) = ofRing (ring.filter keep) := by
  cases ring <;> rfl

theorem bind_restrict_join (owner : NodeId) (split : Int) (left right : Option Shape) :
    (join owner split left right).bind (restrict keep) =
      join owner split (left.bind (restrict keep)) (right.bind (restrict keep)) := by
  cases left with
  | none => simp
  | some left =>
      cases right with
      | none => simp
      | some right => rfl

/-- What is left of the rest has both properties. -/
theorem restrict_restrict {keep' : NodeId → Bool} :
    (shape.restrict keep).bind (restrict keep') = shape.restrict fun id => keep id && keep' id := by
  induction shape with
  | leaf head behind =>
      rw [restrict, restrict, bind_restrict_ofRing, List.filter_filter]
      simp only [Bool.and_comm]
  | branch owner split left right hleft hright =>
      rw [restrict, restrict, bind_restrict_join, hleft, hright]

/-! ## Contexts -/

theorem restrict_close (frame : Frame) (hole : Shape) :
    (frame.close hole).restrict keep =
      match frame.side with
      | .left => join frame.owner frame.split (hole.restrict keep) (frame.sibling.restrict keep)
      | .right =>
          join frame.owner frame.split (frame.sibling.restrict keep) (hole.restrict keep) := by
  obtain ⟨owner, split, side, sibling⟩ := frame
  cases side <;> rfl

/-- What is left of a shape depends on what is left of its parts. -/
theorem restrict_plug_congr (context : Context) (h : hole.restrict keep = hole'.restrict keep) :
    (context.plug hole).restrict keep = (context.plug hole').restrict keep := by
  induction context generalizing hole hole' with
  | nil => exact h
  | cons frame outer ih => exact ih (by rw [restrict_close, restrict_close, h])

/-- If all nodes that are left are in the hole, so is all that is left of the shape. -/
theorem restrict_plug (h : ∀ id ∈ context.before ++ context.after, keep id = false) :
    (context.plug hole).restrict keep = hole.restrict keep := by
  induction context generalizing hole with
  | nil => rfl
  | cons frame outer ih =>
      simp only [Context.before, Context.after, List.mem_append] at h
      rw [Context.plug, ih fun id hid => h id (by rw [List.mem_append] at hid; tauto),
        restrict_close]
      have hsibling : frame.sibling.restrict keep = none :=
        restrict_eq_none fun id hid => h id (by
          obtain ⟨owner, split, side, sibling⟩ := frame
          cases side <;> simp_all [Frame.before, Frame.after])
      rw [hsibling]
      cases frame.side <;> simp

/-! ## Nodes that are left out -/

/-- A node that comes and is left out does not show at all. -/
theorem Adds.restrict {before : Option Shape} (h : Adds id before shape) (hid : keep id = false) :
    shape.restrict keep = before.bind (·.restrict keep) := by
  cases h with
  | first => simp [Shape.restrict, ofRing, hid]
  | last context head behind =>
      refine restrict_plug_congr context ?_
      simp [Shape.restrict, List.filter_cons, hid]
  | beside context hole side split =>
      refine restrict_plug_congr context ?_
      have hleaf : (leaf id []).restrict keep = none := by simp [Shape.restrict, ofRing, hid]
      rw [restrict_close, hleaf]
      cases side <;> simp [Side.opposite]

/-- When a node goes that is left out anyway, the rest is the same but for the owners. -/
theorem Removes.restrict {after : Option Shape} (h : Removes id shape after)
    (hid : keep id = false) :
    ∃ old new, after.bind (·.restrict keep) = (shape.restrict keep).map (reown old new) := by
  have hself : ∀ found : Option Shape, found.map (reown id id) = found := by
    intro found
    cases found <;> simp
  cases h with
  | last => exact ⟨id, id, by simp [Shape.restrict, ofRing, hid]⟩
  | member context head front back =>
      refine ⟨id, id, ?_⟩
      rw [hself]
      refine restrict_plug_congr context ?_
      simp [Shape.restrict, List.filter_cons, hid]
  | head context heir behind =>
      refine ⟨id, heir, ?_⟩
      have hsame : (leaf heir behind).restrict keep = (leaf id (heir :: behind)).restrict keep := by
        simp [Shape.restrict, List.filter_cons, hid]
      rw [Option.bind_some, restrict_reown, restrict_plug_congr context hsame]
  | single frame outer =>
      refine ⟨id, frame.owner, ?_⟩
      have hsame : frame.sibling.restrict keep = (frame.close (leaf id [])).restrict keep := by
        have hleaf : (leaf id []).restrict keep = none := by simp [Shape.restrict, ofRing, hid]
        rw [restrict_close, hleaf]
        cases frame.side <;> simp
      rw [Option.bind_some, restrict_reown, restrict_plug_congr outer hsame]

end Shape

end ElasticTree
