import ElasticTree.ByteTree.Basic
import ElasticTree.Proofs.Tree.Walking

/-!
# Where a group grows

A new member goes on the right edge of its group, so that it comes last.  The
walk down the edge keeps two branches in mind: the lowest one it has come to, and
the lowest one above which a split value is skipped.  `Edge` says where the two
stand, and it is kept by every step.  What comes out is a `Gap`: a hole on the
right edge and a split value that fits in between the branch above and the one
below.  Further down the edge there is no room for any (`Shape.Tight`).

Nothing here depends on keys, nor on the splits of the edge being negative.
-/

namespace ElasticTree

open Shape

/-- Under a branch with the split, no value is skipped on the right edge, down to the
largest. -/
def Shape.Tight (split : Int) : Shape → Prop
  | leaf _ _ => ¬ split < -1
  | branch _ lower _ right => ¬ split + 1 < lower ∧ right.Tight lower

/-- On the right edge there is room for a split between the frame above, if there
is one, and what is in the hole, and there is none further down. -/
inductive Gap : Context → Shape → Int → Prop where
  /-- Above a leaf, if the branch above does not have the largest split. -/
  | lowest {edge : Context} {head : NodeId} {behind : List NodeId}
      (room : ∀ frame ∈ edge.head?, frame.split < -1) : Gap edge (.leaf head behind) (-1)
  /-- Above a branch, if a value is skipped between it and the one above. -/
  | skipped {edge : Context} {owner : NodeId} {split : Int} {left right : Shape}
      (room : ∀ frame ∈ edge.head?, frame.split + 1 < split) (tight : right.Tight split) :
      Gap edge (.branch owner split left right) (split - 1)

/-- The branch of `bottom` is on the right edge of the hole, with `corner` on its
right, and the branch of `top` is the lowest one down to there that has a skipped
value above it, or the topmost.  So no value is skipped below `top` unless one is
below `bottom`. -/
inductive Edge (hole : Shape) : (top bottom : NodeId) → (corner : Shape) → Prop where
  | intro (upper lower : Context) {top bottom : NodeId} {split lowest : Int}
      {left right side corner : Shape}
      (hole_eq : hole = upper.plug (.branch top split left right))
      (top_eq : .branch top split left right = lower.plug (.branch bottom lowest side corner))
      (sides : ∀ frame ∈ lower ++ upper, frame.side = .right)
      (skips : ∀ frame ∈ upper.head?, frame.split + 1 < split)
      (tight : corner.Tight lowest → right.Tight split) : Edge hole top bottom corner

namespace ByteTree

variable {K V : Type} {tree : ByteTree K V} {context : Context} {hole corner : Shape}
  {owner top bottom id : NodeId} {split : Int} {left right : Shape}

/-- The walk down the edge ends above a leaf. -/
private theorem rightEdgeWithin_edge (limit : Nat) (h : tree.Stands (some (context.plug hole)))
    (hsplits : ∀ split ∈ hole.splits, -2 ^ 31 ≤ split + 1 ∧ split + 1 < 2 ^ 31)
    (hedge : Edge hole top bottom corner) (hlimit : corner.height < limit) :
    ∃ top' bottom' head behind, tree.rightEdgeWithin limit top bottom = .ok (top', bottom') ∧
      Edge hole top' bottom' (.leaf head behind) := by
  -- what is on the right of `bottom` gets smaller, and `Edge` holds all the way
  induction corner generalizing top bottom limit with
  | leaf head behind =>
      refine ⟨top, bottom, head, behind, ?_, hedge⟩
      obtain ⟨limit, rfl⟩ : ∃ rest, limit = rest + 1 := ⟨limit - 1, by omega⟩
      obtain ⟨upper, lower, rfl, htop, -, -, -⟩ := hedge
      rw [htop, ← plug_append, ← plug_append] at h
      simp only [rightEdgeWithin, h.branch_eq, bind, Except.bind, Shape.link]
      rfl
  | branch below split left right hleft hright =>
      obtain ⟨limit, rfl⟩ : ∃ rest, limit = rest + 1 := ⟨limit - 1, by omega⟩
      rw [Shape.height] at hlimit
      obtain ⟨upper, lower, rfl, htop, hright_sides, hskips, htight⟩ := hedge
      rename_i upmost lowest outside inside side
      have hlowest : lowest ∈ (upper.plug (.branch top upmost outside inside)).splits := by
        rw [htop, ← plug_append]
        exact mem_splits_plug _ List.mem_cons_self
      have hwhole := h
      rw [htop, ← plug_append, ← plug_append] at hwhole
      have hbelow : tree.Stands (some (Context.plug
          (⟨bottom, lowest, .right, side⟩ :: (lower ++ (upper ++ context)))
            (.branch below split left right))) := hwhole
      simp only [rightEdgeWithin, hwhole.branch_eq, hbelow.branch_eq, bind, Except.bind, Shape.link,
        Tree.checkSplit_eq (hsplits lowest hlowest)]
      have hsides : ∀ frame ∈ ⟨bottom, lowest, .right, side⟩ :: (lower ++ upper),
          frame.side = .right := List.forall_mem_cons.mpr ⟨rfl, hright_sides⟩
      -- a value that is skipped here is further down than any that was skipped before
      by_cases hskip : lowest + 1 < split
      · rw [if_pos hskip]
        have hhole : upper.plug (.branch top upmost outside inside) =
            Context.plug (⟨bottom, lowest, .right, side⟩ :: (lower ++ upper))
              (.branch below split left right) := by
          rw [htop, ← plug_append]
          rfl
        have hbottom : .branch below split left right =
            Context.plug [] (.branch below split left right) := rfl
        refine hright limit (.intro _ [] hhole hbottom hsides (fun frame hframe => ?_)
          fun hcorner => hcorner) (by omega)
        rw [List.head?_cons, Option.mem_some_iff] at hframe
        exact hframe ▸ hskip
      · rw [if_neg hskip]
        exact hright limit (.intro upper (⟨bottom, lowest, .right, side⟩ :: lower) rfl htop hsides
          hskips fun hcorner => htight ⟨hskip, hcorner⟩) (by omega)

/-- Growing a group puts the new member above a gap on its right edge. -/
private theorem growGroup_eq (id : NodeId)
    (h : tree.Stands (some (context.plug (.branch owner split left right))))
    (hsplits : ∀ other ∈ (Shape.branch owner split left right).splits,
      -2 ^ 31 ≤ other + 1 ∧ other + 1 < 2 ^ 31) :
    ∃ (edge : Context) (hole : Shape) (place : Int),
      .branch owner split left right = edge.plug hole ∧ (∀ frame ∈ edge, frame.side = .right) ∧
        Gap edge hole place ∧ tree.growGroup owner id =
          tree.insertAbove id (edge ++ context).position hole.link .right place := by
  have hlimit := h.height_lt
  have hplug := length_add_height_le context (.branch owner split left right)
  rw [Shape.height] at hplug
  obtain ⟨top, bottom, head, behind, hwalk, hedge⟩ := rightEdgeWithin_edge tree.walkLimit h hsplits
    (.intro [] [] rfl rfl (by simp) (by simp) fun hcorner => hcorner) (by omega)
  obtain ⟨upper, lower, hhole, htop, hright, hskips, htight⟩ := hedge
  rename_i upmost lowest outside inside side
  rw [hhole, ← plug_append] at h
  have hlower := h
  rw [htop, ← plug_append] at hlower
  simp only [growGroup, hwalk, hlower.branch_eq, h.branch_eq, bind, Except.bind, Shape.link]
  by_cases hroom : lowest < -1
  · rw [if_pos hroom]
    refine ⟨⟨bottom, lowest, .right, side⟩ :: (lower ++ upper), .leaf head behind, -1, ?_,
      List.forall_mem_cons.mpr ⟨rfl, hright⟩, .lowest fun frame hframe => ?_, rfl⟩
    · rw [hhole, htop, ← plug_append]
      rfl
    · rw [List.head?_cons, Option.mem_some_iff] at hframe
      exact hframe ▸ hroom
  · rw [if_neg hroom]
    exact ⟨upper, .branch top upmost outside inside, upmost - 1, hhole, fun frame hframe =>
      hright frame (List.mem_append_right _ hframe), .skipped hskips (htight hroom), rfl⟩

/-- Linking a node whose key was found puts it above a gap on the right edge of
what was found. -/
theorem linkEqual_eq (id : NodeId) (h : tree.Stands (some (context.plug hole)))
    (hsplits : ∀ split ∈ hole.splits, -2 ^ 31 ≤ split + 1 ∧ split + 1 < 2 ^ 31) :
    ∃ (edge : Context) (inner : Shape) (place : Int), hole = edge.plug inner ∧
      (∀ frame ∈ edge, frame.side = .right) ∧ Gap edge inner place ∧
        tree.linkEqual id context.position hole.link =
          tree.insertAbove id (edge ++ context).position inner.link .right place := by
  cases hole with
  | leaf head behind => exact ⟨[], .leaf head behind, -1, rfl, by simp, .lowest (by simp), rfl⟩
  | branch owner split left right => exact growGroup_eq id h hsplits

end ByteTree

end ElasticTree
