import ElasticTree.Proofs.Shape.Placement

/-!
# Local checks of a shape

A discipline speaks of all keys below a branch.  To see that a shape keeps to it,
it is enough to compare the head of each leaf with the owners of the branches
around it, the members of a ring with their head, and the split of each branch
with those directly below it (`LocallyObeys`).  Keys that agree with the owner
agree with each other, and splits that continue those above them one by one do so
all the way down.
-/

namespace ElasticTree

namespace Shape

variable {C : Type} [LT C] {discipline : Discipline C} {rank : NodeId → C} {shape hole : Shape}
  {context : Context}

/-- Every leaf, ring and branch is in its place as far as a comparison with the
branches around it can tell. -/
structure LocallyObeys (discipline : Discipline C) (rank : NodeId → C) (shape : Shape) : Prop where
  ring : ∀ (context : Context) (head : NodeId) (behind : List NodeId),
    context.plug (leaf head behind) = shape →
      (∀ id ∈ behind, rank id = rank head) ∧ (behind = [] ∨ discipline.chains)
  leaf : ∀ (context : Context) (head : NodeId) (behind : List NodeId),
    context.plug (leaf head behind) = shape → ∀ frame ∈ context, discipline.admits frame.split ∧
      discipline.agrees frame.split (rank head) (rank frame.owner) ∧
        discipline.onSide frame.split frame.side (rank head)
  below : ∀ (context : Context) (frame : Frame) (hole : Shape),
    context.plug (frame.close hole) = shape → ∀ lower ∈ hole.top?,
      discipline.deepens frame.split lower

/-- What is known of a part of a shape and of the frames around it. -/
private structure Settled (discipline : Discipline C) (rank : NodeId → C) (context : Context)
    (hole : Shape) : Prop where
  obeys : hole.Obeys discipline rank
  admits : ∀ frame ∈ context, discipline.admits frame.split
  around : ∀ frame ∈ context, ∀ key ∈ hole.keys rank,
    discipline.agrees frame.split key (rank frame.owner) ∧
      discipline.onSide frame.split frame.side key
  splits : ∀ lower ∈ hole.splits, ∀ top ∈ hole.top?, lower = top ∨ discipline.deepens top lower

namespace LocallyObeys

/-- The splits below one side of a branch continue its own. -/
private theorem deepens (frame : Frame) (h : shape.LocallyObeys discipline rank)
    (hplug : context.plug (frame.close hole) = shape)
    (hsettled : Settled discipline rank (frame :: context) hole) :
    ∀ lower ∈ hole.splits, discipline.deepens frame.split lower := by
  intro lower hlower
  cases hole with
  | leaf head behind => simp [Shape.splits] at hlower
  | branch owner top left right =>
      have htop := h.below context frame _ hplug top rfl
      rcases hsettled.splits lower hlower top rfl with rfl | hdeepens
      · exact htop
      · exact discipline.deepens_trans htop hdeepens

private theorem settled (h : shape.LocallyObeys discipline rank)
    (hplug : context.plug hole = shape) : Settled discipline rank context hole := by
  -- from the leaves up, as each branch is judged by what hangs on its two sides
  induction hole generalizing context with
  | leaf head behind =>
      obtain ⟨hring, hchains⟩ := h.ring context head behind hplug
      have hobeys : (Shape.leaf head behind).Obeys discipline rank := ⟨hring, hchains⟩
      refine ⟨hobeys, fun frame hframe => (h.leaf context head behind hplug frame hframe).1,
        fun frame hframe key hkey => ?_, by simp [Shape.splits]⟩
      rw [hobeys.eq_of_leaf key hkey]
      exact (h.leaf context head behind hplug frame hframe).2
  | branch owner split left right hleft hright =>
      have hl : Settled discipline rank (⟨owner, split, .left, right⟩ :: context) left :=
        hleft hplug
      have hr : Settled discipline rank (⟨owner, split, .right, left⟩ :: context) right :=
        hright hplug
      have hagrees : ∀ key ∈ left.keys rank ++ right.keys rank,
          discipline.agrees split key (rank owner) := by
        intro key hkey
        exact (List.mem_append.mp hkey).elim
          (fun hkey => (hl.around _ List.mem_cons_self key hkey).1)
          fun hkey => (hr.around _ List.mem_cons_self key hkey).1
      have hdeepens : ∀ lower ∈ left.splits ++ right.splits, discipline.deepens split lower := by
        intro lower hlower
        exact (List.mem_append.mp hlower).elim
          (h.deepens ⟨owner, split, .left, right⟩ hplug hl lower)
          (h.deepens ⟨owner, split, .right, left⟩ hplug hr lower)
      refine ⟨⟨⟨hl.admits _ List.mem_cons_self, ?_, ?_, ?_, hdeepens⟩, hl.obeys, hr.obeys⟩,
        ?_, ?_, ?_⟩
      · exact fun first hfirst second hsecond =>
          discipline.agrees_trans (hagrees first hfirst)
            (discipline.agrees_symm (hagrees second hsecond))
      · exact fun key hkey => (hl.around _ List.mem_cons_self key hkey).2
      · exact fun key hkey => (hr.around _ List.mem_cons_self key hkey).2
      · exact fun frame hframe => hl.admits frame (List.mem_cons_of_mem _ hframe)
      · intro frame hframe key hkey
        rw [keys, members, List.map_append] at hkey
        exact (List.mem_append.mp hkey).elim
          (hl.around frame (List.mem_cons_of_mem _ hframe) key)
          (hr.around frame (List.mem_cons_of_mem _ hframe) key)
      · intro lower hlower top htop
        obtain rfl : split = top := Option.some.inj htop
        rw [Shape.splits, List.mem_cons] at hlower
        exact hlower.imp_right (hdeepens lower)

/-- A shape that keeps to a discipline in each place keeps to it throughout. -/
theorem obeys (h : shape.LocallyObeys discipline rank) : shape.Obeys discipline rank := by
  have hwhole : Settled discipline rank [] shape := h.settled rfl
  exact hwhole.obeys

end LocallyObeys

end Shape

end ElasticTree
