import ElasticTree.Proofs.Shape.Placement
import Mathlib.Data.Int.Interval

/-!
# How deep a discipline lets a shape become

On the way down every split follows all splits above it, so none occurs twice, and there
is no more room than there are splits that may occur.
-/

namespace ElasticTree

open Shape

/-- Different splits from one range are no more than the range has room for. -/
theorem length_le_of_nodup {splits : List Int} {low high : Int} (hnodup : splits.Nodup)
    (hrange : ∀ split ∈ splits, low ≤ split ∧ split < high) :
    splits.length ≤ (high - low).toNat := by
  have hsubset : splits.toFinset ⊆ Finset.Ico low high := by
    intro split hsplit
    rw [Finset.mem_Ico]
    exact hrange split (List.mem_toFinset.mp hsplit)
  calc splits.length
      = splits.toFinset.card := (List.toFinset_card_of_nodup hnodup).symm
    _ ≤ (Finset.Ico low high).card := Finset.card_le_card hsubset
    _ = (high - low).toNat := Int.card_Ico low high

namespace Shape

variable {C : Type} [LT C] {discipline : Discipline C} {rank : NodeId → C} {context : Context}
  {held : List C} {splits : List Int}

/-- The splits in the hole may follow all splits above it. -/
theorem Context.Obeys.deepens_hole (h : context.Obeys discipline rank held splits) :
    ∀ frame ∈ context, ∀ lower ∈ splits, discipline.deepens frame.split lower := by
  induction context generalizing held splits with
  | nil => simp
  | cons frame outer ih =>
      obtain ⟨hparts, -, houter⟩ := h
      intro other hother lower hlower
      rcases List.mem_cons.mp hother with rfl | hother
      · exact hparts.deepens lower (List.mem_append_left _ hlower)
      · exact ih houter other hother lower (List.mem_cons_of_mem _ (List.mem_append_left _ hlower))

/-- Each split on the way down may follow all splits above it. -/
theorem Context.Obeys.pairwise (h : context.Obeys discipline rank held splits) :
    context.Pairwise fun lower upper => discipline.deepens upper.split lower.split := by
  induction context generalizing held splits with
  | nil => exact List.Pairwise.nil
  | cons frame outer ih =>
      obtain ⟨-, -, houter⟩ := h
      exact .cons (fun upper hupper => houter.deepens_hole upper hupper _ List.mem_cons_self)
        (ih houter)

/-- If no split may follow itself, and there are only so many, the way down is no longer. -/
theorem Context.Obeys.length_le (h : context.Obeys discipline rank held splits) (low high : Int)
    (hirrefl : ∀ split, ¬ discipline.deepens split split)
    (hrange : ∀ frame ∈ context, low ≤ frame.split ∧ frame.split < high) :
    context.length ≤ (high - low).toNat := by
  have hnodup : (context.map Frame.split).Nodup := by
    refine List.pairwise_map.mpr (h.pairwise.imp ?_)
    intro lower upper hdeepens heq
    exact hirrefl _ (heq ▸ hdeepens)
  rw [← List.length_map (f := Frame.split)]
  exact length_le_of_nodup hnodup (by simpa using hrange)

/-- Where nodes are not chained, every node is a leaf. -/
theorem Obeys.chained_eq (hchains : ¬ discipline.chains) {shape : Shape}
    (h : shape.Obeys discipline rank) : shape.chained = [] := by
  induction shape with
  | leaf head behind => exact h.2.resolve_right hchains
  | branch owner split left right hleft hright =>
      rw [chained, hleft h.2.1, hright h.2.2, List.append_nil]

theorem Obeys.mem_leaves_iff (hchains : ¬ discipline.chains) {shape : Shape} {id : NodeId}
    (h : shape.Obeys discipline rank) : id ∈ shape.leaves ↔ id ∈ shape.members := by
  rw [mem_members_iff, h.chained_eq hchains]
  simp

/-- Where nodes are not chained, there is a branch for every node but one. -/
theorem Obeys.length_members (hchains : ¬ discipline.chains) {shape : Shape}
    (h : shape.Obeys discipline rank) : shape.members.length = shape.owners.length + 1 := by
  rw [shape.members_perm.length_eq, h.chained_eq hchains, List.append_nil, shape.length_leaves]

end Shape

end ElasticTree
