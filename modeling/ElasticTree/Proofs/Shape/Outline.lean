import ElasticTree.Proofs.Shape.Placement
import ElasticTree.Tree.Outline

/-!
# The outline of a set of keys

Two shapes that keep to one discipline and hold the same keys have the same
outline.  If the topmost splits were different, one of them might occur below the
other, and then all keys would go to one side of it (`not_deepens`).  So the
topmost split is the same, the keys on either side of it are the same, and the
rest follows by induction.

This rests on two more properties of a discipline: only equal keys are in a
group, and of two different splits one may follow the other.
-/

namespace ElasticTree

open Shape

variable {C : Type} [LT C] {discipline : Discipline C}

namespace Discipline

/-- Splits leave no choice: a group has one key, and one of two splits may occur
below the other. -/
structure Settles (discipline : Discipline C) : Prop where
  eq_of_agrees : ∀ {split first second}, split < 0 → discipline.agrees split first second →
    first = second
  deepens_total : ∀ {first second}, 0 ≤ first → 0 ≤ second → first ≠ second →
    discipline.deepens first second ∨ discipline.deepens second first

namespace Parts

variable {split other : Int} {here there : List C} {below : List Int} {key : C}

/-- A key is on one side only of a split that parts different keys. -/
theorem not_both (hsplit : 0 ≤ split) (hleft : discipline.onSide split .left key)
    (hright : discipline.onSide split .right key) : False :=
  discipline.lt_irrefl key (discipline.lt hsplit (discipline.agrees_refl _ _) hleft hright)

/-- Keys on both sides of a split agree at no split below it. -/
theorem not_deepens {first second : C} (h : discipline.Parts split .left here there below)
    (hsplit : 0 ≤ split) (hfirst : first ∈ here) (hsecond : second ∈ there)
    (hagrees : discipline.agrees other first second) : ¬ discipline.deepens split other := by
  intro hdeepens
  have hleft := (discipline.coarsen hdeepens hagrees).2 .left (h.here first hfirst)
  exact not_both hsplit hleft (h.there second hsecond)

end Parts

end Discipline

namespace Shape

variable {rank rank' : NodeId → C} {shape shape' : Shape}

/-- The outline of a shape. -/
def outline (rank : NodeId → C) : Shape → Outline C
  | leaf head _ => .leaf (rank head)
  | branch owner split left right =>
      if split < 0 then .leaf (rank owner)
      else .branch split (left.outline rank) (right.outline rank)

omit [LT C] in
theorem keys_branch (owner : NodeId) (split : Int) (left right : Shape) :
    (branch owner split left right).keys rank = left.keys rank ++ right.keys rank :=
  List.map_append

omit [LT C] in
theorem keys_ne_nil (shape : Shape) (rank : NodeId → C) : shape.keys rank ≠ [] :=
  fun h => shape.members_ne_nil (List.map_eq_nil_iff.mp h)

/-! ## Without groups -/

section Figures

omit [LT C]

variable (h : ∀ split ∈ shape.splits, 0 ≤ split)
include h

theorem leaves_outline : (shape.outline rank).leaves = shape.leaves.length := by
  induction shape with
  | leaf head behind => rfl
  | branch owner split left right hleft hright =>
      simp only [splits, List.forall_mem_cons, List.forall_mem_append] at h
      simp only [outline, if_neg (Int.not_lt.mpr h.1), Outline.leaves, leaves, List.length_append,
        hleft h.2.1, hright h.2.2]

theorem branches_outline : (shape.outline rank).branches = shape.owners.length := by
  induction shape with
  | leaf head behind => rfl
  | branch owner split left right hleft hright =>
      simp only [splits, List.forall_mem_cons, List.forall_mem_append] at h
      simp only [outline, if_neg (Int.not_lt.mpr h.1), Outline.branches, owners, List.length_append,
        List.length_cons, hleft h.2.1, hright h.2.2]

theorem height_outline : (shape.outline rank).height = shape.height := by
  induction shape with
  | leaf head behind => rfl
  | branch owner split left right hleft hright =>
      simp only [splits, List.forall_mem_cons, List.forall_mem_append] at h
      simp only [outline, if_neg (Int.not_lt.mpr h.1), Outline.height, height, hleft h.2.1,
        hright h.2.2]

end Figures

/-! ## With the same keys -/

section Branch

variable {owner : NodeId} {split : Int} {left right : Shape}
  (h : (branch owner split left right).Obeys discipline rank)
include h

/-- A branch that is not of a group parts different keys. -/
theorem Obeys.parted (hsplit : 0 ≤ split) :
    ∀ first ∈ left.keys rank, ∀ second ∈ right.keys rank, first ≠ second := by
  rintro key hfirst _ hsecond rfl
  exact Discipline.Parts.not_both hsplit (h.1.here key hfirst) (h.1.there key hsecond)

/-- A group holds one key. -/
theorem Obeys.exists_same (hsettles : discipline.Settles) (hsplit : split < 0) :
    ∃ key, ∀ other ∈ (branch owner split left right).keys rank, other = key := by
  obtain ⟨known, hknown⟩ := List.exists_mem_of_ne_nil _ (left.keys_ne_nil rank)
  refine ⟨known, fun other hother => ?_⟩
  rw [keys_branch] at hother
  exact hsettles.eq_of_agrees hsplit
    (h.1.agrees other hother known (List.mem_append_left _ hknown))

/-- A branch that holds only one key is one of a group. -/
theorem Obeys.split_neg_of_same {key : C}
    (hall : ∀ other ∈ (branch owner split left right).keys rank, other = key) : split < 0 := by
  obtain ⟨first, hfirst⟩ := List.exists_mem_of_ne_nil _ (left.keys_ne_nil rank)
  obtain ⟨second, hsecond⟩ := List.exists_mem_of_ne_nil _ (right.keys_ne_nil rank)
  rw [keys_branch] at hall
  have hfirst_eq := hall first (List.mem_append_left _ hfirst)
  have hsecond_eq := hall second (List.mem_append_right _ hsecond)
  refine Int.not_le.mp fun hsplit => ?_
  exact h.parted hsplit first hfirst second hsecond (hfirst_eq.trans hsecond_eq.symm)

end Branch

/-- Where only one key is held, the outline is a leaf. -/
theorem Obeys.outline_eq_leaf (h : shape.Obeys discipline rank) (hcovered : shape.Covered) {key : C}
    (hall : ∀ other ∈ shape.keys rank, other = key) : shape.outline rank = .leaf key := by
  cases shape with
  | leaf head behind => rw [outline, hall _ (mem_keys_iff.mpr ⟨head, List.mem_cons_self, rfl⟩)]
  | branch owner split left right =>
      have howner : owner ∈ (branch owner split left right).members := hcovered.link_mem
      rw [outline, if_pos (h.split_neg_of_same hall),
        hall _ (mem_keys_iff.mpr ⟨owner, howner, rfl⟩)]

/-- Where more than one key is held, there is a branch of different keys at the
top. -/
theorem Obeys.exists_branch (h : shape.Obeys discipline rank) (hsettles : discipline.Settles)
    (hmany : ¬ ∃ key, ∀ other ∈ shape.keys rank, other = key) :
    ∃ owner split left right, shape = branch owner split left right ∧ 0 ≤ split := by
  cases shape with
  | leaf head behind => exact absurd ⟨rank head, h.eq_of_leaf⟩ hmany
  | branch owner split left right =>
      exact ⟨owner, split, left, right, rfl, Int.not_lt.mp fun hsplit =>
        hmany (h.exists_same hsettles hsplit)⟩

section Branches

variable {owner owner' : NodeId} {split split' : Int} {left right left' right' : Shape}
  (h : (branch owner split left right).Obeys discipline rank)
  (h' : (branch owner' split' left' right').Obeys discipline rank')
  (hkeys : ∀ key, key ∈ (branch owner split left right).keys rank ↔
    key ∈ (branch owner' split' left' right').keys rank')
include h h' hkeys

/-- The topmost split of the one does not lie above that of the other. -/
private theorem not_deepens (hsplit : 0 ≤ split) : ¬ discipline.deepens split split' := by
  obtain ⟨first, hfirst⟩ := List.exists_mem_of_ne_nil _ (left.keys_ne_nil rank)
  obtain ⟨second, hsecond⟩ := List.exists_mem_of_ne_nil _ (right.keys_ne_nil rank)
  simp only [keys_branch] at hkeys
  apply h.1.not_deepens hsplit hfirst hsecond
  apply h'.1.agrees
  · exact (hkeys first).mp (List.mem_append_left _ hfirst)
  · exact (hkeys second).mp (List.mem_append_right _ hsecond)

/-- Below the same split the keys on the left of the one are on the left of the
other. -/
private theorem mem_left_of_mem (hsplit : 0 ≤ split) (heq : split = split') {key : C}
    (hkey : key ∈ left.keys rank) : key ∈ left'.keys rank' := by
  simp only [keys_branch] at hkeys
  rcases List.mem_append.mp ((hkeys key).mp (List.mem_append_left _ hkey)) with hleft | hright
  · exact hleft
  · exact (Discipline.Parts.not_both hsplit (h.1.here key hkey)
      (heq ▸ h'.1.there key hright)).elim

private theorem mem_right_of_mem (hsplit : 0 ≤ split) (heq : split = split') {key : C}
    (hkey : key ∈ right.keys rank) : key ∈ right'.keys rank' := by
  simp only [keys_branch] at hkeys
  rcases List.mem_append.mp ((hkeys key).mp (List.mem_append_right _ hkey)) with hleft | hright
  · exact (Discipline.Parts.not_both hsplit (heq ▸ h'.1.here key hleft)
      (h.1.there key hkey)).elim
  · exact hright

end Branches

/-- Shapes that hold the same keys have the same outline. -/
theorem Obeys.outline_eq (hsettles : discipline.Settles) (h : shape.Obeys discipline rank)
    (h' : shape'.Obeys discipline rank') (hcovered : shape.Covered) (hcovered' : shape'.Covered)
    (hkeys : ∀ key, key ∈ shape.keys rank ↔ key ∈ shape'.keys rank') :
    shape.outline rank = shape'.outline rank' := by
  induction shape generalizing shape' with
  | leaf head behind =>
      have hall := h.eq_of_leaf
      rw [h.outline_eq_leaf hcovered hall,
        h'.outline_eq_leaf hcovered' fun other hother => hall other ((hkeys other).mpr hother)]
  | branch owner split left right hleft hright =>
      by_cases hmany : ∃ key, ∀ other ∈ (branch owner split left right).keys rank, other = key
      · obtain ⟨key, hall⟩ := hmany
        rw [h.outline_eq_leaf hcovered hall,
          h'.outline_eq_leaf hcovered' fun other hother => hall other ((hkeys other).mpr hother)]
      · have hmany' : ¬ ∃ key, ∀ other ∈ shape'.keys rank', other = key := by
          rintro ⟨key, hall⟩
          exact hmany ⟨key, fun other hother => hall other ((hkeys other).mp hother)⟩
        obtain ⟨_, _, _, _, ⟨⟩, hsplit⟩ := h.exists_branch hsettles hmany
        obtain ⟨owner', split', left', right', rfl, hsplit'⟩ := h'.exists_branch hsettles hmany'
        have hkeys' := fun key => (hkeys key).symm
        have heq : split = split' := by
          refine Decidable.byContradiction fun hne => ?_
          rcases hsettles.deepens_total hsplit hsplit' hne with hdeepens | hdeepens
          · exact not_deepens h h' hkeys hsplit hdeepens
          · exact not_deepens h' h hkeys' hsplit' hdeepens
        rw [outline, outline, if_neg (Int.not_lt.mpr hsplit), if_neg (Int.not_lt.mpr hsplit'), heq,
          hleft h.2.1 h'.2.1 hcovered.2.1 hcovered'.2.1 fun key =>
            ⟨mem_left_of_mem h h' hkeys hsplit heq, mem_left_of_mem h' h hkeys' hsplit' heq.symm⟩,
          hright h.2.2 h'.2.2 hcovered.2.2 hcovered'.2.2 fun key =>
            ⟨mem_right_of_mem h h' hkeys hsplit heq, mem_right_of_mem h' h hkeys' hsplit' heq.symm⟩]

end Shape

end ElasticTree
