import ElasticTree.Proofs.Tree.Grouping
import Mathlib.Data.Finset.Card

/-!
# The first of every key

One node of every key comes first of it.  All other nodes are duplicates, and a
shape has one for each chained node and for each branch of a group
(`length_firsts`).
-/

namespace ElasticTree

open Shape

variable {C : Type} [DecidableEq C] {rank : NodeId → C}

/-- The nodes that come first of their key. -/
def firsts (rank : NodeId → C) (ids : List NodeId) : List NodeId :=
  ids.filter fun id => ids.find? (fun other => rank other = rank id) = some id

section Firsts

variable {id : NodeId} {front back rest : List NodeId}

/-- Lists that share no key do not come in each other's way. -/
theorem firsts_append (h : ∀ first ∈ front, ∀ second ∈ back, rank first ≠ rank second) :
    firsts rank (front ++ back) = firsts rank front ++ firsts rank back := by
  unfold firsts
  rw [List.filter_append]
  congr 1
  · apply List.filter_congr
    intro first hfirst
    have hsome : (front.find? fun other => rank other = rank first).isSome :=
      List.find?_isSome.mpr ⟨first, hfirst, decide_eq_true rfl⟩
    rw [List.find?_append, Option.or_of_isSome hsome]
  · apply List.filter_congr
    intro second hsecond
    have hnone : (front.find? fun other => rank other = rank second) = none :=
      List.find?_eq_none.mpr fun first hfirst heq =>
        h first hfirst second hsecond (of_decide_eq_true heq)
    rw [List.find?_append, hnone, Option.none_or]

/-- Of nodes that have the same key only one comes first. -/
theorem length_firsts_of_same (hne : rest ≠ []) (hnodup : rest.Nodup) {key : C}
    (hall : ∀ id ∈ rest, rank id = key) : (firsts rank rest).length = 1 := by
  obtain ⟨id, rest, rfl⟩ := List.exists_cons_of_ne_nil hne
  have hhead : firsts rank (id :: rest) = (id :: rest).filter fun other => id = other := by
    apply List.filter_congr
    intro other hother
    have hsame : rank id = rank other := (hall id List.mem_cons_self).trans (hall other hother).symm
    have hfirst : ((id :: rest).find? fun third => rank third = rank other) = some id := by
      rw [List.find?_cons, decide_eq_true hsame]
    rw [hfirst, decide_eq_decide, Option.some.injEq]
  have hrest : (rest.filter fun other => id = other) = [] :=
    List.filter_eq_nil_iff.mpr fun other hother heq =>
      (List.nodup_cons.mp hnodup).1 (of_decide_eq_true heq ▸ hother)
  rw [hhead, List.filter_cons, if_pos (decide_eq_true rfl), hrest, List.length_singleton]

/-- There are as many nodes that come first as there are keys. -/
theorem length_firsts_eq_card (hnodup : rest.Nodup) :
    (firsts rank rest).length = (rest.map rank).toFinset.card := by
  have hfirst : ∀ {id}, id ∈ firsts rank rest ↔
      id ∈ rest ∧ rest.find? (fun other => rank other = rank id) = some id := by
    intro id
    rw [firsts, List.mem_filter, decide_eq_true_eq]
  have hinjective : ((firsts rank rest).map rank).Nodup := by
    refine List.Nodup.map_on (fun first hfirst' second hsecond heq => ?_) (hnodup.filter _)
    have hfind := (hfirst.mp hfirst').2
    rw [heq, (hfirst.mp hsecond).2] at hfind
    exact (Option.some.inj hfind).symm
  have hsame : ((firsts rank rest).map rank).toFinset = (rest.map rank).toFinset := by
    ext key
    simp only [List.mem_toFinset, List.mem_map]
    constructor
    · rintro ⟨id, hid, rfl⟩
      exact ⟨id, (hfirst.mp hid).1, rfl⟩
    · rintro ⟨id, hid, rfl⟩
      obtain ⟨first, hfind⟩ := Option.isSome_iff_exists.mp
        (List.find?_isSome (p := fun other => decide (rank other = rank id)).mpr
          ⟨id, hid, decide_eq_true rfl⟩)
      have hkey : rank first = rank id := by
        simpa using List.find?_some hfind
      refine ⟨first, hfirst.mpr ⟨List.mem_of_find?_eq_some hfind, ?_⟩, hkey⟩
      rw [hkey, hfind]
  rw [← hsame, List.toFinset_card_of_nodup hinjective, List.length_map]

end Firsts

namespace Shape

variable [LT C] {discipline : Discipline C} {shape : Shape}

omit [DecidableEq C] in
/-- Of two nodes the one that comes first has the smaller key, if not the same. -/
theorem Obeys.ordered (hsettles : discipline.Settles) (h : shape.Obeys discipline rank) :
    shape.members.Pairwise fun first second =>
      rank first < rank second ∨ rank first = rank second := by
  induction shape with
  | leaf head behind =>
      refine List.Pairwise.imp_of_mem (fun {first second} hfirst hsecond _ => .inr ?_)
        (List.pairwise_of_forall fun _ _ => trivial)
      rw [h.eq_of_leaf _ (mem_keys_iff.mpr ⟨first, hfirst, rfl⟩),
        h.eq_of_leaf _ (mem_keys_iff.mpr ⟨second, hsecond, rfl⟩)]
  | branch owner split left right hleft hright =>
      refine List.pairwise_append.mpr ⟨hleft h.2.1, hright h.2.2,
        fun first hfirst second hsecond => ?_⟩
      have hhere : rank first ∈ left.keys rank := List.mem_map_of_mem hfirst
      have hthere : rank second ∈ right.keys rank := List.mem_map_of_mem hsecond
      have hagrees := h.1.agrees _ (List.mem_append_left _ hhere) _ (List.mem_append_right _ hthere)
      by_cases hsplit : split < 0
      · exact .inr (hsettles.eq_of_agrees hsplit hagrees)
      · exact .inl (discipline.lt (Int.not_lt.mp hsplit) hagrees (h.1.here _ hhere)
          (h.1.there _ hthere))

omit [DecidableEq C] in
/-- Where only one key is held, there are only branches of a group. -/
theorem Obeys.splits_neg_of_same (h : shape.Obeys discipline rank) {key : C}
    (hall : ∀ other ∈ shape.keys rank, other = key) : ∀ split ∈ shape.splits, split < 0 := by
  induction shape with
  | leaf head behind => simp [splits]
  | branch owner split left right hleft hright =>
      have hsplit := h.split_neg_of_same hall
      rw [keys_branch] at hall
      simp only [splits, List.forall_mem_cons, List.forall_mem_append]
      exact ⟨hsplit, hleft h.2.1 fun other hother => hall other (List.mem_append_left _ hother),
        hright h.2.2 fun other hother => hall other (List.mem_append_right _ hother)⟩

theorem length_splits (shape : Shape) : shape.splits.length = shape.owners.length := by
  induction shape with
  | leaf head behind => rfl
  | branch owner split left right hleft hright =>
      simp only [splits, owners, List.length_cons, List.length_append, hleft, hright]

/-- Every node is the first of its key, or chained, or one for which a group has a
branch. -/
theorem Obeys.length_firsts (hsettles : discipline.Settles)
    (h : shape.Obeys discipline rank) (hnodup : shape.members.Nodup) :
    (firsts rank shape.members).length + (shape.chained.length + shape.splits.countP (· < 0)) =
      shape.members.length := by
  have hlength := shape.members_perm.length_eq
  rw [List.length_append, shape.length_leaves, ← shape.length_splits] at hlength
  induction shape with
  | leaf head behind =>
      have hall := h.eq_of_leaf
      rw [length_firsts_of_same (members_ne_nil _) hnodup fun id hid =>
        hall _ (mem_keys_iff.mpr ⟨id, hid, rfl⟩), hlength]
      simp only [splits, List.countP_nil, List.length_nil]
      omega
  | branch owner split left right hleft hright =>
      by_cases hsplit : split < 0
      · -- a group has one key, and all its branches are those of a group
        obtain ⟨known, hall⟩ := h.exists_same hsettles hsplit
        have hneg := List.countP_eq_length.mpr fun other hother =>
          decide_eq_true (h.splits_neg_of_same hall other hother)
        rw [length_firsts_of_same (members_ne_nil _) hnodup fun id hid =>
          hall _ (mem_keys_iff.mpr ⟨id, hid, rfl⟩), hneg, hlength]
        omega
      · have hdisjoint : ∀ first ∈ left.members, ∀ second ∈ right.members,
            rank first ≠ rank second := by
          intro first hfirst second hsecond
          exact h.parted (Int.not_lt.mp hsplit) _ (mem_keys_iff.mpr ⟨first, hfirst, rfl⟩) _
            (mem_keys_iff.mpr ⟨second, hsecond, rfl⟩)
        obtain ⟨hnodup_left, hnodup_right, -⟩ := List.nodup_append.mp hnodup
        have hlength_left := left.members_perm.length_eq
        have hlength_right := right.members_perm.length_eq
        rw [List.length_append, length_leaves, ← length_splits] at hlength_left hlength_right
        have hleft := hleft h.2.1 hnodup_left hlength_left
        have hright := hright h.2.2 hnodup_right hlength_right
        simp only [members, chained, splits, firsts_append hdisjoint, List.length_append,
          List.countP_cons, List.countP_append, decide_eq_true_eq, if_neg hsplit]
        omega

end Shape

end ElasticTree
