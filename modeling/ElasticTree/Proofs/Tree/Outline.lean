import ElasticTree.Proofs.Shape.Outline
import ElasticTree.Proofs.Tree.Insertion
import ElasticTree.Proofs.Tree.Unfolding
import ElasticTree.Tree.Statistics

/-!
# Outline and figures of a standing tree

The outline of a standing tree is that of its shape, and so are its figures: each
of them counts one of the lists of the shape.
-/

namespace ElasticTree

open Shape

namespace Shape

/-- What there is to count in a shape below `depth` branches. -/
def census : Nat → Shape → Census
  | depth, leaf _ _ => .leaf depth
  | depth, branch _ split left right =>
      .join ⟨.root, left.link, right.link, split⟩ (left.census (depth + 1))
        (right.census (depth + 1))

section Census

variable (depth : Nat) (shape : Shape)

theorem leaves_census : (shape.census depth).leaves = shape.leaves.length := by
  induction shape generalizing depth with
  | leaf head behind => rfl
  | branch owner split left right hleft hright =>
      simp only [census, Census.join, leaves, List.length_append, hleft, hright]

theorem branches_census : (shape.census depth).branches = shape.owners.length := by
  induction shape generalizing depth with
  | leaf head behind => rfl
  | branch owner split left right hleft hright =>
      simp only [census, Census.join, owners, List.length_append, List.length_cons, hleft, hright]

theorem groupBranches_census :
    (shape.census depth).groupBranches = shape.splits.countP (· < 0) := by
  induction shape generalizing depth with
  | leaf head behind => rfl
  | branch owner split left right hleft hright =>
      simp only [census, Census.join, Branch.isGroup, splits, List.countP_append, List.countP_cons,
        hleft, hright]
      rfl

theorem maxHeight_census : (shape.census depth).maxHeight = depth + shape.height := by
  induction shape generalizing depth with
  | leaf head behind => rfl
  | branch owner split left right hleft hright =>
      simp only [census, Census.join, height, hleft, hright]
      omega

theorem heightSum_census_le :
    (shape.census depth).heightSum ≤ shape.leaves.length * (depth + shape.height) := by
  induction shape generalizing depth with
  | leaf head behind => simp [census, Census.leaf, leaves, height]
  | branch owner split left right hleft hright =>
      have hdeeper : ∀ part : Shape, part.height ≤ max left.height right.height →
          part.leaves.length * (depth + 1 + part.height) ≤
            part.leaves.length * (depth + (max left.height right.height + 1)) := by
        intro part hpart
        exact Nat.mul_le_mul_left _ (by omega)
      simp only [census, Census.join, leaves, height, List.length_append, Nat.add_mul]
      exact Nat.add_le_add ((hleft _).trans (hdeeper left (Nat.le_max_left _ _)))
        ((hright _).trans (hdeeper right (Nat.le_max_right _ _)))

end Census

end Shape

namespace Tree

namespace Stands

variable {K V C : Type} [Inhabited C] {view : K → C} {tree : Tree K V} {context : Context}
  {hole : Shape} {shape : Option Shape}

private theorem outlineWithin_eq {limit : Nat} (h : tree.Stands (some (context.plug hole)))
    (hlimit : hole.height ≤ limit) :
    tree.outlineWithin view limit hole.link = .ok (hole.outline (tree.rank view)) := by
  induction hole generalizing context limit with
  | leaf head behind =>
      obtain ⟨node, hnode, hkey⟩ := h.exists_node_below view List.mem_cons_self
      rw [Shape.link, outlineWithin, hnode, Fault.ok_bind, hkey]
      rfl
  | branch owner split left right hleft hright =>
      have howner : owner ∈ (Shape.branch owner split left right).members := h.covered.link_mem
      obtain ⟨node, hnode, hkey⟩ := h.exists_node_below view howner
      rw [Shape.height] at hlimit
      obtain ⟨limit, rfl⟩ : ∃ rest, limit = rest + 1 := ⟨limit - 1, by omega⟩
      rw [Shape.link, outlineWithin, h.branch_eq, Fault.ok_bind, Shape.outline]
      simp only [Branch.isGroup, decide_eq_true_eq]
      by_cases hgroup : split < 0
      · rw [if_pos hgroup, if_pos hgroup, hnode, Fault.ok_bind, hkey]
        rfl
      · rw [if_neg hgroup, if_neg hgroup, hleft h.into_left (by omega), Fault.ok_bind,
          hright h.into_right (by omega)]
        rfl

/-- A standing tree has the outline of its shape. -/
theorem outline_eq (h : tree.Stands shape) :
    tree.outline view = .ok (shape.map (Shape.outline (tree.rank view))) := by
  rw [outline, h.root_eq]
  cases shape with
  | none => rfl
  | some found =>
      have hplug : tree.Stands (some (Context.plug [] found)) := h
      show (tree.outlineWithin view tree.walkLimit found.link >>= _) = _
      rw [hplug.outlineWithin_eq h.height_lt.le]
      rfl

/-- The linked keys of a standing tree are those of its shape, each as often. -/
theorem linkedKeys_perm (h : tree.Stands shape) :
    (tree.linkedKeys view).Perm ((shape.elim [] Shape.members).map (tree.rank view)) := by
  have hfilter : (tree.nodes.entries.filter fun entry => entry.2.placement ≠ .detached) =
      tree.nodes.entries.filter fun entry => entry.1 ∈ shape.elim [] Shape.members := by
    apply List.filter_congr
    intro entry hentry
    have hnode := (Arena.mem_entries_iff h.sound).mp hentry
    rw [← placement_layout hnode, decide_eq_decide, ne_eq, h.placement_eq_detached_iff, not_not]
  have hkeys : tree.linkedKeys view =
      (tree.nodes.names.filter (· ∈ shape.elim [] Shape.members)).map (tree.rank view) := by
    rw [linkedKeys, hfilter, Arena.names, List.filter_map, List.map_map]
    apply List.map_congr_left
    intro entry hentry
    have hnode := (Arena.mem_entries_iff h.sound).mp (List.mem_filter.mp hentry).1
    exact (rank_of_get? view hnode).symm
  rw [hkeys]
  refine List.Perm.map _ ((List.perm_ext_iff_of_nodup ((Arena.nodup_names h.sound).filter _)
    h.draws.members_nodup).mpr fun id => ?_)
  rw [List.mem_filter, Arena.mem_names_iff h.sound, decide_eq_true_eq]
  exact and_iff_right_of_imp h.live

theorem mem_linkedKeys_iff (h : tree.Stands shape) {key : C} :
    key ∈ tree.linkedKeys view ↔ key ∈ (shape.elim [] Shape.members).map (tree.rank view) :=
  h.linkedKeys_perm.mem_iff

/-- Standing trees with the same linked keys have the same outline. -/
theorem outline_eq_of_linkedKeys [LT C] {K' V' : Type} {view' : K' → C} {tree' : Tree K' V'}
    {shape' : Option Shape} {discipline : Discipline C} (hsettles : discipline.Settles)
    (h : tree.Stands shape) (h' : tree'.Stands shape')
    (hobeys : ∀ found ∈ shape, found.Obeys discipline (tree.rank view))
    (hobeys' : ∀ found ∈ shape', found.Obeys discipline (tree'.rank view'))
    (hkeys : ∀ key, key ∈ tree.linkedKeys view ↔ key ∈ tree'.linkedKeys view') :
    shape.map (Shape.outline (tree.rank view)) = shape'.map (Shape.outline (tree'.rank view')) := by
  simp only [h.mem_linkedKeys_iff, h'.mem_linkedKeys_iff] at hkeys
  cases shape with
  | none =>
      cases shape' with
      | none => rfl
      | some found' =>
          obtain ⟨key, hkey⟩ := List.exists_mem_of_ne_nil _ (found'.keys_ne_nil (tree'.rank view'))
          simpa using (hkeys key).mpr hkey
  | some found =>
      cases shape' with
      | none =>
          obtain ⟨key, hkey⟩ := List.exists_mem_of_ne_nil _ (found.keys_ne_nil (tree.rank view))
          simpa using (hkeys key).mp hkey
      | some found' =>
          rw [Option.map_some, Option.map_some, (hobeys found rfl).outline_eq hsettles
            (hobeys' found' rfl) (h.draws.covered _ rfl) (h'.draws.covered _ rfl) hkeys]

/-! ## Figures -/

omit [Inhabited C]

private theorem censusWithin_eq {limit depth : Nat} (h : tree.Stands (some (context.plug hole)))
    (hlimit : hole.height ≤ limit) :
    tree.censusWithin limit depth hole.link = .ok (hole.census depth) := by
  induction hole generalizing context limit depth with
  | leaf head behind => rw [Shape.link, censusWithin, Shape.census]
  | branch owner split left right hleft hright =>
      rw [Shape.height] at hlimit
      obtain ⟨limit, rfl⟩ : ∃ rest, limit = rest + 1 := ⟨limit - 1, by omega⟩
      rw [Shape.link, censusWithin, h.branch_eq, Fault.ok_bind]
      dsimp only
      rw [hright h.into_right (by omega), Fault.ok_bind, hleft h.into_left (by omega)]
      rfl

theorem census_eq (h : tree.Stands shape) :
    tree.census = .ok (shape.elim .zero (Shape.census 0)) := by
  rw [census, h.root_eq]
  cases shape with
  | none => rfl
  | some found =>
      have hplug : tree.Stands (some (Context.plug [] found)) := h
      exact hplug.censusWithin_eq h.height_lt.le

/-- As many nodes are chained as there are behind the leaves of the shape. -/
private theorem countP_chained (h : tree.Stands shape) :
    (tree.nodes.entries.countP fun entry => entry.2.placement = .chained) =
      (shape.elim [] Shape.chained).length := by
  have hnodup : (shape.elim [] Shape.chained).Nodup := by
    cases shape with
    | none => exact List.nodup_nil
    | some found =>
        exact (found.members_perm.nodup_iff.mp h.draws.members_nodup).of_append_right
  have hlive : ∀ id ∈ shape.elim [] Shape.chained, tree.nodes.Live id := by
    cases shape with
    | none => simp
    | some found => exact fun id hid => h.live (mem_members_iff.mpr (.inr hid))
  refine Arena.countP_entries h.sound (fun node => node.placement = .chained) hnodup hlive
    fun id node hnode => ?_
  rw [decide_eq_true_eq, h.formsWith.chained_iff id node hnode]
  cases shape <;> simp

/-- As many nodes record a leaf position as the shape has leaves. -/
private theorem countP_leaves (h : tree.Stands shape) :
    (tree.nodes.entries.countP fun entry => entry.2.placement.position?.isSome) =
      (shape.elim [] Shape.leaves).length := by
  have hnodup : (shape.elim [] Shape.leaves).Nodup := by
    cases shape with
    | none => exact List.nodup_nil
    | some found => exact h.draws.leaves_nodup
  have hlive : ∀ id ∈ shape.elim [] Shape.leaves, tree.nodes.Live id := by
    intro id hid
    obtain ⟨node, _, hnode, -⟩ := h.mem_leaves_iff.mp hid
    exact Option.isSome_iff_exists.mpr ⟨node, hnode⟩
  refine Arena.countP_entries h.sound (fun node => node.placement.position?.isSome) hnodup hlive
    fun id node hnode => ?_
  rw [Option.isSome_iff_exists, h.mem_leaves_iff, hnode]
  simp

/-- As many nodes lend a branch as the shape has branches. -/
private theorem countP_owners (h : tree.Stands shape) :
    (tree.nodes.entries.countP fun entry => entry.2.branch.isSome) =
      (shape.elim [] Shape.owners).length := by
  have hnodup : (shape.elim [] Shape.owners).Nodup := by
    cases shape with
    | none => exact List.nodup_nil
    | some found => exact h.draws.owners_nodup
  have hlive : ∀ id ∈ shape.elim [] Shape.owners, tree.nodes.Live id := by
    cases shape with
    | none => simp
    | some found =>
        exact fun id hid => h.live (mem_members_iff.mpr (.inl (h.draws.owners_subset id hid)))
  refine Arena.countP_entries h.sound (fun node => node.branch.isSome) hnodup hlive
    fun id node hnode => ?_
  rw [Option.isSome_iff_ne_none, h.branch_ne_none_iff hnode]

/-- By what the nodes record, there is one leaf more than there are branches, unless
nothing is linked. -/
theorem countP_placed (h : tree.Stands shape) :
    (tree.nodes.entries.countP fun entry => entry.2.placement.position?.isSome) =
      (tree.nodes.entries.countP fun entry => entry.2.branch.isSome) +
        tree.root.isSome.toNat := by
  rw [h.countP_leaves, h.countP_owners, h.root_eq, Option.isSome_map]
  cases shape with
  | none => rfl
  | some found => exact found.length_leaves

/-- The figures of a standing tree are read off its shape. -/
theorem statistics_eq (h : tree.Stands shape) : tree.statistics = .ok {
    values := (shape.elim [] Shape.members).length
    leaves := (shape.elim [] Shape.leaves).length
    branches := (shape.elim [] Shape.owners).length
    groupBranches := (shape.elim [] Shape.splits).countP (· < 0)
    duplicates := (shape.elim [] Shape.chained).length + (shape.elim [] Shape.splits).countP (· < 0)
    detached := tree.nodes.entries.countP fun entry => entry.1 ∉ shape.elim [] Shape.members
    maxHeight := shape.elim 0 Shape.height
    heightSum := (shape.elim .zero (Shape.census 0)).heightSum } := by
  have hdetached : (tree.nodes.entries.countP fun entry => entry.2.placement = .detached) =
      tree.nodes.entries.countP fun entry => entry.1 ∉ shape.elim [] Shape.members := by
    apply List.countP_congr
    intro entry hentry
    have hnode := (Arena.mem_entries_iff h.sound).mp hentry
    rw [decide_eq_true_eq, decide_eq_true_eq, ← h.placement_eq_detached_iff, placement_layout hnode]
  unfold statistics
  simp only [h.census_eq, Fault.ok_bind, List.countP_map, h.linked_eq]
  rw [show ((fun node : Node K V => decide (node.placement = .chained)) ∘ Prod.snd) =
      fun entry : NodeId × Node K V => decide (entry.2.placement = .chained) from rfl,
    show ((fun node : Node K V => decide (node.placement = .detached)) ∘ Prod.snd) =
      fun entry : NodeId × Node K V => decide (entry.2.placement = .detached) from rfl,
    h.countP_chained, hdetached]
  cases shape with
  | none => rfl
  | some found =>
      simp only [Option.elim_some, leaves_census, branches_census, groupBranches_census,
        maxHeight_census, Nat.zero_add]
      rfl

/-- The sum of all heights is a number of 64 bits. -/
theorem heightSum_lt (h : tree.Stands shape) :
    (shape.elim .zero (Shape.census 0)).heightSum < 2 ^ 64 := by
  cases shape with
  | none => exact Nat.two_pow_pos 64
  | some found =>
      have hsum := heightSum_census_le 0 found
      have hheight := found.height_le
      have hleaves := found.length_leaves
      have hcount : found.leaves.length ≤ 2 ^ 32 :=
        (Arena.length_le_slotCount h.sound h.draws.leaves_nodup fun id hid =>
          h.live (mem_members_iff.mpr (.inl hid))).trans h.sound.slotCount_le
      calc (found.census 0).heightSum
          ≤ found.leaves.length * (0 + found.height) := hsum
        _ ≤ 2 ^ 32 * (2 ^ 32 - 1) := Nat.mul_le_mul hcount (by omega)
        _ < 2 ^ 64 := by decide

end Stands

end Tree

end ElasticTree
