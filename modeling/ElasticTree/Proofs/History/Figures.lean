import ElasticTree.Proofs.History.Heights
import ElasticTree.Proofs.Tree.Heads

/-!
# Figures count what they say

The figures of a tree are gathered in two places.  The slots tell which nodes are chained
and which are detached, and a walk over the links counts leaves and branches.  Only together
do they say how many nodes there are besides the first of every key: one for each chained
node, and one for each branch of a group.
-/

namespace ElasticTree

open Shape

namespace Tree

variable {K V C : Type}

/-! ## What is meant -/

/-- The tree has these figures, and they count what they say. -/
structure Measures [DecidableEq C] (view : K → C) (tree : Tree K V)
    (figures : Statistics) : Prop where
  statistics_eq : tree.statistics = .ok figures
  length_linkedKeys : (tree.linkedKeys view).length = tree.size
  values_eq : figures.values = tree.size
  size_le : tree.size ≤ tree.nodeCount
  detached_eq : figures.detached = tree.nodeCount - tree.size
  branches_eq : figures.branches = if tree.isEmpty then 0 else figures.leaves - 1
  duplicates_eq : figures.duplicates = tree.size - (tree.linkedKeys view).toFinset.card
  length_path_le : ∀ splits id, tree.PathFromRoot splits (.leaf id) →
    splits.length ≤ figures.maxHeight
  exists_longest : if tree.isEmpty then figures.maxHeight = 0 else
    ∃ splits id, tree.PathFromRoot splits (.leaf id) ∧ splits.length = figures.maxHeight

/-! ## Why it is so -/

namespace Stands

variable {tree : Tree K V} {shape : Option Shape}

/-- The nodes that are not linked are those that are left of all nodes. -/
private theorem countP_not_mem (h : tree.Stands shape) :
    (shape.elim [] Shape.members).length + (tree.nodes.entries.countP fun entry =>
      entry.1 ∉ shape.elim [] Shape.members) = tree.nodeCount := by
  calc (shape.elim [] Shape.members).length + _
      = tree.nodes.names.countP (· ∈ shape.elim [] Shape.members) +
          tree.nodes.names.countP (· ∉ shape.elim [] Shape.members) := by
        rw [Arena.countP_names h.sound h.draws.members_nodup fun id hid => h.live hid, Arena.names,
          List.countP_map]
        rfl
    _ = tree.nodes.names.length := by
        rw [List.length_eq_countP_add_countP (· ∈ shape.elim [] Shape.members)]
        simp
    _ = tree.nodeCount := Arena.length_names h.sound

variable [LT C] [DecidableEq C] [Inhabited C] {view : K → C} {discipline : Discipline C}

/-- The linked nodes besides the first of every key. -/
private theorem duplicates_eq (hsettles : discipline.Settles) (h : tree.Stands shape)
    (hobeys : ∀ found ∈ shape, found.Obeys discipline (tree.rank view)) :
    (tree.linkedKeys view).toFinset.card +
      ((shape.elim [] Shape.chained).length + (shape.elim [] Shape.splits).countP (· < 0)) =
        (shape.elim [] Shape.members).length := by
  have hcard : (tree.linkedKeys view).toFinset.card =
      (firsts (tree.rank view) (shape.elim [] Shape.members)).length := by
    rw [length_firsts_eq_card h.draws.members_nodup, List.toFinset_eq_of_perm _ _ h.linkedKeys_perm]
  rw [hcard]
  cases shape with
  | none => rfl
  | some found => exact (hobeys found rfl).length_firsts hsettles h.draws.members_nodup

theorem measures (hsettles : discipline.Settles) (h : tree.Stands shape)
    (hobeys : ∀ found ∈ shape, found.Obeys discipline (tree.rank view)) :
    ∃ figures, tree.Measures view figures ∧
      figures.leaves + (shape.elim [] Shape.chained).length = tree.size ∧
      figures.groupBranches = (shape.elim [] Shape.splits).countP (· < 0) ∧
      figures.duplicates = (shape.elim [] Shape.chained).length + figures.groupBranches := by
  have hsize : tree.size = (shape.elim [] Shape.members).length := h.linked_eq
  have hempty : tree.isEmpty = shape.isNone := by
    rw [isEmpty, h.root_eq, Option.isNone_map]
  have hduplicates := h.duplicates_eq hsettles hobeys
  have hdetached := h.countP_not_mem
  refine ⟨_, ⟨h.statistics_eq, ?_, hsize.symm, by omega, ?_, ?_, ?_, fun splits id hpath => ?_, ?_⟩,
    ?_, rfl, rfl⟩
  · rw [h.linkedKeys_perm.length_eq, List.length_map, hsize]
  · show (tree.nodes.entries.countP fun entry => entry.1 ∉ shape.elim [] Shape.members) = _
    omega
  · rw [hempty]
    cases shape with
    | none => rfl
    | some found => simp [found.length_leaves]
  · show (shape.elim [] Shape.chained).length + (shape.elim [] Shape.splits).countP (· < 0) = _
    omega
  · exact h.length_path_le hpath
  · rw [hempty]
    cases shape with
    | none => simp
    | some found => simpa using h.exists_longest_path
  · rw [hsize]
    cases shape with
    | none => rfl
    | some found =>
        have hperm := found.members_perm.length_eq
        rw [List.length_append] at hperm
        exact hperm.symm

end Stands

end Tree

/-! ## Histories -/

/-- No branch of a tree of words belongs to a group. -/
private theorem WordTree.countP_splits_neg {width : Nat} {rank : NodeId → BitVec width}
    {shape : Option Shape} (hobeys : ∀ found ∈ shape, found.Obeys (Word.discipline width) rank) :
    (shape.elim [] Shape.splits).countP (· < 0) = 0 := by
  rw [List.countP_eq_zero]
  intro split hsplit
  cases shape with
  | none => simp at hsplit
  | some found =>
      have hadmits : 1 ≤ split ∧ split ≤ width := (hobeys found rfl).admits split hsplit
      simp only [decide_eq_true_eq]
      omega

/-- After any history the figures of a tree count what they say.  In a tree of words there
is a leaf for every key, and no branch of a group.  In a tree of byte strings that are
compared over one length there is a leaf for every node, and a branch of a group for every
node that is not the first of its key. -/
theorem figures_exact {K V : Type} [ByteKey K] (unique : Bool) :
    (∀ (width : Nat) (requests : List (Request (BitVec width) V Unit)), width < 2 ^ 31 →
      (Tree.empty unique).Fits WordTree.insertion requests →
        ∃ tree figures, (Tree.empty unique).run WordTree.insertion requests = .ok tree ∧
          tree.Measures (fun word => word) figures ∧
          figures.leaves = (tree.linkedKeys fun word => word).toFinset.card ∧
          figures.groupBranches = 0) ∧
    ∀ (length : Nat) (requests : List (Request K V Nat)),
      (∀ request ∈ requests, request.Allowed (· = length)) →
      (Tree.empty unique).Fits ByteTree.insert requests →
        (requests.countP Request.isInsert < 2 ^ 31 →
          ∃ tree, (Tree.empty unique).run ByteTree.insert requests = .ok tree) ∧
        ∀ tree, (Tree.empty unique).run ByteTree.insert requests = .ok tree →
          ∃ figures,
            tree.Measures (fun key => ByteString.padded length (ByteKey.bytes key)) figures ∧
            figures.leaves = tree.size ∧ figures.groupBranches = figures.duplicates := by
  refine ⟨fun width requests hwidth hfits => ?_, fun length requests hallowed hfits =>
    ⟨fun hinserts => ByteTree.run_ok hinserts hfits, fun tree hrun => ?_⟩⟩
  · obtain ⟨tree, shape, hrun, hstands, hobeys⟩ := WordTree.run_inOrder hwidth hfits
    obtain ⟨figures, hmeasures, hleaves, hgroups, hduplicates⟩ :=
      hstands.measures (Word.settles width) hobeys
    rw [WordTree.countP_splits_neg hobeys] at hgroups
    have hle : (tree.linkedKeys fun word => word).toFinset.card ≤ tree.size := by
      rw [← hmeasures.length_linkedKeys]
      exact List.toFinset_card_le _
    have hkeys := hmeasures.duplicates_eq
    exact ⟨tree, figures, hrun, hmeasures, by omega, hgroups⟩
  · obtain ⟨_, _, shape, hmirrors⟩ := ByteTree.mirrors_of_run hallowed hfits hrun
    obtain ⟨figures, hmeasures, hleaves, hgroups, hduplicates⟩ :=
      hmirrors.stands.measures (ByteString.settles length) hmirrors.obeys
    have hchained : shape.elim [] Shape.chained = [] := by
      cases shape with
      | none => rfl
      | some found => exact (hmirrors.obeys found rfl).chained_eq ByteTree.not_chains
    rw [hchained, List.length_nil] at hleaves hduplicates
    exact ⟨figures, hmeasures, by omega, by omega⟩

/-- Two nodes of the word five behind a third, of which the first lends its branch and goes, and
a node that is not linked at all. -/
private def succeeded : List (Request (BitVec 8) String Unit) :=
  [.alloc 5 "first", .alloc 5 "second", .alloc 5 "third", .alloc 3 "fourth", .alloc 7 "fifth",
    .insert ⟨0, 0⟩ (), .insert ⟨1, 0⟩ (), .insert ⟨2, 0⟩ (), .insert ⟨3, 0⟩ (), .unlink ⟨0, 0⟩]

/-- Four strings that are the same over one byte, of which the second goes, and one that
parts from them. -/
private def thinned : List (Request String String Nat) :=
  [.alloc "a" "first", .alloc "ab" "second", .alloc "ac" "third", .alloc "ad" "fourth",
    .alloc "b" "fifth", .insert ⟨0, 0⟩ 1, .insert ⟨1, 0⟩ 1, .insert ⟨2, 0⟩ 1, .insert ⟨3, 0⟩ 1,
    .insert ⟨4, 0⟩ 1, .unlink ⟨1, 0⟩]

theorem figures_exact_thinned :
    8 < 2 ^ 31 ∧ (Tree.empty false).Fits WordTree.insertion succeeded ∧
      (∀ request ∈ thinned, request.Allowed (· = 1)) ∧
      (Tree.empty false).Fits ByteTree.insert thinned ∧
      (∃ tree figures, (Tree.empty false).run WordTree.insertion succeeded = .ok tree ∧
        tree.Measures (fun word => word) figures ∧
        figures.leaves = (tree.linkedKeys fun word => word).toFinset.card ∧
        figures.groupBranches = 0) ∧
      ∃ tree figures, (Tree.empty false).run ByteTree.insert thinned = .ok tree ∧
        tree.Measures (fun key => ByteString.padded 1 (ByteKey.bytes key)) figures ∧
        figures.leaves = tree.size ∧ figures.groupBranches = figures.duplicates ∧
        figures.duplicates = 2 := by
  have hwidth : 8 < 2 ^ 31 := by decide
  have hsucceeded : (Tree.empty false).Fits WordTree.insertion succeeded := by decide +kernel
  have hallowed : ∀ request ∈ thinned, request.Allowed (· = 1) := by simp [thinned, Request.Allowed]
  have hthinned : (Tree.empty false).Fits ByteTree.insert thinned := by decide +kernel
  have hexact := figures_exact (K := String) (V := String) false
  obtain ⟨hruns, hfigures⟩ := hexact.2 1 thinned hallowed hthinned
  obtain ⟨tree, hrun⟩ := hruns (by decide)
  obtain ⟨figures, hmeasures, hleaves, hgroups⟩ := hfigures tree hrun
  have hseen : (Tree.empty false).run ByteTree.insert thinned >>=
      (fun tree => Statistics.duplicates <$> tree.statistics) = .ok 2 := by decide +kernel
  rw [hrun, Fault.ok_bind, hmeasures.statistics_eq] at hseen
  exact ⟨hwidth, hsucceeded, hallowed, hthinned, hexact.1 8 succeeded hwidth hsucceeded,
    tree, figures, hrun, hmeasures, hleaves, hgroups, Except.ok.inj hseen⟩

end ElasticTree
