import ElasticTree.Proofs.History.Mirror
import ElasticTree.Proofs.Tree.Stepping

/-!
# What a caller sees of a tree that mirrors a ledger

The questions that a caller may ask of a tree are answered by its ledger.
Stepping from the first node visits the nodes in the order of the shape, and
that order is the one of the ledger.
-/

namespace ElasticTree

open Shape

namespace Tree

variable {K V L C : Type}

/-- Stepping forward from a node of a standing tree visits all those behind it. -/
theorem Stands.visits {tree : Tree K V} {shape : Option Shape} (h : tree.Stands shape)
    (front : List NodeId) {back : List NodeId}
    (hmembers : shape.elim [] Shape.members = front ++ back) :
    tree.Visits back.head? back := by
  induction back generalizing front with
  | nil => exact .done
  | cons id back ih =>
      exact .step (h.next_eq hmembers) (ih (front ++ [id]) (by simp [hmembers]))

namespace Mirrors

variable [LT C] [Inhabited C] {discipline : Discipline C} {view : K → C} {floor : Nat}
  {tree : Tree K V} {ledger : Ledger K V C} {shape : Option Shape}

theorem shows (h : Mirrors discipline view floor tree ledger shape) : tree.Shows view ledger where
  key?_eq id := by
    rw [h.contents_get?, Option.map_map]
    rfl
  value?_eq id := by
    rw [h.contents_get?, Option.map_map]
    rfl
  size_eq := by
    rw [h.linked_eq, Multimap.length_entriesBy]
    exact h.stands.linked_eq
  isEmpty_iff := by
    rw [isEmpty, h.stands.root_eq, h.linked_eq, Multimap.entriesBy, List.map_eq_nil_iff]
    cases shape with
    | none => simp
    | some found => simp [found.members_ne_nil]
  isLinked_iff id := by
    rw [h.ids_eq]
    exact h.stands.isLinked_iff
  visits := by
    rw [h.ids_eq]
    exact ⟨_, h.stands.outermost_eq .right, h.stands.visits [] rfl⟩
  keys key id hmem := by
    rw [h.linked_eq] at hmem
    obtain ⟨other, hother, heq⟩ := List.mem_map.mp hmem
    obtain ⟨rfl, rfl⟩ := Prod.ext_iff.mp heq
    obtain ⟨node, hnode⟩ := Option.isSome_iff_exists.mp (h.stands.live hother)
    rw [key?, hnode, rank_of_get? view hnode]
    rfl

/-- The linked keys are in order. -/
theorem sorted (h : Mirrors discipline view floor tree ledger shape) : ledger.linked.Sorted := by
  rw [h.linked_eq, Multimap.Sorted, Multimap.entriesBy, List.pairwise_map]
  cases shape with
  | none => exact List.Pairwise.nil
  | some found => exact List.pairwise_map.mp (h.obeys found rfl).sorted

/-- In a unique tree no key is linked twice. -/
theorem keys_nodup (h : Mirrors discipline view floor tree ledger shape)
    (hunique : tree.unique = true) : (ledger.linked.map Prod.fst).Nodup := by
  rw [h.linked_eq, Multimap.map_fst_entriesBy]
  exact h.distinct hunique

/-- A history whose end mirrors the ledger of the same history shows what the
ledger says. -/
theorem refines [DecidableLT C] [DecidableEq C] {unique : Bool} {requests : List (Request K V L)}
    {replies : List (Reply K V)} {insertion : Insertion K V L}
    (hplay : (Tree.empty unique).play insertion requests = .ok (replies, tree))
    (hreplies : replies = ((Ledger.empty unique).play view requests).1)
    (h : Mirrors discipline view floor tree ((Ledger.empty unique).play view requests).2 shape) :
    ∃ replies tree ledger, (Ledger.empty unique).play view requests = (replies, ledger) ∧
      (Tree.empty unique).play insertion requests = .ok (replies, tree) ∧
      tree.Shows view ledger ∧ ledger.linked.Sorted ∧
        (unique = true → (ledger.linked.map Prod.fst).Nodup) := by
  subst hreplies
  refine ⟨_, tree, _, rfl, hplay, h.shows, h.sorted, fun htrue => h.keys_nodup ?_⟩
  rw [← h.unique_eq, Ledger.unique_play]
  exact htrue

end Mirrors

end Tree

end ElasticTree
