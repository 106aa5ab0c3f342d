import ElasticTree.History.Multimap
import Mathlib.Data.List.Basic

/-!
# Multimaps over a list of nodes

A tree gives the order of its nodes, and the keys are known of each node.  With
both, `entriesBy` is the multimap of the tree.  What the operations on multimaps
do is said in terms of the nodes: an entry comes in between nodes of smaller or
equal and of larger key, and an entry of a node goes.
-/

namespace ElasticTree

namespace Multimap

variable {K : Type} {rank : NodeId → K} {ids front back : List NodeId} {id : NodeId}

/-- The nodes with their keys. -/
def entriesBy (rank : NodeId → K) (ids : List NodeId) : Multimap K :=
  ids.map fun id => (rank id, id)

@[simp] theorem map_snd_entriesBy : (entriesBy rank ids).map Prod.snd = ids := by
  simp [entriesBy, Function.comp_def]

@[simp] theorem map_fst_entriesBy : (entriesBy rank ids).map Prod.fst = ids.map rank := by
  simp [entriesBy, Function.comp_def]

@[simp] theorem length_entriesBy : (entriesBy rank ids).length = ids.length := by
  simp [entriesBy]

theorem entriesBy_congr {rank' : NodeId → K} (h : ∀ id ∈ ids, rank' id = rank id) :
    entriesBy rank' ids = entriesBy rank ids :=
  List.map_congr_left fun id hid => by rw [h id hid]

theorem erase_entriesBy (hnodup : (front ++ id :: back).Nodup) :
    erase (entriesBy rank (front ++ id :: back)) id = entriesBy rank (front ++ back) := by
  rw [List.nodup_append, List.nodup_cons] at hnodup
  have hfront : ∀ other ∈ front, other ≠ id := fun other hother =>
    hnodup.2.2 other hother id List.mem_cons_self
  have hback : ∀ other ∈ back, other ≠ id := fun other hother heq =>
    hnodup.2.1.1 (heq ▸ hother)
  have hkeep : ∀ list : List NodeId, (∀ other ∈ list, other ≠ id) →
      (entriesBy rank list).filter (fun entry => entry.2 ≠ id) = entriesBy rank list := by
    intro list hlist
    apply List.filter_eq_self.mpr
    intro entry hentry
    obtain ⟨other, hother, rfl⟩ := List.mem_map.mp hentry
    simpa using hlist other hother
  have hfilter : ∀ first second : List NodeId, entriesBy rank (first ++ second) =
      entriesBy rank first ++ entriesBy rank second := fun first second => List.map_append
  rw [erase, hfilter, hfilter, List.filter_append, hkeep front hfront]
  congr 1
  show ((rank id, id) :: entriesBy rank back).filter _ = _
  rw [List.filter_cons_of_neg (by simp), hkeep back hback]

theorem find?_entriesBy [DecidableEq K] (back : List NodeId) {holder : NodeId} {key : K}
    (hfront : ∀ other ∈ front, rank other ≠ key)
    (hholder : rank holder = key) :
    find? (entriesBy rank (front ++ holder :: back)) key = some holder := by
  have hnone : List.find? (fun entry => decide (entry.1 = key)) (entriesBy rank front) = none := by
    refine List.find?_eq_none.mpr fun entry hentry => ?_
    obtain ⟨other, hother, rfl⟩ := List.mem_map.mp hentry
    simpa using hfront other hother
  have happend : entriesBy rank (front ++ holder :: back) =
      entriesBy rank front ++ (rank holder, holder) :: entriesBy rank back := List.map_append
  rw [find?, happend, List.find?_append, hnone]
  simp [hholder]

theorem find?_entriesBy_eq_none [DecidableEq K] {key : K} (h : ∀ other ∈ ids, rank other ≠ key) :
    find? (entriesBy rank ids) key = none := by
  rw [find?, List.find?_eq_none.mpr]
  · rfl
  · intro entry hentry
    obtain ⟨other, hother, rfl⟩ := List.mem_map.mp hentry
    simpa using h other hother

variable [LT K] [DecidableLT K]

theorem insert_entriesBy (hfront : ∀ other ∈ front, ¬ rank id < rank other)
    (hback : ∀ other ∈ back, rank id < rank other) :
    insert (entriesBy rank (front ++ back)) (rank id) id =
      entriesBy rank (front ++ id :: back) := by
  have hall : ∀ entry ∈ entriesBy rank front, (decide ¬ rank id < entry.1) = true := by
    intro entry hentry
    obtain ⟨other, hother, rfl⟩ := List.mem_map.mp hentry
    simpa using hfront other hother
  have hrest : (entriesBy rank back).takeWhile (fun entry => ¬ rank id < entry.1) = [] ∧
      (entriesBy rank back).dropWhile (fun entry => ¬ rank id < entry.1) = entriesBy rank back := by
    cases back with
    | nil => exact ⟨rfl, rfl⟩
    | cons first back =>
        have hlt := hback first List.mem_cons_self
        constructor <;> simp [entriesBy, hlt]
  have happend : ∀ first second : List NodeId, entriesBy rank (first ++ second) =
      entriesBy rank first ++ entriesBy rank second := fun first second => List.map_append
  rw [insert, happend, happend, List.takeWhile_append_of_pos hall,
    List.dropWhile_append_of_pos hall, hrest.1, hrest.2, List.append_nil]
  rfl

end Multimap

end ElasticTree
