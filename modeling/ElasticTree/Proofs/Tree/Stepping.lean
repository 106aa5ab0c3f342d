import ElasticTree.Proofs.Tree.Dealing
import ElasticTree.Tree.Stepping

/-!
# Stepping through a standing tree

A step forward and a step back find their way differently, but both follow the
order of the shape, and there they are each other's inverse.
-/

namespace ElasticTree

open Shape

namespace Tree

variable {K V : Type} {tree : Tree K V} {shape : Option Shape} {id other : NodeId}
  {entries : List (Entry K V)}

/-- If every step leads to the next of these nodes, all of them are visited. -/
theorem Strides.of_chain {step : NodeId → Except Fault (Except Refusal (Option NodeId))}
    {ids : List NodeId}
    (h : ∀ front id back, ids = front ++ id :: back → step id = .ok (.ok back.head?)) :
    Strides step ids.head? ids := by
  induction ids with
  | nil => exact .done
  | cons id rest ih =>
      exact .step (h [] id rest rfl)
        (ih fun front other back heq => h (id :: front) other back (by simp [heq]))

namespace Stands

variable (h : tree.Stands shape)
include h

/-- Only linked nodes are stepped from. -/
theorem stepFrom_eq_ok_iff {step : NodeId → Except Fault (Option NodeId)} {answer : Option NodeId} :
    tree.stepFrom step id = .ok (.ok answer) ↔
      id ∈ shape.elim [] Shape.members ∧ step id = .ok answer := by
  unfold stepFrom
  cases hnode : tree.nodes.get? id with
  | none =>
      have hid : id ∉ shape.elim [] Shape.members :=
        fun hid => by simpa [Arena.Live, hnode] using h.live hid
      simp [expectLinked_of_none hnode, hid]
  | some node =>
      by_cases hid : id ∈ shape.elim [] Shape.members
      · rw [h.expectLinked_of_mem hnode hid]
        cases hstep : step id <;> simp [hid, bind, Except.bind, pure, Except.pure]
      · simp [h.expectLinked_of_not_mem hnode hid, hid]

theorem next_eq {front back : List NodeId}
    (hmembers : shape.elim [] Shape.members = front ++ id :: back) :
    tree.next id = .ok (.ok back.head?) :=
  h.stepFrom_eq_ok_iff.mpr ⟨by simp [hmembers], h.stepNext_eq hmembers⟩

theorem prev_eq {front back : List NodeId}
    (hmembers : shape.elim [] Shape.members = front ++ id :: back) :
    tree.prev id = .ok (.ok front.getLast?) :=
  h.stepFrom_eq_ok_iff.mpr ⟨by simp [hmembers], h.stepPrev_eq hmembers⟩

/-- A step forward and a step back undo each other. -/
theorem next_eq_iff_prev_eq :
    tree.next id = .ok (.ok (some other)) ↔ tree.prev other = .ok (.ok (some id)) := by
  constructor
  · intro hnext
    obtain ⟨front, back, hmembers⟩ := List.append_of_mem (h.stepFrom_eq_ok_iff.mp hnext).1
    rw [h.next_eq hmembers, Except.ok.injEq, Except.ok.injEq] at hnext
    obtain ⟨back, rfl⟩ := List.head?_eq_some_iff.mp hnext
    rw [h.prev_eq (by simp [hmembers] : _ = (front ++ [id]) ++ other :: back), List.getLast?_concat]
  · intro hprev
    obtain ⟨front, back, hmembers⟩ := List.append_of_mem (h.stepFrom_eq_ok_iff.mp hprev).1
    rw [h.prev_eq hmembers, Except.ok.injEq, Except.ok.injEq] at hprev
    obtain ⟨front, rfl⟩ := List.getLast?_eq_some_iff.mp hprev
    rw [h.next_eq (by simp [hmembers] : _ = front ++ id :: other :: back), List.head?_cons]

/-- A standing tree is gone through step by step. -/
theorem steps : ∃ entries, tree.Steps entries := by
  obtain ⟨entries, hids, hlists⟩ := h.lists
  have hfirst : tree.first = .ok (entries.head?.map Entry.id) := by
    rw [Tree.first, h.outermost_eq, metFirst, ← hids, List.head?_map]
  have hlast : tree.last = .ok (entries.getLast?.map Entry.id) := by
    rw [Tree.last, h.outermost_eq, metFirst, ← hids, List.getLast?_map]
  refine ⟨entries, hlists, hfirst, hlast, fun id hid => ?_, fun id hid => ?_,
    fun id other => h.next_eq_iff_prev_eq, ?_, h.pullAll_deals hids hlists⟩
  · rw [Tree.first, h.outermost_eq, Except.ok.injEq] at hid
    obtain ⟨back, hmembers⟩ := List.head?_eq_some_iff.mp hid
    exact h.prev_eq (show _ = [] ++ id :: back from hmembers)
  · rw [Tree.last, h.outermost_eq, Except.ok.injEq] at hid
    obtain ⟨front, hmembers⟩ := List.getLast?_eq_some_iff.mp hid
    exact h.next_eq hmembers
  · rw [← List.head?_map, hids]
    exact .of_chain fun front id back hmembers => h.next_eq hmembers

end Stands

end Tree

end ElasticTree
