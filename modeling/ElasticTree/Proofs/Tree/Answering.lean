import ElasticTree.History.Query
import ElasticTree.Proofs.Tree.Completion
import ElasticTree.Proofs.Tree.Grouping
import ElasticTree.Proofs.Tree.Listing
import ElasticTree.Proofs.Tree.Outline
import ElasticTree.Proofs.Tree.Requests

/-!
# A standing tree always answers

What is asked of a standing tree gets an answer, whatever its keys are and in
whatever order they stand.  A step that leads to a node leads to one of the shape
(`Stays`), so a caller can go on from there, and it goes on for ever only if it
wants to: a step to another group leads to a node further on (`stepGroup_further`),
and so going from group to group comes to an end.
-/

namespace ElasticTree

open Shape Inspection

theorem Fault.bind_ok {α β : Type} {step : Except Fault α} {next : α → Except Fault β}
    (h : ∃ found, step = .ok found ∧ ∃ result, next found = .ok result) :
    ∃ result, (step >>= next) = .ok result := by
  obtain ⟨found, rfl, hnext⟩ := h
  exact hnext

namespace Tree

/-- The step has an answer, and where it leads to is a node of the shape. -/
def Stays (shape : Option Shape) (step : Except Fault (Option NodeId)) : Prop :=
  ∃ found, step = .ok found ∧ ∀ id ∈ found, id ∈ shape.elim [] Shape.members

namespace Stands

variable {K V : Type} {tree : Tree K V} {shape : Option Shape} {id : NodeId} {node : Node K V}
  {front back : List NodeId}

/-! ## Single nodes -/

theorem exists_entry (h : tree.Stands shape) (hid : id ∈ shape.elim [] Shape.members) :
    ∃ entry, tree.entry id = .ok entry := by
  obtain ⟨node, hnode⟩ := Option.isSome_iff_exists.mp (h.live hid)
  exact ⟨_, entry_eq_ok_iff.mpr ⟨node, hnode, rfl⟩⟩

theorem stepNext_stays (h : tree.Stands shape) (hid : id ∈ shape.elim [] Shape.members) :
    Stays shape (tree.stepNext id) := by
  obtain ⟨front, back, hmembers⟩ := List.append_of_mem hid
  refine ⟨_, h.stepNext_eq hmembers, fun other hother => ?_⟩
  have hback := List.mem_of_mem_head? hother
  simp [hmembers, hback]

theorem stepPrev_stays (h : tree.Stands shape) (hid : id ∈ shape.elim [] Shape.members) :
    Stays shape (tree.stepPrev id) := by
  obtain ⟨front, back, hmembers⟩ := List.append_of_mem hid
  refine ⟨_, h.stepPrev_eq hmembers, fun other hother => ?_⟩
  have hfront := List.mem_of_mem_getLast? hother
  simp [hmembers, hfront]

theorem outermost_stays (h : tree.Stands shape) (direction : Side) :
    Stays shape (tree.outermost direction) :=
  ⟨_, h.outermost_eq direction, fun _ hother => mem_of_mem_metFirst hother⟩

/-- A step to another group leads to a node that is met later. -/
theorem stepGroup_further (direction : Side) (h : tree.Stands shape)
    (harranged : arranged direction (shape.elim [] Shape.members) = front ++ id :: back) :
    ∃ answer, tree.stepGroup direction id = .ok answer ∧ ∀ other ∈ answer, other ∈ back := by
  cases shape with
  | none => cases direction <;> simp [arranged] at harranged
  | some found =>
      have hid : id ∈ found.members :=
        mem_arranged.mp (harranged ▸ List.mem_append_right front List.mem_cons_self)
      have hnodup : (arranged direction found.members).Nodup :=
        nodup_arranged.mpr h.draws.members_nodup
      obtain ⟨context, head, behind, rfl, hmem⟩ := exists_plug_of_mem_members hid
      -- what is ahead of the ring comes after all of it, and so after the node
      have hahead : ∀ other ∈ context.ahead direction, other ∈ back := by
        intro other hother
        obtain ⟨first, rest, hring⟩ := List.append_of_mem
          (mem_arranged.mpr hmem : id ∈ arranged direction (head :: behind))
        have hsplit := harranged.symm.trans (arranged_plug direction context (.leaf head behind))
        rw [Shape.members, hring, List.append_assoc, List.cons_append,
          ← List.append_assoc] at hsplit
        rw [Option.elim_some] at harranged
        rw [harranged, List.nodup_append, List.nodup_cons] at hnodup
        rw [List.append_cons_inj_of_notMem (fun hid => hnodup.2.2 id hid id List.mem_cons_self rfl)
          hnodup.2.1.1] at hsplit
        rw [hsplit.2.2]
        exact List.mem_append_right rest (mem_arranged.mpr hother)
      refine ⟨_, h.stepGroup_eq_metFirst direction hmem, fun other hother => hahead other ?_⟩
      exact Context.mem_ahead_of_filter (mem_of_mem_metFirst hother)

/-! ## Questions -/

private theorem groupHeadsWithin_ok {limit : Nat} {current : Option NodeId} (h : tree.Stands shape)
    (hmembers : shape.elim [] Shape.members = front ++ back) (hcurrent : ∀ id ∈ current, id ∈ back)
    (hlimit : back.length ≤ limit) :
    ∃ entries, tree.groupHeadsWithin limit current = .ok entries := by
  -- what may still be visited gets shorter with every step
  induction limit generalizing front back current with
  | zero =>
      cases current with
      | none => exact ⟨[], by unfold groupHeadsWithin; rfl⟩
      | some id =>
          have hid := hcurrent id rfl
          simp [List.eq_nil_of_length_eq_zero (Nat.le_zero.mp hlimit)] at hid
  | succ limit ih =>
      cases current with
      | none => exact ⟨[], by unfold groupHeadsWithin; rfl⟩
      | some id =>
          obtain ⟨passed, rest, rfl⟩ := List.append_of_mem (hcurrent id rfl)
          obtain ⟨entry, hentry⟩ :=
            h.exists_entry (by simp [hmembers] : id ∈ shape.elim [] Shape.members)
          obtain ⟨following, hfollowing, hrest⟩ := h.stepGroup_further .right
            (by rw [arranged, hmembers, List.append_assoc] : _ = (front ++ passed) ++ id :: rest)
          have hlength : rest.length ≤ limit := by
            simp at hlimit
            omega
          obtain ⟨entries, hentries⟩ :=
            ih (by simp [hmembers] : _ = (front ++ passed ++ [id]) ++ rest) hrest hlength
          refine ⟨entry :: entries, ?_⟩
          rw [groupHeadsWithin, hfollowing, Fault.ok_bind, hentry, Fault.ok_bind, hentries]
          rfl

theorem groupHeads_ok (h : tree.Stands shape) : ∃ entries, tree.groupHeads = .ok entries := by
  obtain ⟨start, hstart, hmem⟩ := h.outermost_stays .right
  have hlength := Arena.length_le_slotCount h.sound h.draws.members_nodup fun id hid => h.live hid
  rw [groupHeads, first, hstart]
  exact h.groupHeadsWithin_ok (List.nil_append _).symm hmem (Nat.le_succ_of_le hlength)

/-- A step to another group has an answer, too. -/
theorem stepGroup_ok (h : tree.Stands shape) (direction : Side)
    (hid : id ∈ shape.elim [] Shape.members) :
    ∃ answer, tree.stepGroup direction id = .ok answer := by
  obtain ⟨front, back, harranged⟩ := List.append_of_mem (mem_arranged.mpr hid)
  obtain ⟨answer, hanswer, -⟩ := h.stepGroup_further direction harranged
  exact ⟨answer, hanswer⟩

/-- A step that goes well from all linked nodes is refused from all other names. -/
theorem stepFrom_outcome {step : NodeId → Except Fault (Option NodeId)} (h : tree.Stands shape)
    (hstep : id ∈ shape.elim [] Shape.members → ∃ answer, step id = .ok answer) :
    ∃ answer, tree.stepFrom step id = .ok answer ∧
      tree.Outcome id (id ∈ shape.elim [] Shape.members) (.notLinked id)
        (fun _ _ after => after = tree) answer tree := by
  unfold stepFrom
  cases hnode : tree.nodes.get? id with
  | none =>
      rw [expectLinked_of_none hnode]
      exact ⟨_, rfl, .unknown hnode⟩
  | some node =>
      by_cases hid : id ∈ shape.elim [] Shape.members
      · obtain ⟨answer, hanswer⟩ := hstep hid
        rw [h.expectLinked_of_mem hnode hid]
        dsimp only
        rw [hanswer]
        exact ⟨_, rfl, .granted node hnode hid answer tree rfl⟩
      · rw [h.expectLinked_of_not_mem hnode hid]
        exact ⟨_, rfl, .refused node hnode hid⟩

/-- Every step from a name is answered. -/
theorem steps_outcome (h : tree.Stands shape) (id : NodeId) :
    ∀ step ∈ [tree.next, tree.prev, tree.nextGroup, tree.prevGroup],
      ∃ answer, step id = .ok answer ∧
        tree.Outcome id (id ∈ shape.elim [] Shape.members) (.notLinked id)
        (fun _ _ after => after = tree) answer tree := by
  simp only [List.forall_mem_cons, List.not_mem_nil, false_imp_iff, implies_true, and_true]
  exact ⟨h.stepFrom_outcome fun hid => (h.stepNext_stays hid).imp fun _ hanswer => hanswer.1,
    h.stepFrom_outcome fun hid => (h.stepPrev_stays hid).imp fun _ hanswer => hanswer.1,
    h.stepFrom_outcome fun hid => h.stepGroup_ok .right hid,
    h.stepFrom_outcome fun hid => h.stepGroup_ok .left hid⟩

/-- Every question has an answer, if every search has one. -/
theorem ask_ok {Q : Type} {search : Q → Except Fault (Option NodeId)} (h : tree.Stands shape)
    (hsearch : ∀ key, ∃ answer, search key = .ok answer) (query : Query Q) :
    ∃ answer, tree.ask search query = .ok answer := by
  have hstep : ∀ step ∈ [tree.next, tree.prev, tree.nextGroup, tree.prevGroup], ∀ id,
      ∃ answer, step id = .ok answer := by
    intro step hmem id
    obtain ⟨answer, hanswer, -⟩ := h.steps_outcome id step hmem
    exact ⟨answer, hanswer⟩
  obtain ⟨entries, -, hlists⟩ := h.lists
  cases query with
  | find key => exact Fault.bind_ok ((hsearch key).imp fun _ hanswer => ⟨hanswer, _, rfl⟩)
  | first => exact Fault.bind_ok ⟨_, h.outermost_eq .right, _, rfl⟩
  | last => exact Fault.bind_ok ⟨_, h.outermost_eq .left, _, rfl⟩
  | next id =>
      exact Fault.bind_ok ((hstep tree.next (by simp) id).imp fun _ hanswer => ⟨hanswer, _, rfl⟩)
  | prev id =>
      exact Fault.bind_ok ((hstep tree.prev (by simp) id).imp fun _ hanswer => ⟨hanswer, _, rfl⟩)
  | nextGroup id =>
      exact Fault.bind_ok ((hstep tree.nextGroup (by simp) id).imp fun _ hanswer =>
        ⟨hanswer, _, rfl⟩)
  | prevGroup id =>
      exact Fault.bind_ok ((hstep tree.prevGroup (by simp) id).imp fun _ hanswer =>
        ⟨hanswer, _, rfl⟩)
  | entries => exact Fault.bind_ok ⟨_, hlists.forward, _, rfl⟩
  | entriesReverse => exact Fault.bind_ok ⟨_, hlists.backward, _, rfl⟩
  | groupHeads => exact Fault.bind_ok (h.groupHeads_ok.imp fun _ hanswer => ⟨hanswer, _, rfl⟩)
  | size => exact ⟨_, rfl⟩
  | figures => exact Fault.bind_ok ⟨_, h.statistics_eq, _, rfl⟩

/-! ## Branches -/

/-- The split of a branch in use is one of the shape. -/
theorem split_mem {branch : Branch} (h : tree.Stands shape)
    (hbranch : tree.branch id = .ok branch) : branch.split ∈ shape.elim [] Shape.splits := by
  obtain ⟨node, hnode, hused⟩ := except_bind_eq_ok.mp hbranch
  have hget := Arena.fetch_eq_ok_iff.mp hnode
  cases hstored : node.branch with
  | none =>
      rw [hstored] at hused
      cases hused
  | some stored =>
      rw [hstored] at hused
      obtain rfl : stored = branch := Except.ok.inj hused
      obtain ⟨context, split, left, right, rfl, rfl⟩ := h.exists_plug_of_branch hget hstored
      exact mem_splits_plug context List.mem_cons_self

/-! ## Inspections -/

private theorem inspectForward_completes {inOrder : K → K → Bool} {room visited : Nat}
    {previous current : Option NodeId} (h : tree.Stands shape)
    (hprevious : ∀ id ∈ previous, id ∈ shape.elim [] Shape.members)
    (hcurrent : ∀ id ∈ current, id ∈ shape.elim [] Shape.members) :
    (tree.inspectForward inOrder room visited previous current).Completes := by
  induction room generalizing visited previous current with
  | zero =>
      cases current with
      | none => exact pure_completes _
      | some id => exact ⟨_, rfl⟩
  | succ room ih =>
      cases current with
      | none => exact pure_completes _
      | some id =>
          have hid := hcurrent id rfl
          obtain ⟨node, hnode⟩ := Option.isSome_iff_exists.mp (h.live hid)
          obtain ⟨following, hfollowing, hmem⟩ := h.stepNext_stays hid
          obtain ⟨preceding, hpreceding, -⟩ := h.stepPrev_stays hid
          have hrest : (do
              expect ((← tree.stepPrev id) = previous) (.backwardAstray id previous)
              tree.inspectForward inOrder room (visited + 1) (some id) (← tree.stepNext id) :
                Inspection (Nat × Option NodeId)).Completes := by
            simp only [hpreceding, hfollowing, liftM_ok, pure_bind]
            exact bind_completes_iff.mpr ⟨expect_completes, fun _ _ => ih hcurrent hmem⟩
          unfold inspectForward
          cases previous with
          | none => exact hrest
          | some before =>
              obtain ⟨other, hother⟩ := Option.isSome_iff_exists.mp (h.live (hprevious before rfl))
              simp only [node_eq hother, node_eq hnode, liftM_ok, pure_bind]
              exact bind_completes_iff.mpr ⟨expect_completes, fun _ _ => hrest⟩

/-- The inspection of the order has a verdict, whatever the order is to be. -/
theorem inspectOrder_completes (h : tree.Stands shape) (inOrder : K → K → Bool) :
    (tree.inspectOrder inOrder).Completes := by
  obtain ⟨start, hstart, hmem⟩ := h.outermost_stays .right
  obtain ⟨last, hlast, -⟩ := h.outermost_stays .left
  simp only [inspectOrder, Tree.first, Tree.last, hstart, hlast, liftM_ok, pure_bind]
  refine bind_completes_iff.mpr ⟨h.inspectForward_completes (by simp) hmem, fun found _ => ?_⟩
  split
  · exact bind_completes_iff.mpr ⟨⟨_, rfl⟩, fun _ _ => expect_completes⟩
  · exact expect_completes

/-- The inspection of the branches below one that is in use has a verdict. -/
theorem inspectBelow_completes {branch : Branch} (h : tree.Stands shape)
    (hnode : tree.nodes.get? id = some node) (hbranch : node.branch = some branch)
    (deeper : Int → Int → Bool) : (tree.inspectBelow deeper id branch).Completes := by
  obtain ⟨context, split, left, right, rfl, rfl⟩ := h.exists_plug_of_branch hnode hbranch
  apply forM_completes
  intro side _
  obtain ⟨inner, child, hlink, hpart⟩ : ∃ (inner : Context) (child : Shape),
      Branch.child ⟨context.position, left.link, right.link, split⟩ side = child.link ∧
        tree.Stands (some (inner.plug child)) := by
    cases side with
    | left => exact ⟨_, left, rfl, h.into_left⟩
    | right => exact ⟨_, right, rfl, h.into_right⟩
  rw [hlink]
  cases child with
  | leaf head behind => exact pure_completes ()
  | branch below split inner outer =>
      simp only [Shape.link, hpart.branch_eq, liftM_ok, pure_bind]
      exact expect_completes

/-- A climb is looked through to its end, if every branch on it can be looked
at. -/
theorem firstAbove?_ok {β : Type} (visit : NodeId → Side → Branch → Except Fault (Option β))
    {context : Context} {hole : Shape} (h : tree.Stands (some (context.plug hole)))
    (hvisit : ∀ owner side branch, tree.nodes.Live owner →
      ∃ answer, visit owner side branch = .ok answer) :
    ∃ answer, tree.firstAbove? visit context.position = .ok answer := by
  refine ⟨_, h.firstAbove?_eq visit
    (fun frame => (tree.layout.branch frame.owner).bind fun branch =>
      (visit frame.owner frame.side branch).toOption.join)
    fun frame _ branch hbranch _ _ => ?_⟩
  obtain ⟨answer, hanswer⟩ :=
    hvisit frame.owner frame.side branch (live_of_branch (by simp [hbranch]))
  rw [hbranch, Option.bind_some, hanswer]
  rfl

/-- The checks of a place have a verdict, if every branch above can be looked at. -/
theorem inspectPlaced_completes
    {misplacement? : NodeId → Side → Branch → Except Fault (Option Corruption)}
    {context : Context} {hole : Shape} (h : tree.Stands (some (context.plug hole)))
    (hnode : tree.nodes.get? id = some node)
    (hvisit : ∀ owner side branch, tree.nodes.Live owner →
      ∃ finding, misplacement? owner side branch = .ok finding) (deeper : Int → Int → Bool) :
    (tree.inspectPlaced misplacement? deeper id node context.position).Completes := by
  obtain ⟨finding, hfinding⟩ := h.firstAbove?_ok misplacement? hvisit
  rw [inspectPlaced, hfinding, liftM_ok, pure_bind]
  refine bind_completes_iff.mpr ⟨reportAny_completes finding, fun _ _ => ?_⟩
  cases hbranch : node.branch with
  | none => exact pure_completes ()
  | some branch => exact h.inspectBelow_completes hnode hbranch deeper

end Stands

end Tree

end ElasticTree
