import ElasticTree.Proofs.Shape.Locality
import ElasticTree.Proofs.Tree.Placement
import ElasticTree.Proofs.Tree.Recognition

/-!
# What passing inspection says of the keys

The checks of single nodes are read backwards here.  A leaf that passes has been
compared with the owner of every branch above it (`visited`), and a branch with
those directly below (`deeper_of_inspectBelow`).  This is what a shape needs in
order to obey a discipline, so where every node passes, the whole shape does
(`obeys_of_checks`).
-/

namespace ElasticTree

open Shape Inspection

namespace Inspection

variable {α : Type}

theorem forM_eq_pure {elements : List α} {check : α → Inspection Unit} {done : Unit}
    (h : elements.forM check = pure done) : ∀ element ∈ elements, check element = pure () := by
  rw [List.forM_eq_forM] at h
  induction elements with
  | nil => simp
  | cons element elements ih =>
      rw [List.forM_cons] at h
      obtain ⟨_, hfirst, hrest⟩ := bind_eq_pure.mp h
      exact List.forall_mem_cons.mpr ⟨hfirst, ih hrest⟩

theorem reportAny_eq_pure {finding : Option Corruption} {done : Unit} :
    reportAny finding = pure done ↔ finding = none := by
  cases finding with
  | none => exact ⟨fun _ => rfl, fun _ => rfl⟩
  | some corruption => exact ⟨fun h => (nomatch h), fun h => (nomatch h)⟩

end Inspection

namespace Tree

/-- The checks of a place pass if and only if there is nothing wrong with the leaf, and
with the branch if it is in use. -/
theorem inspectPlaced_eq_pure {K V : Type} {tree : Tree K V} {deeper : Int → Int → Bool}
    {misplacement? : NodeId → Side → Branch → Except Fault (Option Corruption)} {id : NodeId}
    {node : Node K V} {position : Position} :
    tree.inspectPlaced misplacement? deeper id node position = pure () ↔
      tree.firstAbove? misplacement? position = .ok none ∧
        ∀ branch ∈ node.branch, tree.inspectBelow deeper id branch = pure () := by
  rw [inspectPlaced, bind_eq_pure]
  constructor
  · rintro ⟨finding, hfinding, h⟩
    obtain ⟨_, hreport, h⟩ := bind_eq_pure.mp h
    obtain rfl := reportAny_eq_pure.mp hreport
    refine ⟨liftM_eq_pure.mp hfinding, fun branch hbranch => ?_⟩
    rw [Option.mem_def.mp hbranch] at h
    exact h
  · rintro ⟨habove, h⟩
    refine ⟨none, liftM_eq_pure.mpr habove, bind_eq_pure.mpr ⟨(), rfl, ?_⟩⟩
    cases hbranch : node.branch with
    | none => rfl
    | some branch => exact h branch hbranch

namespace Stands

variable {K V C : Type} [LT C] [Inhabited C] {discipline : Discipline C} {view : K → C}
  {tree : Tree K V} {shape : Option Shape} {context : Context} {hole : Shape} {id : NodeId}
  {node : Node K V}

omit [LT C] [Inhabited C] in
private theorem visitedWithin {β : Type}
    {visit : NodeId → Side → Branch → Except Fault (Option β)} {limit : Nat}
    (h : tree.Stands (some (context.plug hole)))
    (habove : tree.firstAboveWithin? visit limit context.position = .ok none) :
    ∀ frame ∈ context, ∃ branch, branch.split = frame.split ∧
      visit frame.owner frame.side branch = .ok none := by
  induction context generalizing hole limit with
  | nil => simp
  | cons frame outer ih =>
      cases limit with
      | zero =>
          rw [Context.position, firstAboveWithin?] at habove
          cases habove
      | succ limit =>
          have hclose : tree.Stands (some (Context.plug outer (frame.close hole))) := h
          obtain ⟨branch, hbranch, hposition, -, -, hsplit⟩ :=
            hclose.draws.carries_plug.wires.branch_close
          rw [Context.position, firstAboveWithin?, Tree.branch_eq hbranch, Fault.ok_bind] at habove
          obtain ⟨answer, hanswer, hrest⟩ := except_bind_eq_ok.mp habove
          cases answer with
          | some found => cases hrest
          | none =>
              rw [hposition] at hrest
              exact List.forall_mem_cons.mpr ⟨⟨branch, hsplit, hanswer⟩, ih hclose hrest⟩

omit [LT C] [Inhabited C] in
/-- If nothing is found on the way up, then the visit of every frame found
nothing. -/
theorem visited {β : Type} {visit : NodeId → Side → Branch → Except Fault (Option β)}
    (h : tree.Stands (some (context.plug hole)))
    (habove : tree.firstAbove? visit context.position = .ok none) :
    ∀ frame ∈ context, ∃ branch, branch.split = frame.split ∧
      visit frame.owner frame.side branch = .ok none :=
  h.visitedWithin habove

omit [LT C] [Inhabited C] in
/-- A branch directly below one that passes has been compared with it. -/
theorem deeper_of_inspectBelow {deeper : Int → Int → Bool} {frame : Frame} {branch : Branch}
    (h : tree.Stands (some (context.plug (frame.close hole))))
    (hbranch : tree.layout.branch frame.owner = some branch)
    (hcheck : tree.inspectBelow deeper frame.owner branch = pure ()) :
    ∀ lower ∈ hole.top?, deeper frame.split lower = true := by
  obtain ⟨stored, hstored, -, hchild, -, hsplit⟩ := h.draws.carries_plug.wires.branch_close
  obtain rfl : stored = branch := Option.some.inj (hstored.symm.trans hbranch)
  have hside := forM_eq_pure hcheck frame.side (by cases frame.side <;> simp)
  cases hole with
  | leaf head behind => simp [top?]
  | branch child lower left right =>
      rw [hchild, Shape.link] at hside
      obtain ⟨below, hbelow, hexpect⟩ := bind_eq_pure.mp hside
      have hplug : tree.Stands
          (some (Context.plug (frame :: context) (.branch child lower left right))) := h
      rw [hplug.branch_eq, liftM_ok] at hbelow
      obtain rfl := pure_injective hbelow
      rintro _ ⟨⟩
      rw [← hsplit]
      exact expect_eq_pure.mp hexpect

/-- Where every node passes the checks of a discipline, the shape obeys it. -/
theorem obeys_of_checks {found : Shape} (deeper : Int → Int → Bool)
    (visit : NodeId → Node K V → NodeId → Side → Branch → Except Fault (Option Corruption))
    (h : tree.Stands (some found))
    (hring : ∀ id node head, tree.nodes.get? id = some node → node.placement = .chained →
      tree.groupHead id = .ok head →
        discipline.chains ∧ ∃ first, tree.node head = .ok first ∧ view first.key = view node.key)
    (hplace : ∀ id node position, tree.nodes.get? id = some node →
      node.placement = .placed position →
        tree.inspectPlaced (visit id node) deeper id node position = pure ())
    (hvisit : ∀ id node owner side branch, visit id node owner side branch = .ok none →
      discipline.admits branch.split ∧ ∃ stored, tree.node owner = .ok stored ∧
        discipline.agrees branch.split (view node.key) (view stored.key) ∧
          discipline.onSide branch.split side (view node.key))
    (hdeeper : ∀ upper lower, deeper upper lower = true → discipline.deepens upper lower) :
    found.Obeys discipline (tree.rank view) := by
  apply LocallyObeys.obeys
  refine ⟨?_, ?_, ?_⟩
  · rintro context head behind rfl
    have hmember : ∀ id ∈ behind, discipline.chains ∧ tree.rank view id = tree.rank view head := by
      intro id hid
      obtain ⟨node, hnode⟩ :=
        Option.isSome_iff_exists.mp (h.live (mem_of_leaf (List.mem_cons_of_mem _ hid)))
      obtain ⟨hchains, first, hfirst, hkey⟩ := hring id node head hnode
        ((placement_layout hnode).symm.trans (h.chained_placement hid)) (h.groupHead_eq hid)
      refine ⟨hchains, ?_⟩
      rw [rank_of_get? view hnode, rank_of_get? view (Arena.fetch_eq_ok_iff.mp hfirst), hkey]
    refine ⟨fun id hid => (hmember id hid).2, ?_⟩
    cases behind with
    | nil => exact .inl rfl
    | cons id behind => exact .inr (hmember id List.mem_cons_self).1
  · rintro context head behind rfl frame hframe
    obtain ⟨node, hnode, hplaced⟩ := h.exists_head
    have habove := (inspectPlaced_eq_pure.mp (hplace head node _ hnode hplaced)).1
    obtain ⟨branch, hsplit, hfound⟩ := h.visited habove frame hframe
    obtain ⟨hadmits, stored, hstored, hagrees, hside⟩ := hvisit head node _ _ _ hfound
    rw [rank_of_get? view hnode, rank_of_get? view (Arena.fetch_eq_ok_iff.mp hstored), ← hsplit]
    exact ⟨hadmits, hagrees, hside⟩
  · rintro context frame hole rfl lower hlower
    obtain ⟨branch, hbranch, -⟩ := h.draws.carries_plug.wires.branch_close
    have hused : tree.layout.branch frame.owner ≠ none := by simp [hbranch]
    obtain ⟨node, hnode⟩ := Option.isSome_iff_exists.mp (live_of_branch hused)
    rw [branch_layout hnode] at hbranch
    -- the owner is a leaf of the shape, so its branch has been checked with it
    cases h.stance hnode with
    | detached _ _ hnone => simp [hnone] at hbranch
    | chained _ _ _ _ _ _ hnone => simp [hnone] at hbranch
    | placed position _ _ hplaced =>
        have hbelow := (inspectPlaced_eq_pure.mp (hplace frame.owner node _ hnode hplaced)).2
        exact hdeeper _ _ (h.deeper_of_inspectBelow ((branch_layout hnode).trans hbranch)
          (hbelow branch hbranch) lower hlower)

end Stands

end Tree

end ElasticTree
