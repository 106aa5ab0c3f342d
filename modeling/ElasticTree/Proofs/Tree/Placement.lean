import ElasticTree.Proofs.Tree.Inspection
import ElasticTree.Proofs.Tree.Insertion

/-!
# Keys in their places pass inspection

Where the shape of a standing tree obeys a discipline, every check of a single
node against the branches around it holds.  A leaf is compared with the owners
of the branches above it (`firstAbove?_eq_none`), a branch with the branches
directly below (`inspectBelow_of_obeys`), which makes up the checks of a place
(`inspectPlaced_of_obeys`), and a chained node with the head of its ring
(`groupHead_eq`).  What a check asks for in detail depends on the kind of keys; here
it is said what the discipline has to offer.
-/

namespace ElasticTree

open Shape Inspection

namespace Tree

namespace Stands

variable {K V C : Type} [LT C] [Inhabited C] {discipline : Discipline C} {view : K → C}
  {tree : Tree K V} {shape : Option Shape} {context : Context} {hole : Shape} {id head : NodeId}
  {node : Node K V} {behind : List NodeId}

/-! ## Rings -/

omit [LT C] [Inhabited C] in
private theorem groupHeadWithin_eq {front back : List NodeId} {limit : Nat}
    (h : tree.Stands (some (context.plug (.leaf head (front ++ back)))))
    (hlimit : back.length < limit) :
    tree.groupHeadWithin limit (back.headD head) = .ok head := by
  obtain ⟨limit, rfl⟩ : ∃ fewer, limit = fewer + 1 := ⟨limit - 1, by omega⟩
  induction back generalizing front limit with
  | nil =>
      obtain ⟨node, hnode, hplacement⟩ := h.exists_head
      simp only [List.headD_nil, groupHeadWithin, node_eq hnode, Fault.ok_bind, hplacement]
      rfl
  | cons id back ih =>
      have hmem : id ∈ front ++ id :: back := List.mem_append_right _ List.mem_cons_self
      obtain ⟨node, hnode⟩ :=
        Option.isSome_iff_exists.mp (h.live (mem_of_leaf (List.mem_cons_of_mem _ hmem)))
      have hplacement := h.chained_placement hmem
      have hnext := h.leaf_ring.links_member.2
      rw [placement_layout hnode] at hplacement
      rw [ring_layout hnode] at hnext
      obtain ⟨limit, rfl⟩ : ∃ fewer, limit = fewer + 1 := ⟨limit - 1, by simp at hlimit; omega⟩
      -- `id` has been passed, and the members behind it are left
      rw [List.append_cons] at h
      rw [List.headD_cons, groupHeadWithin, node_eq hnode, Fault.ok_bind, if_pos hplacement, hnext]
      exact ih h limit (by simpa using hlimit)

omit [LT C] [Inhabited C] in
theorem groupHead_head (h : tree.Stands (some (context.plug (.leaf head behind)))) :
    tree.groupHead head = .ok head := by
  rw [← List.append_nil behind] at h
  exact h.groupHeadWithin_eq (Nat.succ_pos _)

omit [LT C] [Inhabited C] in
/-- From a chained node its ring leads to the head. -/
theorem groupHead_eq (h : tree.Stands (some (context.plug (.leaf head behind))))
    (hid : id ∈ behind) : tree.groupHead id = .ok head := by
  obtain ⟨front, back, rfl⟩ := List.append_of_mem hid
  have hlength := Arena.length_le_slotCount h.sound h.leaf_ring.nodup fun other hother =>
    h.live (mem_of_leaf hother)
  apply h.groupHeadWithin_eq
  simp only [List.length_cons, List.length_append, walkLimit] at hlength ⊢
  omega

/-! ## Branches above and below -/

/-- Going up from where a node stands, a check that holds wherever the discipline
wants the key finds nothing. -/
theorem firstAbove?_eq_none {β : Type} {visit : NodeId → Side → Branch → Except Fault (Option β)}
    (h : tree.Stands (some (context.plug hole)))
    (hobeys : (context.plug hole).Obeys discipline (tree.rank view)) (hid : id ∈ hole.members)
    (hvisit : ∀ owner side branch stored, discipline.admits branch.split →
      tree.node owner = .ok stored →
      discipline.agrees branch.split (tree.rank view id) (view stored.key) →
      discipline.onSide branch.split side (tree.rank view id) →
        visit owner side branch = .ok none) :
    tree.firstAbove? visit context.position = .ok none := by
  rw [h.firstAbove?_eq visit (fun _ => none) fun frame hframe branch _ hsplit _ => ?_]
  · exact congrArg Except.ok (List.findSome?_eq_none_iff.mpr fun _ _ => rfl)
  · obtain ⟨hadmits, howner, hagrees, hside⟩ :=
      hobeys.around (h.draws.covered _ rfl) hframe hid
    obtain ⟨stored, hstored, -, hrank⟩ := exists_node view (h.live howner)
    rw [hrank, ← hsplit] at hagrees
    rw [← hsplit] at hadmits hside
    exact hvisit frame.owner frame.side branch stored hadmits hstored hagrees hside

/-- The branches directly below continue the split of a branch. -/
theorem inspectBelow_of_obeys {deeper : Int → Int → Bool} {branch : Branch}
    (h : tree.Stands shape) (hobeys : ∀ found ∈ shape, found.Obeys discipline (tree.rank view))
    (hnode : tree.nodes.get? id = some node) (hbranch : node.branch = some branch)
    (hdeeper : ∀ upper lower, discipline.deepens upper lower → deeper upper lower = true) :
    tree.inspectBelow deeper id branch = pure () := by
  obtain ⟨context, split, left, right, rfl, rfl⟩ := h.exists_plug_of_branch hnode hbranch
  have hparts := (obeys_plug_iff.mp (hobeys _ rfl)).1.1
  exact h.inspectBelow_eq fun lower hlower => hdeeper split lower (hparts.deepens lower hlower)

/-- A node that hangs where the discipline wants its key passes the checks of its
place. -/
theorem inspectPlaced_of_obeys {deeper : Int → Int → Bool}
    {misplacement? : NodeId → Side → Branch → Except Fault (Option Corruption)}
    (h : tree.Stands (some (context.plug (.leaf id behind))))
    (hobeys : (context.plug (.leaf id behind)).Obeys discipline (tree.rank view))
    (hnode : tree.nodes.get? id = some node)
    (hvisit : ∀ owner side branch stored, discipline.admits branch.split →
      tree.node owner = .ok stored →
      discipline.agrees branch.split (tree.rank view id) (view stored.key) →
      discipline.onSide branch.split side (tree.rank view id) →
        misplacement? owner side branch = .ok none)
    (hdeeper : ∀ upper lower, discipline.deepens upper lower → deeper upper lower = true) :
    tree.inspectPlaced misplacement? deeper id node context.position = pure () := by
  have hmem : id ∈ (Shape.leaf id behind).members := List.mem_cons_self
  rw [inspectPlaced, h.firstAbove?_eq_none hobeys hmem hvisit, liftM_ok, pure_bind, reportAny,
    pure_bind]
  cases hbranch : node.branch with
  | none => rfl
  | some branch =>
      exact h.inspectBelow_of_obeys (fun _ hfound => Option.some.inj hfound ▸ hobeys) hnode hbranch
        hdeeper

/-! ## Order -/

/-- A comparison that holds of all keys that are not in the wrong order holds of
all neighbours. -/
theorem inspectOrder_of_obeys {inOrder : K → K → Bool} (h : tree.Stands shape)
    (hobeys : ∀ found ∈ shape, found.Obeys discipline (tree.rank view))
    (hinOrder : ∀ smaller larger, ¬ view larger < view smaller → inOrder smaller larger = true) :
    tree.inspectOrder inOrder = pure () := by
  apply h.inspectOrder_eq
  cases shape with
  | none => exact List.Pairwise.nil
  | some found =>
      apply (List.pairwise_map.mp (hobeys found rfl).sorted).imp
      intro smaller larger hnot first second hfirst hsecond
      rw [rank_of_get? view (Arena.fetch_eq_ok_iff.mp hfirst),
        rank_of_get? view (Arena.fetch_eq_ok_iff.mp hsecond)] at hnot
      exact hinOrder first.key second.key hnot

end Stands

end Tree

end ElasticTree
