import ElasticTree.Proofs.Tree.Writing

/-!
# Trees that stand as a shape

A tree `Stands` as a shape if its arena is sound, its links draw the shape and
its count is right.  Here it is shown for each of the changes that requests are
made of that it succeeds on a standing tree and which shape the tree has
afterwards.  What is said of keys and values goes along: linking and unlinking
leave them alone (`Keeps`), and the other requests leave the links alone.
-/

namespace ElasticTree

open Shape

namespace Tree

variable {K V : Type} {tree after : Tree K V} {id head : NodeId} {shape : Option Shape}
  {context : Context} {behind : List NodeId}

/-- The arena is sound, the links draw the shape, and the count is right. -/
structure Stands (tree : Tree K V) (shape : Option Shape) : Prop where
  sound : tree.nodes.Sound
  draws : tree.layout.Draws shape
  linked_eq : tree.linked = (shape.elim [] Shape.members).length

/-- Keys, values and the kind of tree are the same. -/
structure Keeps (before after : Tree K V) : Prop where
  contents_eq : after.contents = before.contents
  unique_eq : after.unique = before.unique

namespace Keeps

variable {final : Tree K V}

theorem trans (h : Keeps tree after) (h' : Keeps after final) : Keeps tree final :=
  ⟨h'.contents_eq.trans h.contents_eq, h'.unique_eq.trans h.unique_eq⟩

theorem symm (h : Keeps tree after) : Keeps after tree := ⟨h.contents_eq.symm, h.unique_eq.symm⟩

/-- What is stored under a name besides its links. -/
theorem entry_eq (h : Keeps tree after) (id : NodeId) :
    (after.nodes.get? id).map (fun node => (node.key, node.value)) =
      (tree.nodes.get? id).map fun node => (node.key, node.value) := by
  have hentry : after.contents.get? id = tree.contents.get? id := by rw [h.contents_eq]
  simpa only [contents, Arena.get?_project] using hentry

theorem key?_eq (h : Keeps tree after) (id : NodeId) : after.key? id = tree.key? id := by
  have hentry := congrArg (Option.map Prod.fst) (h.entry_eq id)
  rw [Option.map_map, Option.map_map] at hentry
  exact hentry

theorem value?_eq (h : Keeps tree after) (id : NodeId) : after.value? id = tree.value? id := by
  have hentry := congrArg (Option.map Prod.snd) (h.entry_eq id)
  rw [Option.map_map, Option.map_map] at hentry
  exact hentry

theorem live_iff (h : Keeps tree after) : after.nodes.Live id ↔ tree.nodes.Live id := by
  have hentry := congrArg Option.isSome (h.entry_eq id)
  rw [Option.isSome_map, Option.isSome_map] at hentry
  rw [Arena.Live, Arena.Live, hentry]

end Keeps

namespace Stands

/-- What is drawn after a change of the links stands. -/
private theorem of_rewires {shape' : Option Shape} {layout : Layout} {linked : Nat}
    (h : tree.Stands shape) (hrewires : Rewires tree after layout linked)
    (hdraws : layout.Draws shape') (hlinked : linked = (shape'.elim [] Shape.members).length) :
    after.Stands shape' ∧ Keeps tree after := by
  refine ⟨⟨?_, hrewires.layout_eq ▸ hdraws, hrewires.linked_eq.trans hlinked⟩,
    hrewires.contents_eq, hrewires.unique_eq⟩
  have hsound : ∀ tree : Tree K V, tree.contents.Sound ↔ tree.nodes.Sound :=
    fun tree => Arena.sound_project_iff
  rw [← hsound, hrewires.contents_eq, hsound]
  exact h.sound

/-! ## Members -/

theorem placement_eq_detached_iff (h : tree.Stands shape) :
    tree.layout.placement id = .detached ↔ id ∉ shape.elim [] Shape.members :=
  h.draws.placement_eq_detached_iff

theorem live (h : tree.Stands shape) (hid : id ∈ shape.elim [] Shape.members) :
    tree.nodes.Live id :=
  live_of_placement fun hplacement => h.placement_eq_detached_iff.mp hplacement hid

theorem isLinked_iff (h : tree.Stands shape) :
    tree.isLinked id = true ↔ id ∈ shape.elim [] Shape.members := by
  have hlinked : tree.isLinked id = true ↔ tree.layout.placement id ≠ .detached := by
    cases hnode : tree.nodes.get? id with
    | none => simp [isLinked, layout, hnode]
    | some node => simp [isLinked, placement_layout hnode, hnode, Node.isLinked]
  rw [hlinked, ne_eq, h.placement_eq_detached_iff, not_not]

theorem root_eq (h : tree.Stands shape) : tree.root = shape.map Shape.link := by
  cases shape with
  | none =>
      have hslot : tree.layout.slot? .root = none := by
        simp [h.draws.carries.wires.slot.eq_none_iff]
      exact hslot
  | some found =>
      have hdraws : tree.layout.Draws (some (Context.plug [] found)) := h.draws
      exact hdraws.carries_plug.wires.slot_root

theorem leaf_placement (h : tree.Stands (some (context.plug (.leaf head behind)))) :
    tree.layout.placement head = .placed context.position := by
  have hseat := h.draws.carries_plug.wires.seat_root
  simpa [Shape.link, Layout.seat?] using hseat

theorem leaf_ring (h : tree.Stands (some (context.plug (.leaf head behind)))) :
    Ring.Circle tree.layout.ring head behind :=
  h.draws.leaf_ring

theorem chained_placement (h : tree.Stands (some (context.plug (.leaf head behind))))
    (hid : id ∈ behind) : tree.layout.placement id = .chained :=
  (h.draws.carries_plug.isChained_iff id).mpr (by simp [Shape.roles, hid])

theorem mem_of_leaf (hid : id ∈ head :: behind) :
    id ∈ (context.plug (.leaf head behind)).members := by
  rw [members_plug, Shape.members]
  simp only [List.mem_append]
  exact .inl (.inr hid)

/-! ## Linking -/

theorem linkFirst (h : tree.Stands none) (hid : tree.nodes.Live id) :
    ∃ after, tree.linkFirst id = .ok after ∧ after.Stands (some (.leaf id [])) ∧
      Keeps tree after := by
  obtain ⟨after, hafter, hrewires⟩ := linkFirst_rewires h.root_eq hid
  have hdetached : tree.layout.placement id = .detached :=
    h.placement_eq_detached_iff.mpr (by simp)
  exact ⟨after, hafter, h.of_rewires hrewires (h.draws.plant hdetached)
    (by simp [h.linked_eq, Shape.members])⟩

theorem chainBehind (h : tree.Stands (some (context.plug (.leaf head behind))))
    (hid : tree.nodes.Live id) (hdetached : tree.layout.placement id = .detached) :
    ∃ after, tree.chainBehind head id = .ok after ∧
      after.Stands (some (context.plug (.leaf head (behind ++ [id])))) ∧ Keeps tree after := by
  obtain ⟨after, hafter, hrewires⟩ := chainBehind_rewires (h.live (mem_of_leaf (by simp)))
    (h.live (mem_of_leaf h.leaf_ring.prev_head_mem)) hid
  refine ⟨after, hafter, h.of_rewires hrewires (h.draws.chain hdetached) ?_⟩
  rw [h.linked_eq]
  simp [members_plug, Shape.members]
  omega

theorem insertAbove {hole : Shape} {split : Int} (h : tree.Stands (some (context.plug hole)))
    (hid : tree.nodes.Live id) (hdetached : tree.layout.placement id = .detached) (side : Side)
    (hsplit : -2 ^ 31 ≤ split ∧ split < 2 ^ 31) :
    ∃ after, tree.insertAbove id context.position hole.link side split = .ok after ∧
      after.Stands
          (some (context.plug (Frame.close ⟨id, split, side.opposite, .leaf id []⟩ hole))) ∧
        Keeps tree after := by
  have hwires := h.draws.carries_plug.wires
  obtain ⟨after, hafter, hrewires⟩ := insertAbove_rewires side hid
    (Layout.hasSlot_of_slot? (by rw [hwires.slot_root]; simp))
    (by rw [hwires.seat_root]; simp) hsplit
  refine ⟨after, hafter, h.of_rewires hrewires (h.draws.splice hdetached side split) ?_⟩
  rw [h.linked_eq]
  cases side <;> simp [members_plug, Frame.members_close, Frame.before, Frame.after, Shape.members,
    Side.opposite] <;> omega

/-! ## Unlinking -/

private theorem linked_ne_zero {found : Shape} (h : tree.Stands (some found)) :
    tree.linked ≠ 0 := by
  rw [h.linked_eq]
  simp [found.members_ne_nil]

private theorem length_removes {found : Shape} (hremoves : Removes id found shape) :
    found.members.length - 1 = (shape.elim [] Shape.members).length := by
  obtain ⟨front, back, hbefore, hafter⟩ := hremoves.members
  simp [hbefore, hafter]

variable {context : Context} {heir : NodeId} {behind : List NodeId}

/-- The node stands alone in its ring. -/
private theorem isAlone_eq (context : Context)
    (h : tree.Stands (some (context.plug (.leaf id behind)))) :
    Ring.isAlone tree.nodes id = .ok (behind.isEmpty) := by
  rw [Ring.isAlone_eq (h.live (mem_of_leaf (by simp)))]
  congr 1
  rw [Bool.eq_iff_iff, beq_iff_eq, List.isEmpty_iff]
  exact h.leaf_ring.next_head_eq_iff

private theorem unlink_last (h : tree.Stands (some (.leaf id []))) :
    ∃ after, tree.unlinkNode id (.placed .root) = .ok (false, after) ∧ after.Stands none ∧
      Keeps tree after := by
  have hlive : tree.nodes.Live id := h.live (by simp [Shape.members])
  obtain ⟨node, hnode⟩ := Option.isSome_iff_exists.mp hlive
  have hbranch : node.branch = none := by
    rw [← branch_layout hnode, h.draws.branch_eq_none_iff]
    simp [Shape.owners]
  obtain ⟨cut, hcut⟩ : ∃ cut : Tree K V, cut = { tree with root := none } := ⟨_, rfl⟩
  have rcut : Rewires tree cut cut.layout tree.linked := by
    subst hcut
    exact ⟨rfl, rfl, rfl, rfl⟩
  obtain ⟨first, hfirst, rfirst⟩ := setPlacement_rewires (rcut.live_iff.mpr hlive) .detached
  rw [rcut.linked_eq] at rfirst
  obtain ⟨second, hsecond, rsecond⟩ := countDown_rewires
    (rfirst.linked_eq.symm ▸ h.linked_ne_zero)
  rw [rfirst.layout_eq, rfirst.linked_eq] at rsecond
  have hrewires : Rewires tree second (tree.layout.uproot id) (tree.linked - 1) := by
    have hlayout : tree.layout.uproot id = cut.layout.setPlacement id .detached := by
      rw [hcut]
      rfl
    rw [hlayout]
    exact rcut.trans (rfirst.trans rsecond)
  refine ⟨second, ?_, h.of_rewires hrewires h.draws.uproot (by simp [h.linked_eq, Shape.members])⟩
  rw [Tree.unlinkNode, isAlone_eq [] h]
  show (tree.node id >>= _) = _
  rw [node_eq hnode]
  show (if node.branch.isSome then throw (Fault.branchInUse id) else
    (do _ : Except Fault (Bool × Tree K V))) = _
  rw [hbranch]
  show (({ tree with root := none } : Tree K V).setPlacement _ _ >>= _) = _
  rw [← hcut, hfirst]
  show (first.countDown >>= _) = _
  rw [hsecond]
  rfl

private theorem unlink_single {frame : Frame} {outer : Context}
    (h : tree.Stands (some (outer.plug (frame.close (.leaf id []))))) :
    ∃ after, tree.unlinkNode id (.placed (.under frame.owner frame.side)) = .ok (true, after) ∧
      after.Stands (some ((outer.plug frame.sibling).reown id frame.owner)) ∧ Keeps tree after := by
  have hmem : id ∈ (Context.plug (frame :: outer) (.leaf id [])).members :=
    mem_of_leaf List.mem_cons_self
  have hlive : tree.nodes.Live id := h.live hmem
  have hwires := h.draws.carries_plug.wires
  obtain ⟨branch, hbranch, hposition, -, hsibling, -⟩ := hwires.branch_close
  obtain ⟨first, hfirst, rfirst⟩ := liftSibling_rewires hbranch
    (Layout.hasSlot_of_slot? (by rw [hposition, hwires.slot_root]; simp))
    (by rw [hsibling, hwires.seat_sibling]; simp)
  obtain ⟨second, hsecond, rsecond⟩ := withdraw_rewires
    (rfirst.live_iff.mpr hlive) (rfirst.live_iff.mpr (live_of_branch (by simp [hbranch])))
    (rfirst.layout_eq ▸ h.draws.lift_carries hbranch)
    (fun _ => rfirst.layout_eq ▸ Layout.Draws.lift_branch)
    (rfirst.linked_eq.symm ▸ h.linked_ne_zero)
  rw [rfirst.layout_eq, rfirst.linked_eq, h.linked_eq] at rsecond
  refine ⟨second, ?_, h.of_rewires (rfirst.trans rsecond) (h.draws.lift hbranch)
    (length_removes (.single frame outer))⟩
  rw [Tree.unlinkNode, isAlone_eq (frame :: outer) h]
  show (tree.liftSibling _ _ >>= _) = _
  rw [hfirst]
  show (first.withdraw _ _ >>= _) = _
  rw [hsecond]
  rfl

private theorem unlink_head (h : tree.Stands (some (context.plug (.leaf id (heir :: behind))))) :
    ∃ after, tree.unlinkNode id (.placed context.position) = .ok (true, after) ∧
      after.Stands (some ((context.plug (.leaf heir behind)).reown id heir)) ∧
      Keeps tree after := by
  have hmem : id ∈ id :: heir :: behind := by simp
  have hlive : tree.nodes.Live id := h.live (mem_of_leaf hmem)
  have hlinks := h.leaf_ring.links_mem hmem
  have hheir : (tree.layout.ring id).next = heir := h.leaf_ring.next_head
  obtain ⟨first, hfirst, rfirst⟩ := promoteNext_rewires hlive
    (h.live (mem_of_leaf hlinks.1)) (h.live (mem_of_leaf hlinks.2))
    (Layout.hasSlot_of_slot? (by rw [h.draws.carries_plug.wires.slot_root]; simp))
  rw [hheir] at hfirst rfirst
  obtain ⟨second, hsecond, rsecond⟩ := withdraw_rewires
    (rfirst.live_iff.mpr hlive) (rfirst.live_iff.mpr (h.live (mem_of_leaf (by simp))))
    (rfirst.layout_eq ▸ h.draws.promote_carries)
    (fun _ => rfirst.layout_eq ▸ h.draws.promote_branch)
    (rfirst.linked_eq.symm ▸ h.linked_ne_zero)
  rw [rfirst.layout_eq, rfirst.linked_eq, h.linked_eq] at rsecond
  refine ⟨second, ?_, h.of_rewires (rfirst.trans rsecond) h.draws.promote
    (length_removes (.head context heir behind))⟩
  show (Ring.isAlone tree.nodes id >>= _) = _
  rw [isAlone_eq context h]
  show (tree.promoteNext _ _ >>= _) = _
  rw [hfirst]
  show (first.withdraw _ _ >>= _) = _
  rw [hsecond]
  rfl

private theorem unlink_member {front back : List NodeId}
    (h : tree.Stands (some (context.plug (.leaf head (front ++ id :: back))))) :
    ∃ after, tree.unlinkNode id .chained = .ok (true, after) ∧
      after.Stands (some (context.plug (.leaf head (front ++ back)))) ∧ Keeps tree after := by
  have hmem : id ∈ head :: (front ++ id :: back) := by simp
  have hlive : tree.nodes.Live id := h.live (mem_of_leaf hmem)
  have hlinks := h.leaf_ring.links_mem hmem
  obtain ⟨first, hfirst, rfirst⟩ := withRings_rewires
    (Ring.remove · id) (Ring.remove_rewrites hlive
      (h.live (mem_of_leaf hlinks.1)) (h.live (mem_of_leaf hlinks.2)))
  obtain ⟨second, hsecond, rsecond⟩ := setPlacement_rewires (rfirst.live_iff.mpr hlive) .detached
  rw [rfirst.layout_eq, rfirst.linked_eq] at rsecond
  obtain ⟨third, hthird, rthird⟩ := countDown_rewires
    (rsecond.linked_eq.symm ▸ h.linked_ne_zero)
  rw [rsecond.layout_eq, rsecond.linked_eq, h.linked_eq] at rthird
  refine ⟨third, ?_, h.of_rewires ((rfirst.trans rsecond).trans rthird) h.draws.unchain
    (length_removes (.member context head front back))⟩
  show (tree.withRings _ >>= _) = _
  rw [hfirst]
  show (first.setPlacement _ _ >>= _) = _
  rw [hsecond]
  show (second.countDown >>= _) = _
  rw [hthird]
  rfl

/-- Unlinking takes the node out of the shape, and the answer tells whether others
remain. -/
theorem unlinkNode_of_removes {found : Shape} (h : tree.Stands (some found))
    (hremoves : Removes id found shape) :
    ∃ after, tree.unlinkNode id (tree.layout.placement id) = .ok (shape.isSome, after) ∧
      after.Stands shape ∧ Keeps tree after := by
  cases hremoves with
  | last =>
      have hleaf : tree.Stands (some (Context.plug [] (.leaf id []))) := h
      rw [hleaf.leaf_placement]
      exact h.unlink_last
  | member context head front back =>
      have hmem : id ∈ front ++ id :: back := List.mem_append_right front List.mem_cons_self
      rw [h.chained_placement hmem]
      exact h.unlink_member
  | head context heir behind =>
      rw [h.leaf_placement]
      exact h.unlink_head
  | single frame outer =>
      have hleaf : tree.Stands (some (Context.plug (frame :: outer) (.leaf id []))) := h
      rw [hleaf.leaf_placement]
      exact h.unlink_single

/-! ## Requests

Making, releasing and writing values leave the links alone: a detached node has
the links of a name that is not live. -/

theorem empty (unique : Bool) : (Tree.empty unique : Tree K V).Stands none where
  sound := Arena.sound_empty
  draws := by
    have hlayout : (Tree.empty unique : Tree K V).layout = .empty := rfl
    rw [hlayout]
    exact .empty
  linked_eq := rfl

/-- The links of a name, whether it is live or not. -/
private def ties (nodes : Arena (Node K V)) (id : NodeId) : Placement × Option Branch × RingLinks :=
  ((nodes.get? id).map fun node => (node.placement, node.branch, node.ring)).getD
    (.detached, none, .alone id)

/-- A change of the records that keeps the links of every name. -/
private theorem of_ties (nodes : Arena (Node K V)) (h : tree.Stands shape) (hsound : nodes.Sound)
    (hties : ∀ id, ties nodes id = ties tree.nodes id) :
    ({ tree with nodes := nodes } : Tree K V).Stands shape := by
  have hlayout : ∀ tree : Tree K V, tree.layout =
      ⟨tree.root, fun id => (ties tree.nodes id).1, fun id => (ties tree.nodes id).2.1,
        fun id => (ties tree.nodes id).2.2⟩ := by
    intro tree
    unfold layout ties
    congr 1 <;> funext id
    · cases tree.nodes.get? id <;> rfl
    · cases tree.nodes.get? id <;> rfl
    · unfold Ring.table
      cases tree.nodes.get? id <;> rfl
  refine ⟨hsound, ?_, h.linked_eq⟩
  have hdraws := h.draws
  rw [hlayout] at hdraws ⊢
  simp only [hties]
  exact hdraws

theorem alloc (h : tree.Stands shape) (hroom : tree.nodes.HasRoom) (key : K) (value : V) :
    (tree.alloc key value).2.Stands shape := by
  refine h.of_ties (tree.nodes.add (Node.fresh key value)).2 (h.sound.add hroom _)
    fun id => ?_
  rw [ties, ties, Arena.get?_add h.sound hroom]
  split
  · rename_i heq
    rw [heq, Arena.get?_nextId h.sound hroom]
    rfl
  · rfl

theorem release (h : tree.Stands shape) {node : Node K V} (hnode : tree.nodes.get? id = some node)
    (hdetached : node.placement = .detached) :
    ({ tree with nodes := (tree.nodes.remove id).2 } : Tree K V).Stands shape := by
  obtain ⟨hfree, -⟩ := h.draws.isFree ((placement_layout hnode).trans hdetached)
  apply h.of_ties _ h.sound.remove
  intro other
  rw [ties, ties, Arena.get?_remove]
  split
  · rename_i heq
    have hbranch := hfree.branch
    have hring := hfree.ring
    rw [branch_layout hnode] at hbranch
    rw [ring_layout hnode] at hring
    simp [heq, hnode, hdetached, hbranch, hring]
  · rfl

theorem setValue (h : tree.Stands shape) (id : NodeId) (value : V) :
    (tree.setValue id value).Stands shape := by
  apply h.of_ties _ (h.sound.modify _)
  intro other
  rw [ties, ties, Arena.get?_modify]
  split
  · rename_i heq
    rw [heq]
    cases tree.nodes.get? id <;> rfl
  · rfl

theorem clear (h : tree.Stands shape) : tree.clear.Stands none where
  sound := by
    have hproject : tree.clear.nodes.project (fun _ => ()) = tree.nodes.project fun _ => () :=
      Arena.project_map fun _ _ => rfl
    have hsound : (tree.nodes.project fun _ => ()).Sound ↔ tree.nodes.Sound :=
      Arena.sound_project_iff
    rw [← hproject, Arena.sound_project_iff] at hsound
    exact hsound.mpr h.sound
  draws := by
    have hlayout : tree.clear.layout = .empty := by
      unfold layout Tree.clear Layout.empty
      congr 1 <;> funext id
      · rw [Arena.get?_map]
        cases tree.nodes.get? id <;> rfl
      · rw [Arena.get?_map]
        cases tree.nodes.get? id <;> rfl
      · rw [Ring.table, Arena.get?_map]
        cases tree.nodes.get? id <;> rfl
    rw [hlayout]
    exact .empty
  linked_eq := rfl

end Stands

/-! ## Keys and values -/

theorem contents_alloc (tree : Tree K V) (key : K) (value : V) :
    (tree.alloc key value).2.contents = (tree.contents.add fun _ => (key, value)).2 :=
  Arena.project_add _

theorem contents_release (tree : Tree K V) (id : NodeId) :
    ({ tree with nodes := (tree.nodes.remove id).2 } : Tree K V).contents =
      (tree.contents.remove id).2 :=
  Arena.project_remove

theorem contents_setValue (tree : Tree K V) (id : NodeId) (value : V) :
    (tree.setValue id value).contents =
      tree.contents.modify id fun entry => (entry.1, value) :=
  Arena.project_modify fun _ => rfl

theorem contents_clear (tree : Tree K V) : tree.clear.contents = tree.contents :=
  Arena.project_map fun _ _ => rfl

theorem keeps_clear (tree : Tree K V) : Keeps tree tree.clear := ⟨contents_clear tree, rfl⟩

end Tree

end ElasticTree
