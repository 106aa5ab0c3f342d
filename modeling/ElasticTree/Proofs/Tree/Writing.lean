import ElasticTree.Proofs.Layout.Drawing
import ElasticTree.Proofs.Ring.Splicing
import ElasticTree.Tree.Surgery
import Mathlib.Algebra.Group.Int.Defs

/-!
# What a tree writes

A tree is seen as the keys and values it stores (`contents`), its links
(`layout`), and a count.  `Rewires` says of a change that it left the keys and
values alone and turned the layout into a given one.

Every assignment of the tree succeeds if the record it goes to is there, and
does to the layout what the assignment of the same name does.  The operations of
the tree are sequences of such assignments, and each has one lemma here.
-/

namespace ElasticTree

namespace Tree

variable {K V : Type} {tree after : Tree K V} {id head : NodeId}

/-! ## Views of a tree -/

/-- The keys and values that are stored. -/
def contents (tree : Tree K V) : Arena (K × V) :=
  tree.nodes.project fun node => (node.key, node.value)

/-- The links.  A name that is not live counts as detached and alone. -/
def layout (tree : Tree K V) : Layout where
  root := tree.root
  placement id := ((tree.nodes.get? id).map (·.placement)).getD .detached
  branch id := (tree.nodes.get? id).bind (·.branch)
  ring := Ring.table tree.nodes

theorem placement_layout {node : Node K V} (h : tree.nodes.get? id = some node) :
    tree.layout.placement id = node.placement := by
  simp [layout, h]

theorem branch_layout {node : Node K V} (h : tree.nodes.get? id = some node) :
    tree.layout.branch id = node.branch := by
  simp [layout, h]

theorem ring_layout {node : Node K V} (h : tree.nodes.get? id = some node) :
    tree.layout.ring id = node.ring :=
  Ring.table_of_get? h

theorem live_of_placement (h : tree.layout.placement id ≠ .detached) : tree.nodes.Live id := by
  unfold Arena.Live
  cases hnode : tree.nodes.get? id with
  | none => simp [layout, hnode] at h
  | some node => rfl

theorem live_of_branch (h : tree.layout.branch id ≠ none) : tree.nodes.Live id := by
  unfold Arena.Live
  cases hnode : tree.nodes.get? id with
  | none => simp [layout, hnode] at h
  | some node => rfl

theorem live_of_seat? {link : Link} (h : tree.layout.seat? link ≠ none) :
    tree.nodes.Live link.node := by
  cases link with
  | leaf id =>
      apply live_of_placement
      intro hplacement
      simp [Layout.seat?, show tree.layout.placement id = .detached from hplacement] at h
  | branch id => exact live_of_branch (Layout.seat?_branch_ne_none_iff.mp h)

/-- The layout has become another, and the count as given; keys and values are
the same. -/
structure Rewires (before after : Tree K V) (layout : Layout) (linked : Nat) : Prop where
  layout_eq : after.layout = layout
  linked_eq : after.linked = linked
  contents_eq : after.contents = before.contents
  unique_eq : after.unique = before.unique

namespace Rewires

variable {middle : Tree K V} {layout layout' : Layout} {linked linked' : Nat}

theorem trans (h : Rewires tree middle layout linked) (h' : Rewires middle after layout' linked') :
    Rewires tree after layout' linked' :=
  ⟨h'.layout_eq, h'.linked_eq, h'.contents_eq.trans h.contents_eq,
    h'.unique_eq.trans h.unique_eq⟩

theorem live_iff (h : Rewires tree after layout linked) :
    after.nodes.Live id ↔ tree.nodes.Live id := by
  have hlive : ∀ tree : Tree K V, tree.nodes.Live id ↔ tree.contents.Live id :=
    fun tree => Arena.live_project.symm
  rw [hlive, hlive, h.contents_eq]

end Rewires

/-! ## Single assignments -/

theorem updateNode_rewires {node : Node K V} (hnode : tree.nodes.get? id = some node)
    (change : Node K V → Node K V)
    (hsame : ∀ node, (change node).key = node.key ∧ (change node).value = node.value) :
    ∃ after, tree.updateNode id change = .ok after ∧ Rewires tree after
      { root := tree.root
        placement := Function.update tree.layout.placement id (change node).placement
        branch := Function.update tree.layout.branch id (change node).branch
        ring := Function.update tree.layout.ring id (change node).ring } tree.linked := by
  refine ⟨{ tree with nodes := tree.nodes.modify id change }, ?_, ?_, rfl, ?_, rfl⟩
  · rw [updateNode, Arena.update_of_get? change hnode]
    rfl
  · unfold layout
    congr 1
    · funext other
      by_cases h : other = id
      · subst h
        simp [hnode]
      · simp [Arena.get?_modify_of_ne _ h, h]
    · funext other
      by_cases h : other = id
      · subst h
        simp [hnode]
      · simp [Arena.get?_modify_of_ne _ h, h]
    · funext other
      by_cases h : other = id
      · subst h
        simp [Ring.table, hnode, RingMember.links]
      · simp [Ring.table, Arena.get?_modify_of_ne _ h, h]
  · apply Arena.project_modify_of_eq
    intro record
    rw [(hsame record).1, (hsame record).2]

theorem setPlacement_rewires (hid : tree.nodes.Live id) (placement : Placement) :
    ∃ after, tree.setPlacement id placement = .ok after ∧
      Rewires tree after (tree.layout.setPlacement id placement) tree.linked := by
  obtain ⟨node, hnode⟩ := Option.isSome_iff_exists.mp hid
  obtain ⟨after, hafter, hrewires⟩ := updateNode_rewires hnode
    (fun node => { node with placement := placement }) fun _ => ⟨rfl, rfl⟩
  refine ⟨after, hafter, hrewires.layout_eq.trans ?_, hrewires.linked_eq, hrewires.contents_eq,
    hrewires.unique_eq⟩
  simp [Layout.setPlacement, ← branch_layout hnode, ← ring_layout hnode]
  rfl

theorem setBranch_rewires (hid : tree.nodes.Live id) (branch : Option Branch) :
    ∃ after, tree.setBranch id branch = .ok after ∧
      Rewires tree after (tree.layout.setBranch id branch) tree.linked := by
  obtain ⟨node, hnode⟩ := Option.isSome_iff_exists.mp hid
  obtain ⟨after, hafter, hrewires⟩ := updateNode_rewires hnode
    (fun node => { node with branch := branch }) fun _ => ⟨rfl, rfl⟩
  refine ⟨after, hafter, hrewires.layout_eq.trans ?_, hrewires.linked_eq, hrewires.contents_eq,
    hrewires.unique_eq⟩
  simp [Layout.setBranch, ← placement_layout hnode, ← ring_layout hnode]
  rfl

theorem node_eq {node : Node K V} (h : tree.nodes.get? id = some node) :
    tree.node id = .ok node :=
  Arena.fetch_of_get? h

theorem branch_eq {branch : Branch} (h : tree.layout.branch id = some branch) :
    tree.branch id = .ok branch := by
  obtain ⟨node, hnode, hbranch⟩ := Option.bind_eq_some_iff.mp h
  rw [Tree.branch, node_eq hnode, Fault.ok_bind]
  simp only [hbranch]
  rfl

theorem updateBranch_rewires (hbranch : tree.layout.branch id ≠ none) (change : Branch → Branch) :
    ∃ after, tree.updateBranch id change = .ok after ∧ Rewires tree after
      (tree.layout.setBranch id ((tree.layout.branch id).map change)) tree.linked := by
  obtain ⟨branch, hsome⟩ := Option.ne_none_iff_exists'.mp hbranch
  obtain ⟨after, hafter, hrewires⟩ :=
    setBranch_rewires (live_of_branch hbranch) (some (change branch))
  refine ⟨after, ?_, ?_⟩
  · rw [updateBranch, branch_eq hsome]
    exact hafter
  · rw [hsome]
    exact hrewires

theorem setChild_rewires {position : Position} (hslot : tree.layout.HasSlot position)
    (link : Link) : ∃ after, tree.setChild position link = .ok after ∧
      Rewires tree after (tree.layout.setChild position link) tree.linked := by
  cases position with
  | root => exact ⟨_, rfl, rfl, rfl, rfl, rfl⟩
  | under owner side => exact updateBranch_rewires hslot _

theorem setPosition_rewires {link : Link} (hseat : tree.layout.seat? link ≠ none)
    (position : Position) :
    ∃ after, tree.setPosition link position = .ok after ∧
      Rewires tree after (tree.layout.setPosition link position) tree.linked := by
  cases link with
  | leaf id => exact setPlacement_rewires (live_of_seat? hseat) _
  | branch id => exact updateBranch_rewires (Layout.seat?_branch_ne_none_iff.mp hseat) _

/-- A change of the rings alone. -/
theorem withRings_rewires (change : Arena (Node K V) → Except Fault (Arena (Node K V)))
    {ring : Ring.Table}
    (hchange : ∃ nodes, change tree.nodes = .ok nodes ∧ Ring.Rewrites tree.nodes nodes ring) :
    ∃ after, tree.withRings change = .ok after ∧
      Rewires tree after (tree.layout.setRing ring) tree.linked := by
  obtain ⟨nodes, hnodes, hrewrites⟩ := hchange
  refine ⟨{ tree with nodes := nodes }, ?_, ?_, rfl, ?_, rfl⟩
  · rw [withRings, hnodes]
    rfl
  · have hget : ∀ {β : Type} (view : Node K V → β),
        (∀ new node, view (RingMember.withLinks new node) = view node) →
          ∀ id, (nodes.get? id).map view = (tree.nodes.get? id).map view := by
      intro β view hview id
      rw [← Arena.get?_project, hrewrites.project_eq view hview, Arena.get?_project]
    unfold layout Layout.setRing
    congr 1
    · funext id
      show ((nodes.get? id).map _).getD _ = _
      rw [hget (·.placement) fun _ _ => rfl]
    · funext id
      have hbind : ∀ node : Option (Node K V),
          node.bind (·.branch) = (node.map (·.branch)).join := by
        intro node
        cases node <;> rfl
      show (nodes.get? id).bind _ = (tree.nodes.get? id).bind _
      rw [hbind, hbind, hget (·.branch) fun _ _ => rfl]
    · exact hrewrites.table_eq
  · exact hrewrites.project_eq _ fun _ _ => rfl

/-! ## Linking -/

/-- Placement and branch are written at once when a node is linked. -/
private theorem link_rewires (hid : tree.nodes.Live id) (placement : Placement)
    (branch : Option Branch) :
    ∃ after, (tree.updateNode id fun node =>
        { node with placement := placement, branch := branch }) = .ok after ∧
      Rewires tree after ((tree.layout.setPlacement id placement).setBranch id branch)
        tree.linked := by
  obtain ⟨node, hnode⟩ := Option.isSome_iff_exists.mp hid
  obtain ⟨after, hafter, hrewires⟩ := updateNode_rewires hnode
    (fun node => { node with placement := placement, branch := branch }) fun _ => ⟨rfl, rfl⟩
  refine ⟨after, hafter, hrewires.layout_eq.trans ?_, hrewires.linked_eq, hrewires.contents_eq,
    hrewires.unique_eq⟩
  simp [Layout.setPlacement, Layout.setBranch, ← ring_layout hnode]
  rfl

theorem linkFirst_rewires (hroot : tree.root = none) (hid : tree.nodes.Live id) :
    ∃ after, tree.linkFirst id = .ok after ∧
      Rewires tree after (tree.layout.plant id) (tree.linked + 1) := by
  obtain ⟨first, hfirst, rfirst⟩ := link_rewires hid (.placed .root) none
  obtain ⟨second, hsecond, rsecond⟩ :=
    withRings_rewires (Ring.isolate · id)
      (Ring.isolate_rewrites (rfirst.live_iff.mpr hid))
  rw [rfirst.linked_eq] at rsecond
  have hlayout : second.layout = _ := rsecond.layout_eq
  refine ⟨({ second with root := some (.leaf id) } : Tree K V).countUp, ?_,
    (rfirst.trans rsecond).trans ⟨?_, ?_, rfl, rfl⟩⟩
  · rw [linkFirst, hroot]
    show (tree.updateNode id _ >>= _) = _
    rw [hfirst]
    show (first.withRings _ >>= _) = _
    rw [hsecond]
    rfl
  · show ({ second.layout with root := some (.leaf id) } : Layout) = _
    rw [hlayout, show Ring.table first.nodes = first.layout.ring from rfl, rfirst.layout_eq]
    rfl
  · rw [← rsecond.linked_eq]
    rfl

theorem chainBehind_rewires (hhead : tree.nodes.Live head)
    (htail : tree.nodes.Live (tree.layout.ring head).prev) (hid : tree.nodes.Live id) :
    ∃ after, tree.chainBehind head id = .ok after ∧
      Rewires tree after (tree.layout.chain head id) (tree.linked + 1) := by
  obtain ⟨first, hfirst, rfirst⟩ := link_rewires hid .chained none
  have hring : Ring.table first.nodes = tree.layout.ring := congrArg Layout.ring rfirst.layout_eq
  obtain ⟨second, hsecond, rsecond⟩ :=
    withRings_rewires (Ring.append · head id)
      (Ring.append_rewrites (rfirst.live_iff.mpr hhead) (rfirst.live_iff.mpr (hring ▸ htail))
        (rfirst.live_iff.mpr hid))
  rw [rfirst.linked_eq] at rsecond
  refine ⟨second.countUp, ?_, (rfirst.trans rsecond).trans ⟨?_, ?_, rfl, rfl⟩⟩
  · rw [chainBehind, hfirst]
    show (first.withRings _ >>= _) = _
    rw [hsecond]
    rfl
  · show second.layout = _
    rw [rsecond.layout_eq, hring, rfirst.layout_eq]
    rfl
  · rw [← rsecond.linked_eq]
    rfl

theorem checkSplit_eq {split : Int} (h : -2 ^ 31 ≤ split ∧ split < 2 ^ 31) :
    checkSplit split = .ok split :=
  if_pos (by omega)

theorem insertAbove_overflow {split : Int} (position : Position) (old : Link) (side : Side)
    (hsplit : ¬ (-2 ^ 31 ≤ split ∧ split < 2 ^ 31)) :
    tree.insertAbove id position old side split = .error .splitOverflow := by
  rw [insertAbove, checkSplit, if_neg (by omega)]
  rfl

theorem insertAbove_rewires {position : Position} {old : Link} {split : Int} (side : Side)
    (hid : tree.nodes.Live id) (hslot : tree.layout.HasSlot position)
    (hseat : tree.layout.seat? old ≠ none) (hsplit : -2 ^ 31 ≤ split ∧ split < 2 ^ 31) :
    ∃ after, tree.insertAbove id position old side split = .ok after ∧
      Rewires tree after (tree.layout.splice id position old side split) (tree.linked + 1) := by
  obtain ⟨first, hfirst, rfirst⟩ := link_rewires hid (.placed (.under id side))
    (some (Branch.setChild ⟨position, old, old, split⟩ side (.leaf id)))
  have hring : Ring.table first.nodes = tree.layout.ring := congrArg Layout.ring rfirst.layout_eq
  obtain ⟨second, hsecond, rsecond⟩ :=
    withRings_rewires (Ring.isolate · id)
      (Ring.isolate_rewrites (rfirst.live_iff.mpr hid))
  rw [hring, rfirst.layout_eq, rfirst.linked_eq] at rsecond
  -- the slot above may be one of any branch in use, and it is still there: a branch was
  -- put into use and none went
  obtain ⟨third, hthird, rthird⟩ := setChild_rewires
    (by
      rw [rsecond.layout_eq]
      apply hslot.mono
      intro owner howner
      rw [Layout.split?_setRing, Layout.split?_setBranch]
      split
      · simp
      · simpa using howner) (.branch id)
  rw [rsecond.layout_eq, rsecond.linked_eq] at rthird
  obtain ⟨fourth, hfourth, rfourth⟩ := setPosition_rewires
    (by
      rw [rthird.layout_eq, Layout.seat?_setChild, Layout.seat?_setRing, Layout.seat?_setBranch]
      split
      · simp
      · rw [Layout.seat?_setPlacement]
        split
        · simp
        · exact hseat) (.under id side.opposite)
  rw [rthird.layout_eq, rthird.linked_eq] at rfourth
  refine ⟨fourth.countUp, ?_, (((rfirst.trans rsecond).trans rthird).trans rfourth).trans
    ⟨rfourth.layout_eq, ?_, rfl, rfl⟩⟩
  · rw [insertAbove, checkSplit_eq hsplit]
    show (tree.updateNode id _ >>= _) = _
    rw [hfirst]
    show (first.withRings _ >>= _) = _
    rw [hsecond]
    show (second.setChild _ _ >>= _) = _
    rw [hthird]
    show (third.setPosition _ _ >>= _) = _
    rw [hfourth]
    rfl
  · rw [← rfourth.linked_eq]
    rfl

/-! ## Unlinking -/

theorem liftSibling_rewires {owner : NodeId} {branch : Branch} {side : Side}
    (hbranch : tree.layout.branch owner = some branch) (hslot : tree.layout.HasSlot branch.position)
    (hseat : tree.layout.seat? (branch.child side.opposite) ≠ none) :
    ∃ after, tree.liftSibling owner side = .ok after ∧
      Rewires tree after (tree.layout.lift owner branch side) tree.linked := by
  have howner : tree.nodes.Live owner := live_of_branch (by simp [hbranch])
  obtain ⟨first, hfirst, rfirst⟩ := setPosition_rewires hseat branch.position
  obtain ⟨second, hsecond, rsecond⟩ := setChild_rewires
    (by
      rw [rfirst.layout_eq]
      exact hslot.mono (by simp)) (branch.child side.opposite)
  rw [rfirst.layout_eq, rfirst.linked_eq] at rsecond
  obtain ⟨third, hthird, rthird⟩ :=
    setBranch_rewires (rsecond.live_iff.mpr (rfirst.live_iff.mpr howner)) none
  rw [rsecond.layout_eq, rsecond.linked_eq] at rthird
  refine ⟨third, ?_, (rfirst.trans rsecond).trans rthird⟩
  rw [liftSibling, branch_eq hbranch]
  show (tree.setPosition _ _ >>= _) = _
  rw [hfirst]
  show (first.setChild _ _ >>= _) = _
  rw [hsecond]
  exact hthird

theorem promoteNext_rewires {position : Position} (hid : tree.nodes.Live id)
    (hprev : tree.nodes.Live (tree.layout.ring id).prev)
    (hnext : tree.nodes.Live (tree.layout.ring id).next) (hslot : tree.layout.HasSlot position) :
    ∃ after, tree.promoteNext id position = .ok ((tree.layout.ring id).next, after) ∧
      Rewires tree after (tree.layout.promote id (tree.layout.ring id).next position)
        tree.linked := by
  obtain ⟨node, hnode⟩ := Option.isSome_iff_exists.mp hid
  obtain ⟨first, hfirst, rfirst⟩ := withRings_rewires
    (Ring.remove · id) (Ring.remove_rewrites hid hprev hnext)
  obtain ⟨second, hsecond, rsecond⟩ :=
    setPlacement_rewires (rfirst.live_iff.mpr hnext) (.placed position)
  rw [rfirst.layout_eq, rfirst.linked_eq] at rsecond
  obtain ⟨third, hthird, rthird⟩ := setChild_rewires
    (by
      rw [rsecond.layout_eq]
      exact hslot.mono (by simp)) (.leaf (tree.layout.ring id).next)
  rw [rsecond.layout_eq, rsecond.linked_eq] at rthird
  refine ⟨third, ?_, (rfirst.trans rsecond).trans rthird⟩
  rw [promoteNext, node_eq hnode, ring_layout hnode]
  rw [ring_layout hnode] at hsecond hthird
  show (tree.withRings _ >>= _) = _
  rw [hfirst]
  show (first.setPlacement _ _ >>= _) = _
  rw [hsecond]
  show (second.setChild _ _ >>= _) = _
  rw [hthird]
  rfl

theorem relocate_rewires {spare : NodeId} {branch : Branch} (hlive : tree.nodes.Live spare)
    (hspare : tree.layout.branch spare = none) (hslot : tree.layout.HasSlot branch.position)
    (hleft : tree.layout.seat? branch.left ≠ none)
    (hright : tree.layout.seat? branch.right ≠ none) :
    ∃ after, tree.relocate branch spare = .ok after ∧
      Rewires tree after (tree.layout.relocate branch spare) tree.linked := by
  obtain ⟨node, hnode⟩ := Option.isSome_iff_exists.mp hlive
  obtain ⟨first, hfirst, rfirst⟩ := setBranch_rewires hlive (some branch)
  have hsplit : ∀ owner, tree.layout.split? owner ≠ none →
      (tree.layout.setBranch spare (some branch)).split? owner ≠ none := by
    intro owner howner
    rw [Layout.split?_setBranch]
    split
    · simp
    · exact howner
  obtain ⟨second, hsecond, rsecond⟩ := setChild_rewires
    (by
      rw [rfirst.layout_eq]
      exact hslot.mono hsplit) (.branch spare)
  rw [rfirst.layout_eq, rfirst.linked_eq] at rsecond
  -- no seat goes, so the two children can be told their new places
  have hseat : ∀ link, tree.layout.seat? link ≠ none → second.layout.seat? link ≠ none := by
    intro link hlink
    rw [rsecond.layout_eq, Layout.seat?_setChild, Layout.seat?_setBranch]
    split
    · simp
    · exact hlink
  obtain ⟨third, hthird, rthird⟩ := setPosition_rewires (hseat _ hleft) (.under spare .left)
  obtain ⟨fourth, hfourth, rfourth⟩ := setPosition_rewires
    (by
      rw [rthird.layout_eq, Layout.seat?_setPosition (Layout.hasSeat_of_seat? (hseat _ hleft))]
      split
      · simp
      · exact hseat _ hright) (.under spare .right)
  rw [rsecond.layout_eq, rsecond.linked_eq] at rthird
  rw [rthird.layout_eq, rthird.linked_eq] at rfourth
  refine ⟨fourth, ?_, ((rfirst.trans rsecond).trans rthird).trans rfourth⟩
  rw [relocate, node_eq hnode]
  show (if node.branch.isSome then throw (Fault.branchInUse spare) else
    (do _ : Except Fault (Tree K V))) = _
  rw [← branch_layout hnode, hspare]
  show (tree.setBranch _ _ >>= _) = _
  rw [hfirst]
  show (first.setChild _ _ >>= _) = _
  rw [hsecond]
  show (second.setPosition _ _ >>= _) = _
  rw [hthird]
  exact hfourth

theorem countDown_rewires (h : tree.linked ≠ 0) :
    ∃ after, tree.countDown = .ok after ∧ Rewires tree after tree.layout (tree.linked - 1) :=
  ⟨_, if_neg h, rfl, rfl, rfl, rfl⟩

/-- Detaching a node can be done when what it owns is carried out, and the node
that is to take it over is at hand. -/
theorem withdraw_rewires {spare : NodeId} {shape : Shape} (hid : tree.nodes.Live id)
    (hlive : tree.nodes.Live spare)
    (hcarries : (tree.layout.setPlacement id .detached).Carries (shape.roles .root))
    (hspare : tree.layout.branch id ≠ none → tree.layout.branch spare = none)
    (hlinked : tree.linked ≠ 0) :
    ∃ after, tree.withdraw id spare = .ok after ∧
      Rewires tree after (tree.layout.withdraw id spare) (tree.linked - 1) := by
  obtain ⟨first, hfirst, rfirst⟩ := setPlacement_rewires hid .detached
  obtain ⟨node, hnode⟩ := Option.isSome_iff_exists.mp (rfirst.live_iff.mpr hid)
  have hbranch : node.branch = tree.layout.branch id := by
    rw [← branch_layout hnode, rfirst.layout_eq]
    rfl
  rw [withdraw, hfirst]
  show ∃ after, (first.node id >>= _) = _ ∧ _
  rw [node_eq hnode]
  cases hcase : tree.layout.branch id with
  | none =>
      rw [hcase] at hbranch
      obtain ⟨after, hafter, rafter⟩ := countDown_rewires
        (rfirst.linked_eq.symm ▸ hlinked)
      rw [rfirst.layout_eq, rfirst.linked_eq] at rafter
      refine ⟨after, ?_, ?_⟩
      · simp only [bind, Except.bind, hbranch, pure, Except.pure]
        exact hafter
      · rw [Layout.withdraw, hcase]
        exact rfirst.trans rafter
  | some branch =>
      rw [hcase] at hbranch
      -- `id` gives its branch away before it is put into use at `spare`, and what is left in
      -- between is no tree: only the slots that are written to have to be there
      have hne : spare ≠ id := by
        rintro rfl
        simp [hcase] at hspare
      obtain ⟨hslot, hleft, hright⟩ := hcarries.released hcase
      obtain ⟨second, hsecond, rsecond⟩ := setBranch_rewires (rfirst.live_iff.mpr hid) none
      rw [rfirst.layout_eq, rfirst.linked_eq] at rsecond
      rw [← rsecond.layout_eq] at hslot hleft hright
      obtain ⟨third, hthird, rthird⟩ := relocate_rewires
        (rsecond.live_iff.mpr (rfirst.live_iff.mpr hlive))
        (by
          rw [rsecond.layout_eq]
          simpa [Layout.setBranch, Layout.setPlacement, hne] using hspare (by simp [hcase]))
        hslot hleft hright
      rw [rsecond.layout_eq, rsecond.linked_eq] at rthird
      obtain ⟨after, hafter, rafter⟩ := countDown_rewires
        (rthird.linked_eq.symm ▸ hlinked)
      rw [rthird.layout_eq, rthird.linked_eq] at rafter
      refine ⟨after, ?_, ?_⟩
      · simp only [bind, Except.bind, hbranch, hsecond, hthird]
        exact hafter
      · rw [Layout.withdraw, hcase]
        exact ((rfirst.trans rsecond).trans rthird).trans rafter

end Tree

end ElasticTree
