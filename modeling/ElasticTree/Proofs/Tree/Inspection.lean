import ElasticTree.Proofs.Tree.Unfolding
import ElasticTree.Tree.Inspection

/-!
# Standing trees pass inspection

What `inspectStructure` finds in a tree that stands as a shape is a count of the
roles in that shape.  Following a link counts the roles below it and goes on with
the links that wait (`inspectLinks_append`), and a node records one role for
each list of the shape that it is in (`inspectRecorded_eq`).  Both counts are the
`tally` of the shape.
-/

namespace ElasticTree

open Shape Inspection

namespace Inspection

variable {α : Type} {condition : Prop} [Decidable condition]

/-- A check that holds has no effect. -/
theorem expect_eq (corruption : Corruption) (h : condition) :
    expect condition corruption = pure () :=
  if_pos h

theorem liftM_ok (found : α) :
    (liftM (Except.ok found : Except Fault α) : Inspection α) = pure found := rfl

theorem ofSafe_ok (found : α) : ofSafe (.ok found) = pure found := rfl

/-- Checks that all hold have no effect one after the other. -/
theorem forM_eq {β : Type} {elements : List β} {check : β → Inspection Unit}
    (h : ∀ element ∈ elements, check element = pure ()) : elements.forM check = pure () := by
  rw [List.forM_eq_forM]
  induction elements with
  | nil => rfl
  | cons element elements ih =>
      rw [List.forM_cons, h element List.mem_cons_self, pure_bind]
      exact ih fun other hother => h other (List.mem_cons_of_mem _ hother)

end Inspection

namespace Tally

/-- Both counts together. -/
def add (first second : Tally) : Tally :=
  ⟨first.leaves + second.leaves, first.branches + second.branches, first.chained + second.chained⟩

theorem zero_add (tally : Tally) : zero.add tally = tally := by
  simp [add, zero]

theorem add_assoc (first second third : Tally) :
    (first.add second).add third = first.add (second.add third) := by
  simp [add, Nat.add_assoc]

end Tally

namespace Shape

/-- The roles of a shape, counted. -/
def tally (shape : Shape) : Tally :=
  ⟨shape.leaves.length, shape.owners.length, shape.chained.length⟩

/-- A branch lies above the leaf of its owner, and hence around the hole that
holds this leaf. -/
theorem Context.Covers.exists_frame {context : Context} {below : List NodeId} {id : NodeId}
    (h : context.Covers below) (hid : id ∈ context.owners) (houtside : id ∉ context.leaves) :
    ∃ frame ∈ context, frame.owner = id := by
  induction context generalizing below with
  | nil => simp [Context.owners, Context.roles] at hid
  | cons frame outer ih =>
      obtain ⟨-, hsibling, houter⟩ := h
      rw [Context.leaves_cons, List.mem_append, not_or] at houtside
      rw [Context.owners_cons, List.mem_cons, List.mem_append] at hid
      rcases hid with rfl | hid | hid
      · exact ⟨frame, List.mem_cons_self, rfl⟩
      · exact absurd (hsibling.owners_subset id hid) houtside.1
      · obtain ⟨found, hfound, howner⟩ := ih houter hid houtside.2
        exact ⟨found, List.mem_cons_of_mem _ hfound, howner⟩

end Shape

namespace Tree

namespace Stands

variable {K V : Type} {tree : Tree K V} {shape : Option Shape} {id head : NodeId} {node : Node K V}
  {context : Context} {hole : Shape} {behind : List NodeId}

/-! ## The first pass -/

/-- From a member of a ring on, as many members are found as come behind it. -/
private theorem inspectRingFrom_eq {member : NodeId} {rest : List NodeId} {room : Nat}
    (hfaces : (member :: (rest ++ [head])).IsChain (Ring.Faces tree.layout.ring))
    (hhead : tree.nodes.Live head)
    (hrest : ∀ other ∈ rest, other ≠ head ∧ tree.layout.placement other = .chained)
    (hroom : rest.length ≤ room) :
    tree.inspectRingFrom head room member (rest.headD head) = .ok rest.length := by
  -- the members that are left get fewer, and `member` is the one passed last
  induction rest generalizing member room with
  | nil =>
      obtain ⟨node, hnode⟩ := Option.isSome_iff_exists.mp hhead
      have hprev := (List.isChain_cons_cons.mp hfaces).1.2
      rw [ring_layout hnode] at hprev
      unfold inspectRingFrom
      simp [hnode, hprev]
  | cons next rest ih =>
      obtain ⟨hne, hchained⟩ := hrest next List.mem_cons_self
      have hlive : tree.nodes.Live next := live_of_placement (by simp [hchained])
      obtain ⟨node, hnode⟩ := Option.isSome_iff_exists.mp hlive
      rw [List.cons_append, List.isChain_cons_cons] at hfaces
      obtain ⟨⟨-, hprev⟩, hfaces⟩ := hfaces
      obtain ⟨room, rfl⟩ : ∃ fewer, room = fewer + 1 := ⟨room - 1, by simp at hroom; omega⟩
      have hnext : node.ring.next = rest.headD head := by
        rw [← ring_layout hnode]
        cases rest with
        | nil => exact (List.isChain_cons_cons.mp hfaces).1.1
        | cons second rest => exact (List.isChain_cons_cons.mp hfaces).1.1
      have hwalk := ih hfaces (fun other hother => hrest other (List.mem_cons_of_mem _ hother))
        (by simpa using hroom)
      rw [ring_layout hnode] at hprev
      rw [placement_layout hnode] at hchained
      unfold inspectRingFrom
      simp only [List.headD_cons, hnode, hprev, hchained, hne, hnext, hwalk, ne_eq,
        not_true_eq_false, if_false]
      rfl

/-- A leaf is found to have all members of its ring behind it. -/
private theorem inspectLeaf_eq (h : tree.Stands (some (context.plug (.leaf head behind))))
    (hnode : tree.nodes.get? head = some node)
    (hplacement : node.placement = .placed context.position) :
    tree.inspectLeaf head node context.position = .ok behind.length := by
  have hring := h.leaf_ring
  have hnext := hring.next_head
  rw [ring_layout hnode] at hnext
  have hlinked : behind.length ≤ tree.linked := by
    rw [h.linked_eq]
    simp [members_plug, Shape.members]
    omega
  rw [inspectLeaf, if_neg (not_not.mpr hplacement), hnext]
  refine inspectRingFrom_eq hring.faces (h.live (mem_of_leaf List.mem_cons_self))
    (fun other hother => ⟨?_, h.chained_placement hother⟩) hlinked
  rintro rfl
  exact (List.nodup_cons.mp hring.nodup).1 hother

/-- A branch is found to lead to what hangs on its two sides. -/
private theorem inspectBranch_eq {owner : NodeId} {split : Int} {left right : Shape}
    (h : tree.Stands (some (context.plug (.branch owner split left right))))
    (hbranch : node.branch = some ⟨context.position, left.link, right.link, split⟩) :
    inspectBranch owner node context.position =
      .ok ⟨context.position, left.link, right.link, split⟩ := by
  have hne : left.link ≠ right.link := by
    intro heq
    have hleft := h.into_left.draws.carries_plug.wires.seat_root
    have hright := h.into_right.draws.carries_plug.wires.seat_root
    rw [heq, hright] at hleft
    simp [Context.position] at hleft
  simp [inspectBranch, hbranch, hne]

/-- Following a link counts the roles below it and goes on with what waits. -/
private theorem inspectLinks_append (h : tree.Stands (some (context.plug hole))) (room : Nat)
    (waiting : List (Link × Position)) (tally : Tally) :
    tree.inspectLinks (room + (hole.leaves.length + hole.owners.length))
        ((hole.link, context.position) :: waiting) tally =
      tree.inspectLinks room waiting (tally.add hole.tally) := by
  induction hole generalizing context room waiting tally with
  | leaf head behind =>
      obtain ⟨node, hnode, hplacement⟩ := h.exists_head
      show tree.inspectLinks (room + 1) ((Link.leaf head, context.position) :: waiting) tally = _
      rw [inspectLinks]
      simp only [Link.node, hnode, h.inspectLeaf_eq hnode hplacement]
      rfl
  | branch owner split left right hleft hright =>
      obtain ⟨node, hnode, hbranch⟩ := h.exists_owner
      have hroom : room + ((Shape.branch owner split left right).leaves.length +
          (Shape.branch owner split left right).owners.length) =
          room + (left.leaves.length + left.owners.length) +
            (right.leaves.length + right.owners.length) + 1 := by
        simp only [Shape.leaves, Shape.owners, List.length_append, List.length_cons]
        omega
      -- the children wait on top of what waited before, the left one first
      rw [hroom, Shape.link, inspectLinks]
      simp only [Link.node, hnode, h.inspectBranch_eq hbranch]
      have htally : ((⟨tally.leaves, tally.branches + 1, tally.chained⟩ : Tally).add
          right.tally).add left.tally = tally.add (Shape.branch owner split left right).tally := by
        simp only [Tally.add, Shape.tally, Shape.leaves, Shape.owners, Shape.chained,
          List.length_append, List.length_cons, Tally.mk.injEq]
        omega
      calc tree.inspectLinks _ ((right.link, .under owner .right) ::
            (left.link, .under owner .left) :: waiting) _
          = tree.inspectLinks _ ((left.link, .under owner .left) :: waiting) _ :=
            hright h.into_right _ _ _
        _ = tree.inspectLinks room waiting _ := hleft h.into_left _ _ _
        _ = tree.inspectLinks room waiting
              (tally.add (Shape.branch owner split left right).tally) := by rw [htally]

/-- The first pass counts the roles of the shape. -/
private theorem inspectReached_eq (h : tree.Stands shape) :
    tree.inspectReached = .ok (shape.elim .zero Shape.tally) := by
  rw [inspectReached, h.root_eq, h.linked_eq]
  cases shape with
  | none => rfl
  | some found =>
      have hplug : tree.Stands (some (Context.plug [] found)) := h
      have hleaves := found.length_leaves
      have hmembers : found.leaves.length + found.chained.length = found.members.length := by
        rw [found.members_perm.length_eq, List.length_append]
      -- leaves are live and owners are leaves, so there is room for all of them
      obtain ⟨room, hroom⟩ : ∃ room, 2 * tree.nodes.size + 1 =
          room + (found.leaves.length + found.owners.length) := by
        have hsize := Arena.length_le_size h.sound h.draws.leaves_nodup fun id hid =>
          h.live (mem_members_iff.mpr (.inl hid))
        exact ⟨2 * tree.nodes.size + 1 - (found.leaves.length + found.owners.length), by omega⟩
      have hwalk := hplug.inspectLinks_append room [] .zero
      rw [Tally.zero_add, inspectLinks] at hwalk
      simp only [Option.map_some, hroom, Option.elim_some]
      rw [show (found.link, Position.root) = (found.link, Context.position []) from rfl, hwalk]
      simp only [bind, Except.bind, Shape.tally, hmembers]
      rw [if_neg (by omega), if_neg (by simp)]
      rfl

/-! ## The second pass -/

/-- The roles that a node plays in a shape. -/
private def rolesOf (shape : Option Shape) (ids : List NodeId) : Tally :=
  ⟨ids.countP (· ∈ shape.elim [] Shape.leaves), ids.countP (· ∈ shape.elim [] Shape.owners),
    ids.countP (· ∈ shape.elim [] Shape.chained)⟩

private theorem hasAbove_eq (h : tree.Stands (some (context.plug hole))) (id : NodeId) :
    tree.hasAbove id context.position = .ok (context.any fun frame => frame.owner = id) := by
  have habove := h.firstAbove?_eq (fun owner _ _ => .ok (if owner = id then some () else none))
    (fun frame => if frame.owner = id then some () else none) fun _ _ _ _ _ _ => rfl
  rw [hasAbove, habove]
  show Except.ok _ = _
  congr 1
  rw [Bool.eq_iff_iff, List.findSome?_isSome_iff, List.any_eq_true]
  refine exists_congr fun frame => and_congr_right fun _ => ?_
  by_cases howner : frame.owner = id <;> simp [howner]

/-- A branch in use is met above the leaf of its owner. -/
private theorem hasAbove_of_owner {behind : List NodeId}
    (h : tree.Stands (some (context.plug (.leaf id behind))))
    (howner : id ∈ (context.plug (.leaf id behind)).owners) :
    tree.hasAbove id context.position = .ok true := by
  have hcovers := (covered_plug_iff.mp (h.draws.covered _ rfl)).2
  have hnodup := (leaves_plug _ _).nodup_iff.mp h.draws.leaves_nodup
  obtain ⟨frame, hframe, hframe_owner⟩ := hcovers.exists_frame
    (by simpa [Shape.owners] using (owners_plug _ _).mem_iff.mp howner)
    fun hmem => (List.nodup_append.mp hnodup).2.2 id List.mem_cons_self id hmem rfl
  rw [h.hasAbove_eq, List.any_eq_true.mpr ⟨frame, hframe, by simpa using hframe_owner⟩]

/-- A node records the roles that it plays in the shape. -/
private theorem inspectRecorded_eq (h : tree.Stands shape) (hnode : tree.nodes.get? id = some node)
    (recorded : Tally) :
    tree.inspectRecorded recorded (id, node) = pure (recorded.add (rolesOf shape [id])) := by
  have howner := h.branch_ne_none_iff hnode
  rw [inspectRecorded]
  cases h.stance hnode with
  | detached hid hplacement hbranch hring =>
      have hroles : rolesOf shape [id] = ⟨0, 0, 0⟩ := by
        have hout : id ∉ shape.elim [] Shape.leaves ∧ id ∉ shape.elim [] Shape.chained := by
          cases shape with
          | none => simp
          | some found => exact not_or.mp fun hmem => hid (mem_members_iff.mpr hmem)
        have hout' : id ∉ shape.elim [] Shape.owners := fun hmem => howner.mpr hmem hbranch
        simp [rolesOf, hout, hout']
      rw [hroles]
      simp only [hplacement, expect_eq _ (And.intro hbranch hring), pure_bind]
      rfl
  | chained context head behind hshape hmem hplacement hbranch =>
      subst hshape
      have hroles : rolesOf (some (context.plug (.leaf head behind))) [id] = ⟨0, 0, 1⟩ := by
        have hin : id ∈ (context.plug (.leaf head behind)).chained :=
          (chained_plug _ _).mem_iff.mpr (List.mem_append_left _ hmem)
        have hout : id ∉ (context.plug (.leaf head behind)).leaves :=
          fun hleaf => h.not_mem_chained hleaf hin
        have hout' : id ∉ (context.plug (.leaf head behind)).owners :=
          fun hmem => howner.mpr hmem hbranch
        simp [rolesOf, hin, hout, hout']
      rw [hroles]
      simp only [hplacement, expect_eq _ hbranch, pure_bind]
      rfl
  | placed context behind hshape hplacement =>
      subst hshape
      have hin : id ∈ (context.plug (.leaf id behind)).leaves :=
        (leaves_plug _ _).mem_iff.mpr (by simp [Shape.leaves])
      have hout : id ∉ (context.plug (.leaf id behind)).chained := h.not_mem_chained hin
      by_cases hbranch : node.branch = none
      · have hroles : rolesOf (some (context.plug (.leaf id behind))) [id] = ⟨1, 0, 0⟩ := by
          have hout' : id ∉ (context.plug (.leaf id behind)).owners :=
            fun hmem => howner.mpr hmem hbranch
          simp [rolesOf, hin, hout, hout']
        rw [hroles]
        simp only [hplacement, hbranch, if_true]
        rfl
      · have hin' : id ∈ (context.plug (.leaf id behind)).owners := howner.mp hbranch
        have hroles : rolesOf (some (context.plug (.leaf id behind))) [id] = ⟨1, 1, 0⟩ := by
          simp [rolesOf, hin, hout, hin']
        rw [hroles]
        simp only [hplacement, if_neg hbranch, h.hasAbove_of_owner hin', liftM_ok, pure_bind,
          expect_eq _ trivial]
        rfl

private theorem foldlM_inspectRecorded (h : tree.Stands shape) {entries : List (NodeId × Node K V)}
    (hentries : ∀ entry ∈ entries, tree.nodes.get? entry.1 = some entry.2) (recorded : Tally) :
    entries.foldlM tree.inspectRecorded recorded =
      pure (recorded.add (rolesOf shape (entries.map Prod.fst))) := by
  induction entries generalizing recorded with
  | nil => simp [rolesOf, Tally.add]
  | cons entry entries ih =>
      obtain ⟨id, node⟩ := entry
      rw [List.foldlM_cons, h.inspectRecorded_eq (hentries _ List.mem_cons_self), pure_bind,
        ih (fun other hother => hentries other (List.mem_cons_of_mem _ hother)), Tally.add_assoc]
      congr 2
      simp [rolesOf, Tally.add, List.countP_cons, Nat.add_comm]

/-- A standing tree passes the inspection of its structure. -/
theorem inspectStructure_eq (h : tree.Stands shape) : tree.inspectStructure = pure () := by
  have hrecorded : rolesOf shape tree.nodes.names = shape.elim .zero Shape.tally := by
    cases shape with
    | none => simp [rolesOf, Tally.zero]
    | some found =>
        have hlive : ∀ id ∈ found.members, tree.nodes.Live id := fun id hid => h.live hid
        have hleaves : ∀ id ∈ found.leaves, tree.nodes.Live id :=
          fun id hid => hlive id (mem_members_iff.mpr (.inl hid))
        have hchained : ∀ id ∈ found.chained, tree.nodes.Live id :=
          fun id hid => hlive id (mem_members_iff.mpr (.inr hid))
        have hchained_nodup : found.chained.Nodup :=
          (List.nodup_append.mp ((members_perm found).nodup_iff.mp h.draws.members_nodup)).2.1
        simp only [rolesOf, Option.elim_some, Shape.tally, Tally.mk.injEq]
        exact ⟨Arena.countP_names h.sound h.draws.leaves_nodup hleaves,
          Arena.countP_names h.sound h.draws.owners_nodup
            fun id hid => hleaves id (h.draws.owners_subset id hid),
          Arena.countP_names h.sound hchained_nodup hchained⟩
  rw [inspectStructure, h.inspectReached_eq, ofSafe_ok, pure_bind, h.foldlM_inspectRecorded
    (fun entry hentry => (Arena.mem_entries_iff h.sound).mp hentry), pure_bind, Tally.zero_add]
  exact expect_eq _ hrecorded

/-! ## Order -/

/-- Stepping forward from some node on visits all that are left, in order. -/
private theorem inspectForward_eq {inOrder : K → K → Bool} (h : tree.Stands shape)
    (hsorted : (shape.elim [] Shape.members).Pairwise fun smaller larger => ∀ first second,
      tree.node smaller = .ok first → tree.node larger = .ok second →
        inOrder first.key second.key = true) {front back : List NodeId} {room : Nat}
    (hmembers : shape.elim [] Shape.members = front ++ back) (hroom : back.length ≤ room) :
    tree.inspectForward inOrder room front.length front.getLast? back.head? =
      pure ((shape.elim [] Shape.members).length, (shape.elim [] Shape.members).getLast?) := by
  -- `front` has been visited, and its last node is what the next one is compared with
  induction back generalizing front room with
  | nil =>
      rw [hmembers, List.append_nil, List.head?_nil]
      unfold inspectForward
      rfl
  | cons id back ih =>
      obtain ⟨room, rfl⟩ : ∃ fewer, room = fewer + 1 := ⟨room - 1, by simp at hroom; omega⟩
      have hback : back.length ≤ room := by simpa using hroom
      have hrest := ih (by simp [hmembers] : _ = (front ++ [id]) ++ back) hback
      rw [List.length_append, List.length_singleton, List.getLast?_concat] at hrest
      rw [List.head?_cons]
      unfold inspectForward
      simp only [h.stepPrev_eq hmembers, h.stepNext_eq hmembers, liftM_ok, pure_bind,
        expect_eq _ trivial, hrest]
      rcases List.eq_nil_or_concat front with rfl | ⟨init, before, rfl⟩
      · rfl
      · rw [List.concat_eq_append] at hmembers ⊢
        obtain ⟨smaller, hsmaller⟩ := Option.isSome_iff_exists.mp
          (h.live (by simp [hmembers] : before ∈ shape.elim [] Shape.members))
        obtain ⟨larger, hlarger⟩ := Option.isSome_iff_exists.mp
          (h.live (by simp [hmembers] : id ∈ shape.elim [] Shape.members))
        rw [hmembers, List.pairwise_append] at hsorted
        have horder := hsorted.2.2 before (by simp) id List.mem_cons_self smaller larger
          (node_eq hsmaller) (node_eq hlarger)
        simp only [List.getLast?_concat, node_eq hsmaller, node_eq hlarger, liftM_ok, pure_bind,
          expect_eq _ horder]

/-- A standing tree passes the inspection of its order, if its nodes are in
order. -/
theorem inspectOrder_eq {inOrder : K → K → Bool} (h : tree.Stands shape)
    (hsorted : (shape.elim [] Shape.members).Pairwise fun smaller larger => ∀ first second,
      tree.node smaller = .ok first → tree.node larger = .ok second →
        inOrder first.key second.key = true) :
    tree.inspectOrder inOrder = pure () := by
  have hwalk := h.inspectForward_eq hsorted (List.nil_append _).symm h.linked_eq.ge
  rw [List.length_nil, List.getLast?_nil, ← h.linked_eq] at hwalk
  simp only [inspectOrder, Tree.first, Tree.last, h.outermost_eq, metFirst, liftM_ok,
    pure_bind, hwalk, ne_eq, not_true_eq_false, if_false, expect_eq _ trivial]

/-- A branch passes the inspection of the branches below it, if all splits below
continue its own. -/
theorem inspectBelow_eq {deeper : Int → Int → Bool} {owner : NodeId} {split : Int}
    {left right : Shape} (h : tree.Stands (some (context.plug (.branch owner split left right))))
    (hdeeper : ∀ lower ∈ left.splits ++ right.splits, deeper split lower = true) :
    tree.inspectBelow deeper owner ⟨context.position, left.link, right.link, split⟩ = pure () := by
  have hcheck : ∀ {context : Context} {child : NodeId} {lower : Int} {left right : Shape},
      tree.Stands (some (context.plug (.branch child lower left right))) →
      deeper split lower = true →
        (do expect (deeper split (← tree.branch child).split) (.notBelow child owner) :
          Inspection Unit) = pure () := by
    intro context child lower left right hpart hlower
    simp only [hpart.branch_eq, liftM_ok, pure_bind, expect_eq _ hlower]
  apply forM_eq
  intro side _
  cases side with
  | left =>
      cases left with
      | leaf head behind => rfl
      | branch child lower inner outer =>
          exact hcheck h.into_left (hdeeper lower (by simp [Shape.splits]))
  | right =>
      cases right with
      | leaf head behind => rfl
      | branch child lower inner outer =>
          exact hcheck h.into_right (hdeeper lower (by simp [Shape.splits]))

end Stands

end Tree

end ElasticTree
