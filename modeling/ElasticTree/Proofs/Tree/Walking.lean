import ElasticTree.Proofs.Arena.Entries
import ElasticTree.Proofs.Tree.Standing
import ElasticTree.Tree.Walk

/-!
# Walking through a standing tree

Where a tree stands as a shape, its walks never fail and find what the shape
says.  Going down from a link leads to the outermost leaf of what hangs there;
going up from a slot passes the frames around it, the innermost first.  Stepping
from a node therefore leads to its neighbour in the order of the shape
(`stepNext`, `stepPrev`), and the steps from the first node visit the nodes in
that order (`visits`).

The walks are bounded by the number of slots, which is more than a shape is
high: its branches have different owners, and every owner is live.
-/

namespace ElasticTree

open Shape

/-! ## The node that is met first -/

/-- The first of the nodes that is met moving towards `direction`. -/
def metFirst (direction : Side) (ids : List NodeId) : Option NodeId :=
  match direction with
  | .right => ids.head?
  | .left => ids.getLast?

/-- Nodes in the order in which they are met moving towards `direction`. -/
def arranged (direction : Side) (ids : List NodeId) : List NodeId :=
  match direction with
  | .right => ids
  | .left => ids.reverse

@[simp] theorem mem_arranged {direction : Side} {id : NodeId} {ids : List NodeId} :
    id ∈ arranged direction ids ↔ id ∈ ids := by
  cases direction <;> simp [arranged]

theorem head?_arranged (direction : Side) (ids : List NodeId) :
    (arranged direction ids).head? = metFirst direction ids := by
  cases direction <;> simp [arranged, metFirst]

theorem nodup_arranged {direction : Side} {ids : List NodeId} :
    (arranged direction ids).Nodup ↔ ids.Nodup := by
  cases direction <;> simp [arranged]

theorem mem_of_mem_metFirst {direction : Side} {ids : List NodeId} {id : NodeId}
    (h : id ∈ metFirst direction ids) : id ∈ ids := by
  cases direction with
  | right => exact List.mem_of_mem_head? h
  | left => exact List.mem_of_mem_getLast? h

/-- Where all nodes are wanted, the first one met is found. -/
theorem find?_arranged_of_forall {direction : Side} {ids : List NodeId} {wanted : NodeId → Bool}
    (h : ∀ id ∈ ids, wanted id = true) :
    (arranged direction ids).find? wanted = metFirst direction ids := by
  have hall : ∀ id ∈ arranged direction ids, wanted id = true :=
    fun id hid => h id (mem_arranged.mp hid)
  rw [← head?_arranged]
  cases harranged : arranged direction ids with
  | nil => rfl
  | cons id rest =>
      rw [List.find?_cons, hall id (harranged ▸ List.mem_cons_self), List.head?_cons]

/-- Where no node is wanted, none is found. -/
theorem find?_arranged_eq_none {direction : Side} {ids : List NodeId} {wanted : NodeId → Bool}
    (h : ∀ id ∈ ids, wanted id = false) : (arranged direction ids).find? wanted = none :=
  List.find?_eq_none.mpr fun id hid => by simp [h id (mem_arranged.mp hid)]

namespace Shape

/-- The leaf at the outermost end of a shape on one side. -/
def endLeaf : Side → Shape → NodeId
  | _, leaf head _ => head
  | .left, branch _ _ left _ => left.endLeaf .left
  | .right, branch _ _ _ right => right.endLeaf .right

/-- The leftmost leaf is the first of all nodes. -/
theorem exists_members_eq (shape : Shape) :
    ∃ rest, shape.members = shape.endLeaf .left :: rest := by
  induction shape with
  | leaf head behind => exact ⟨behind, rfl⟩
  | branch owner split left right hleft _ =>
      obtain ⟨rest, hrest⟩ := hleft
      exact ⟨rest ++ right.members, by simp [members, endLeaf, hrest]⟩

namespace Frame

/-- The other side of a frame seen from what hangs there. -/
theorem close_flip (frame : Frame) (hole : Shape) :
    Frame.close ⟨frame.owner, frame.split, frame.side.opposite, hole⟩ frame.sibling =
      frame.close hole := by
  obtain ⟨owner, split, side, sibling⟩ := frame
  cases side <;> rfl

theorem height_lt_close (frame : Frame) (hole : Shape) :
    hole.height < (frame.close hole).height := by
  obtain ⟨owner, split, side, sibling⟩ := frame
  cases side <;> simp only [close, height] <;> omega

end Frame

namespace Context

/-- The nodes outside the hole on the side of `direction`. -/
def ahead (direction : Side) (context : Context) : List NodeId :=
  match direction with
  | .right => context.after
  | .left => context.before

end Context

/-- What lies outside the hole is met before it or after it. -/
theorem arranged_plug (direction : Side) (context : Context) (hole : Shape) :
    arranged direction (context.plug hole).members =
      arranged direction (context.ahead direction.opposite) ++
        (arranged direction hole.members ++ arranged direction (context.ahead direction)) := by
  cases direction <;> simp [arranged, Context.ahead, Side.opposite, members_plug]

/-- What hangs beside the innermost frame is met before all that is further out. -/
theorem arranged_ahead_cons (direction : Side) (frame : Frame) (outer : Context) :
    arranged direction (Context.ahead direction (frame :: outer)) =
      (if frame.side = direction.opposite then arranged direction frame.sibling.members else []) ++
        arranged direction (Context.ahead direction outer) := by
  obtain ⟨owner, split, side, sibling⟩ := frame
  cases direction <;> cases side <;>
    simp [arranged, Context.ahead, Context.after, Context.before, Frame.after, Frame.before,
      Side.opposite]

/-- What lies ahead of some of the frames lies ahead of all of them. -/
theorem Context.mem_ahead_of_filter {direction : Side} {kept : Frame → Bool} {context : Context}
    {id : NodeId} (h : id ∈ Context.ahead direction (context.filter kept)) :
    id ∈ context.ahead direction := by
  refine mem_arranged.mp (?_ : id ∈ arranged direction (context.ahead direction))
  replace h : id ∈ arranged direction (Context.ahead direction (context.filter kept)) :=
    mem_arranged.mpr h
  induction context with
  | nil => exact h
  | cons frame outer ih =>
      rw [arranged_ahead_cons, List.mem_append]
      rw [List.filter_cons] at h
      split_ifs at h with hkept
      · rw [arranged_ahead_cons, List.mem_append] at h
        exact h.imp_right ih
      · exact .inr (ih h)

theorem length_add_height_le (context : Context) (hole : Shape) :
    context.length + hole.height ≤ (context.plug hole).height := by
  induction context generalizing hole with
  | nil => simp [Context.plug]
  | cons frame outer ih =>
      have hclose := frame.height_lt_close hole
      have hplug := ih (frame.close hole)
      simp only [Context.plug, List.length_cons]
      omega

end Shape

namespace Tree

namespace Stands

variable {K V : Type} {tree : Tree K V} {shape : Option Shape} {context : Context} {hole : Shape}
  {id head : NodeId} {behind : List NodeId}

/-- A standing tree is not as high as its arena has slots. -/
theorem height_lt {found : Shape} (h : tree.Stands (some found)) :
    found.height < tree.walkLimit := by
  refine Nat.lt_succ_of_le (Nat.le_trans found.height_le ?_)
  apply Arena.length_le_slotCount h.sound h.draws.owners_nodup
  intro owner howner
  exact h.live (mem_members_iff.mpr (.inl (h.draws.owners_subset owner howner)))

/-- Also in a hole every branch lies above the leaf of its owner. -/
theorem covered (h : tree.Stands (some (context.plug hole))) : hole.Covered :=
  (covered_plug_iff.mp (h.draws.covered _ rfl)).1

/-! ## Down -/

/-- The left part of a branch seen as a hole. -/
theorem into_left {owner : NodeId} {split : Int} {left right : Shape}
    (h : tree.Stands (some (context.plug (.branch owner split left right)))) :
    tree.Stands (some (Context.plug (⟨owner, split, .left, right⟩ :: context) left)) := h

/-- The right part of a branch seen as a hole. -/
theorem into_right {owner : NodeId} {split : Int} {left right : Shape}
    (h : tree.Stands (some (context.plug (.branch owner split left right)))) :
    tree.Stands (some (Context.plug (⟨owner, split, .right, left⟩ :: context) right)) := h

theorem branch_eq {owner : NodeId} {split : Int} {left right : Shape}
    (h : tree.Stands (some (context.plug (.branch owner split left right)))) :
    tree.branch owner = .ok ⟨context.position, left.link, right.link, split⟩ :=
  Tree.branch_eq h.draws.carries_plug.wires.branch_root

/-- The branch right above a hole. -/
theorem exists_upper {frame : Frame}
    (h : tree.Stands (some (Context.plug (frame :: context) hole))) :
    ∃ upper, tree.branch frame.owner = .ok upper ∧ upper.split = frame.split := by
  obtain ⟨owner, split, side, sibling⟩ := frame
  cases side with
  | left =>
      have hplug : tree.Stands (some (context.plug (.branch owner split hole sibling))) := h
      exact ⟨_, hplug.branch_eq, rfl⟩
  | right =>
      have hplug : tree.Stands (some (context.plug (.branch owner split sibling hole))) := h
      exact ⟨_, hplug.branch_eq, rfl⟩

/-- The node whose branch is passed. -/
theorem exists_owner {owner : NodeId} {split : Int} {left right : Shape}
    (h : tree.Stands (some (context.plug (.branch owner split left right)))) :
    ∃ node, tree.nodes.get? owner = some node ∧
      node.branch = some ⟨context.position, left.link, right.link, split⟩ := by
  have hbranch := h.draws.carries_plug.wires.branch_root
  have hlive : tree.nodes.Live owner := live_of_branch (by simp [hbranch])
  obtain ⟨node, hnode⟩ := Option.isSome_iff_exists.mp hlive
  exact ⟨node, hnode, (branch_layout hnode).symm.trans hbranch⟩

/-- The node that holds a leaf position. -/
theorem exists_head (h : tree.Stands (some (context.plug (.leaf head behind)))) :
    ∃ node, tree.nodes.get? head = some node ∧ node.placement = .placed context.position := by
  obtain ⟨node, hnode⟩ := Option.isSome_iff_exists.mp (h.live (mem_of_leaf List.mem_cons_self))
  exact ⟨node, hnode, (placement_layout hnode).symm.trans h.leaf_placement⟩

private theorem descendWithin_eq (side : Side) {limit : Nat}
    (h : tree.Stands (some (context.plug hole))) (hlimit : hole.height ≤ limit) :
    tree.descendWithin side limit hole.link = .ok (hole.endLeaf side) := by
  induction hole generalizing context limit with
  | leaf head behind => rw [Shape.link, descendWithin, endLeaf]
  | branch owner split left right hleft hright =>
      rw [Shape.height] at hlimit
      obtain ⟨limit, rfl⟩ : ∃ rest, limit = rest + 1 := ⟨limit - 1, by omega⟩
      rw [Shape.link, descendWithin, h.branch_eq]
      cases side with
      | left => exact hleft (h.into_left) (by omega)
      | right => exact hright (h.into_right) (by omega)

theorem descend_eq (side : Side) (h : tree.Stands (some (context.plug hole))) :
    tree.descend side hole.link = .ok (hole.endLeaf side) := by
  have hheight := h.height_lt
  have hplug := length_add_height_le context hole
  exact h.descendWithin_eq side (by omega)

/-- The head of a ring is met first moving right, and the tail moving left. -/
theorem arrive_eq (direction : Side)
    (h : tree.Stands (some (context.plug (.leaf head behind)))) :
    ∃ id, tree.arrive direction head = .ok id ∧ metFirst direction (head :: behind) = some id := by
  cases direction with
  | right => exact ⟨head, rfl, rfl⟩
  | left =>
      obtain ⟨node, hnode⟩ := Option.isSome_iff_exists.mp (h.live (mem_of_leaf List.mem_cons_self))
      refine ⟨node.ring.prev, ?_, ?_⟩
      · rw [arrive, ringTail, node_eq hnode]
        rfl
      · rw [metFirst, ← ring_layout hnode, h.leaf_ring.prev_head, List.getLast?_cons]
        simp [List.getLastD_eq_getLast?]

private theorem arrive_endLeaf (direction : Side) (h : tree.Stands (some (context.plug hole))) :
    ∃ id, tree.arrive direction (hole.endLeaf direction.opposite) = .ok id ∧
      metFirst direction hole.members = some id := by
  induction hole generalizing context with
  | leaf head behind => exact h.arrive_eq direction
  | branch owner split left right hleft hright =>
      cases direction with
      | right =>
          obtain ⟨id, hid, hmet⟩ := hleft h.into_left
          refine ⟨id, hid, ?_⟩
          rw [metFirst] at hmet ⊢
          simp [Shape.members, List.head?_append, hmet]
      | left =>
          obtain ⟨id, hid, hmet⟩ := hright h.into_right
          refine ⟨id, hid, ?_⟩
          rw [metFirst] at hmet ⊢
          simp [Shape.members, List.getLast?_append, hmet]

/-- Entering a subtree leads to the first of its nodes. -/
theorem enter_eq (direction : Side) (h : tree.Stands (some (context.plug hole))) :
    ∃ id, tree.enter direction hole.link = .ok id ∧ metFirst direction hole.members = some id := by
  obtain ⟨id, hid, hmet⟩ := h.arrive_endLeaf direction
  refine ⟨id, ?_, hmet⟩
  rw [enter, h.descend_eq]
  exact hid

/-! ## Up -/

section Up

variable {β : Type} {visit : NodeId → Side → Branch → Except Fault (Option β)}
  {answer : Frame → Option β}

private theorem firstAboveWithin?_eq {limit : Nat} (h : tree.Stands (some (context.plug hole)))
    (hvisit : ∀ frame ∈ context, ∀ branch, tree.layout.branch frame.owner = some branch →
      branch.split = frame.split → branch.child frame.side.opposite = frame.sibling.link →
        visit frame.owner frame.side branch = .ok (answer frame))
    (hlimit : context.length ≤ limit) :
    tree.firstAboveWithin? visit limit context.position = .ok (context.findSome? answer) := by
  induction context generalizing hole limit with
  | nil => rw [Context.position, firstAboveWithin?, List.findSome?_nil]
  | cons frame outer ih =>
      obtain ⟨limit, rfl⟩ : ∃ rest, limit = rest + 1 := ⟨limit - 1, by simp at hlimit; omega⟩
      have hclose : tree.Stands (some (Context.plug outer (frame.close hole))) := h
      obtain ⟨branch, hbranch, hposition, -, hsibling, hsplit⟩ :=
        hclose.draws.carries_plug.wires.branch_close
      rw [Context.position, firstAboveWithin?, Tree.branch_eq hbranch]
      show (visit frame.owner frame.side branch >>= _) = _
      rw [hvisit frame (by simp) branch hbranch hsplit hsibling, List.findSome?_cons]
      cases answer frame with
      | some found => rfl
      | none =>
          rw [hposition]
          exact ih h
            (fun frame hframe => hvisit frame (List.mem_cons_of_mem _ hframe))
            (by simpa using hlimit)

/-- Going up from a slot passes the frames around it, the innermost first. -/
theorem firstAbove?_eq (visit : NodeId → Side → Branch → Except Fault (Option β))
    (answer : Frame → Option β) (h : tree.Stands (some (context.plug hole)))
    (hvisit : ∀ frame ∈ context, ∀ branch, tree.layout.branch frame.owner = some branch →
      branch.split = frame.split → branch.child frame.side.opposite = frame.sibling.link →
        visit frame.owner frame.side branch = .ok (answer frame)) :
    tree.firstAbove? visit context.position = .ok (context.findSome? answer) := by
  have hheight := h.height_lt
  have hplug := length_add_height_le context hole
  exact h.firstAboveWithin?_eq hvisit (by omega)

end Up

/-- Where a walk that crosses some branches finds something to enter. -/
private def across (direction : Side) (crosses : Int → Bool) (frame : Frame) : Option Link :=
  if frame.side = direction.opposite ∧ crosses frame.split then some frame.sibling.link else none

/-- The frames passed before the answer have nothing on the side moved to, or are
not crossed. -/
private theorem across_spec (direction : Side) (crosses : Int → Bool) (context : Context)
    (hole : Shape) :
    (context.findSome? (across direction crosses) = none ∧
      Context.ahead direction (context.filter fun frame => crosses frame.split) = []) ∨
      ∃ (context' : Context) (sibling : Shape),
        context.findSome? (across direction crosses) = some sibling.link ∧
          context'.plug sibling = context.plug hole ∧
            metFirst direction (Context.ahead direction
              (context.filter fun frame => crosses frame.split)) =
                metFirst direction sibling.members := by
  induction context generalizing hole with
  | nil => exact .inl ⟨rfl, by cases direction <;> rfl⟩
  | cons frame outer ih =>
      by_cases hcross : frame.side = direction.opposite ∧ crosses frame.split
      · refine .inr ⟨⟨frame.owner, frame.split, frame.side.opposite, hole⟩ :: outer, frame.sibling,
          ?_, ?_, ?_⟩
        · simp [across, hcross]
        · rw [Context.plug, Frame.close_flip, Context.plug]
        · have hne : arranged direction frame.sibling.members ≠ [] := by
            cases direction <;> simp [arranged, frame.sibling.members_ne_nil]
          rw [List.filter_cons, if_pos hcross.2, ← head?_arranged, ← head?_arranged,
            arranged_ahead_cons, if_pos hcross.1, List.head?_append_of_ne_nil _ hne]
      · have hahead : Context.ahead direction
            ((frame :: outer).filter fun frame => crosses frame.split) =
              Context.ahead direction (outer.filter fun frame => crosses frame.split) := by
          by_cases hcrosses : crosses frame.split = true
          · have hside : frame.side ≠ direction.opposite := fun hside => hcross ⟨hside, hcrosses⟩
            have := (Side.eq_or_eq_opposite frame.side direction).resolve_right hside
            rw [List.filter_cons, if_pos hcrosses]
            cases direction <;>
              simp [Context.ahead, Context.after, Context.before, Frame.after, Frame.before, this]
          · rw [List.filter_cons, if_neg hcrosses]
        -- such a frame is passed, and the way goes on from the slot of its branch
        rw [hahead, List.findSome?_cons,
          show across direction crosses frame = none from if_neg hcross]
        exact ih (frame.close hole)

/-- Beyond a slot lies what hangs beside the way up, on the side moved to, from
branches that are crossed. -/
theorem beyondWhere_eq (direction : Side) (crosses : Int → Bool)
    (h : tree.Stands (some (context.plug hole))) :
    tree.beyondWhere direction (fun branch => crosses branch.split) context.position =
      .ok (metFirst direction (Context.ahead direction
        (context.filter fun frame => crosses frame.split))) := by
  have habove := h.firstAbove?_eq
    (fun _ side branch => .ok (if side = direction.opposite ∧ crosses branch.split then
      some (branch.child direction) else none))
    (across direction crosses)
    (fun frame _ branch _ hsplit hchild => by
      by_cases hside : frame.side = direction.opposite
      · simp [across, hside, ← hchild, hsplit]
      · simp [across, hside])
  rw [beyondWhere, habove]
  rcases across_spec direction crosses context hole with
    ⟨hnone, hahead⟩ | ⟨context', sibling, hsome, hplug, hmet⟩
  · rw [hnone, hahead]
    cases direction <;> rfl
  · obtain ⟨id, hid, hfirst⟩ := (hplug ▸ h).enter_eq direction
    rw [hsome, hmet, hfirst]
    show (tree.enter direction sibling.link >>= _) = _
    rw [hid]
    rfl

/-- Beyond a slot lies what hangs beside the way up, on the side moved to. -/
theorem beyond_eq (direction : Side) (h : tree.Stands (some (context.plug hole))) :
    tree.beyond direction context.position =
      .ok (metFirst direction (context.ahead direction)) := by
  have hall := h.beyondWhere_eq direction fun _ => true
  rwa [List.filter_true] at hall

/-! ## Steps -/

/-- The outermost node of the whole tree. -/
theorem outermost_eq (direction : Side) (h : tree.Stands shape) :
    tree.outermost direction = .ok (metFirst direction (shape.elim [] Shape.members)) := by
  rw [outermost, h.root_eq]
  cases shape with
  | none => cases direction <;> rfl
  | some found =>
      have hplug : tree.Stands (some (Context.plug [] found)) := h
      obtain ⟨id, hid, hmet⟩ := hplug.enter_eq direction
      show (tree.enter direction found.link >>= _) = _
      rw [hid, Option.elim_some, hmet]
      rfl

/-- A node stands at a leaf or in the ring behind one, and what comes before and
after it in the whole order is read off from there. -/
private theorem locate {front back : List NodeId} (h : tree.Stands shape)
    (hmembers : shape.elim [] Shape.members = front ++ id :: back) :
    ∃ (context : Context) (head : NodeId) (behind : List NodeId),
      shape = some (context.plug (.leaf head behind)) ∧
        (id = head ∧ front = context.before ∧ back = behind ++ context.after ∨
          ∃ before after, behind = before ++ id :: after ∧
            front = context.before ++ head :: before ∧ back = after ++ context.after) := by
  cases shape with
  | none => simp at hmembers
  | some found =>
      rw [Option.elim_some] at hmembers
      have hmem : id ∈ found.members := by simp [hmembers]
      have hnodup : found.members.Nodup := h.draws.members_nodup
      obtain ⟨context, head, behind, rfl, hid⟩ := exists_plug_of_mem_members hmem
      -- no node comes twice, so there is one way only to divide the order at `id`
      have hunique : ∀ front' back', (context.plug (.leaf head behind)).members =
          front' ++ id :: back' → front = front' ∧ back = back' := by
        intro front' back' hmembers'
        have hsame := hmembers.symm.trans hmembers'
        rw [hmembers, List.nodup_append, List.nodup_cons] at hnodup
        rw [List.append_cons_inj_of_notMem (fun hid => hnodup.2.2 id hid id (by simp) rfl)
          hnodup.2.1.1] at hsame
        exact ⟨hsame.1, hsame.2.2⟩
      refine ⟨context, head, behind, rfl, ?_⟩
      rw [members_plug, Shape.members] at hunique
      rcases List.mem_cons.mp hid with rfl | hid
      · exact .inl ⟨rfl, hunique context.before (behind ++ context.after) (by simp)⟩
      · obtain ⟨before, after, rfl⟩ := List.append_of_mem hid
        exact .inr ⟨before, after, rfl, hunique (context.before ++ head :: before)
          (after ++ context.after) (by simp)⟩

/-- Stepping forward leads to the neighbour on the right. -/
theorem stepNext_eq {front back : List NodeId} (h : tree.Stands shape)
    (hmembers : shape.elim [] Shape.members = front ++ id :: back) :
    tree.stepNext id = .ok back.head? := by
  have hlive : tree.nodes.Live id := h.live (by simp [hmembers])
  obtain ⟨node, hnode⟩ := Option.isSome_iff_exists.mp hlive
  obtain ⟨context, head, behind, rfl, ⟨rfl, -, rfl⟩ | ⟨before, after, rfl, -, rfl⟩⟩ :=
    h.locate hmembers
  · have hplacement := h.leaf_placement
    have hnext := h.leaf_ring.next_head
    rw [placement_layout hnode] at hplacement
    rw [ring_layout hnode] at hnext
    simp only [stepNext, node_eq hnode, bind, Except.bind, hplacement, hnext]
    cases behind with
    | nil =>
        rw [List.headD_nil, if_pos rfl, h.beyond_eq .right]
        rfl
    | cons heir behind =>
        have hne : heir ≠ id := by
          rintro rfl
          simpa using h.leaf_ring.nodup
        rw [List.headD_cons, if_neg hne]
        rfl
  · -- behind the last of a ring comes its head, and this is how the end is noticed
    have hplacement := h.chained_placement (List.mem_append_right before List.mem_cons_self)
    have hnext := h.leaf_ring.links_member.2
    rw [placement_layout hnode] at hplacement
    rw [ring_layout hnode] at hnext
    have hnext_mem : node.ring.next ∈ head :: (before ++ id :: after) := by
      rw [hnext]
      cases after <;> simp
    obtain ⟨other, hother⟩ := Option.isSome_iff_exists.mp (h.live (mem_of_leaf hnext_mem))
    simp only [stepNext, node_eq hnode, bind, Except.bind, hplacement, node_eq hother]
    cases after with
    | nil =>
        have hhead := h.leaf_placement
        rw [List.headD_nil] at hnext
        rw [hnext] at hother
        rw [placement_layout hother] at hhead
        simp only [hhead]
        exact h.beyond_eq .right
    | cons following after =>
        have hfollowing := h.chained_placement (List.mem_append_right before
          (List.mem_cons_of_mem id List.mem_cons_self))
        rw [List.headD_cons] at hnext
        rw [hnext] at hother
        rw [placement_layout hother] at hfollowing
        simp only [hfollowing, hnext]
        rfl

/-- Stepping back leads to the neighbour on the left. -/
theorem stepPrev_eq {front back : List NodeId} (h : tree.Stands shape)
    (hmembers : shape.elim [] Shape.members = front ++ id :: back) :
    tree.stepPrev id = .ok front.getLast? := by
  have hlive : tree.nodes.Live id := h.live (by simp [hmembers])
  obtain ⟨node, hnode⟩ := Option.isSome_iff_exists.mp hlive
  obtain ⟨context, head, behind, rfl, ⟨rfl, rfl, -⟩ | ⟨before, after, rfl, rfl, -⟩⟩ :=
    h.locate hmembers
  · have hplacement := h.leaf_placement
    rw [placement_layout hnode] at hplacement
    simp only [stepPrev, node_eq hnode, bind, Except.bind, hplacement]
    exact h.beyond_eq .left
  · have hplacement := h.chained_placement (List.mem_append_right before List.mem_cons_self)
    have hprev := h.leaf_ring.links_member.1
    rw [placement_layout hnode] at hplacement
    rw [ring_layout hnode] at hprev
    simp only [stepPrev, node_eq hnode, bind, Except.bind, hplacement, hprev]
    simp [List.getLast?_append, List.getLast?_cons, List.getLastD_eq_getLast?]
    rfl

end Stands

end Tree

end ElasticTree
