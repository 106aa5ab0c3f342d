import ElasticTree.Proofs.Layout.Wiring

/-!
# Changing the wiring

The changes that linking and unlinking make to a layout, and what becomes of the
roles it carries out:

* `splice` puts a node between a slot and what hangs there;
* `lift` moves what hangs beside a leaf up into the place of the branch above;
* `promote` hands a leaf position to another node;
* `relocate` hands a branch in use to another node.

Records that a change writes to may coincide, so the assignments are made one
after the other, in the order in which the tree makes them.
-/

namespace ElasticTree

open Shape

namespace Layout

/-- Puts `id` between the slot at `position` and `old`, which hangs there. -/
def splice (layout : Layout) (id : NodeId) (position : Position) (old : Link) (side : Side)
    (split : Int) : Layout :=
  let branch := Branch.setChild ⟨position, old, old, split⟩ side (.leaf id)
  let layout := (layout.setPlacement id (.placed (.under id side))).setBranch id (some branch)
  let layout := layout.setRing (Function.update layout.ring id (.alone id))
  (layout.setChild position (.branch id)).setPosition old (.under id side.opposite)

/-- Moves what hangs opposite to `side` under the branch of `owner` up into the
place of that branch. -/
def lift (layout : Layout) (owner : NodeId) (branch : Branch) (side : Side) : Layout :=
  let sibling := branch.child side.opposite
  ((layout.setPosition sibling branch.position).setChild branch.position sibling).setBranch
    owner none

/-- Hands the leaf position of `id` over to `heir`. -/
def promote (layout : Layout) (id heir : NodeId) (position : Position) : Layout :=
  let layout := layout.setRing (layout.ring.remove id)
  (layout.setPlacement heir (.placed position)).setChild position (.leaf heir)

/-- Puts `branch` into use at `id`. -/
def relocate (layout : Layout) (branch : Branch) (id : NodeId) : Layout :=
  let layout := (layout.setBranch id (some branch)).setChild branch.position (.branch id)
  (layout.setPosition branch.left (.under id .left)).setPosition branch.right (.under id .right)

variable {layout : Layout} {id : NodeId} {position : Position} {rest : List Role}

/-- The roles of a branch and of what hangs from it, and then the rest. -/
private theorem roles_branch_perm (owner : NodeId) (split : Int) (left right : Shape) :
    ((Shape.branch owner split left right).roles position ++ rest).Perm
      ([.branch position owner split, left.role (.under owner .left),
        right.role (.under owner .right)] ++ (left.beneath ++ right.beneath ++ rest)) := by
  rw [Shape.roles, roles_eq_cons _ left, roles_eq_cons _ right]
  simp only [List.cons_append, List.nil_append, List.append_assoc]
  exact List.Perm.cons _ (List.Perm.cons _ List.perm_middle)

namespace Wires

/-- The slot of a shape that is carried out holds the link of the shape. -/
theorem slot_root {hole : Shape} (h : layout.Wires (hole.roles position ++ rest)) :
    layout.slot? position = some hole.link := by
  refine h.slot.eq_some (List.mem_map.mpr ⟨hole.role position, ?_, wire_role _ _⟩)
  rw [roles_eq_cons]
  simp

theorem seat_root {hole : Shape} (h : layout.Wires (hole.roles position ++ rest)) :
    layout.seat? hole.link = some position := by
  refine h.seat.eq_some (List.mem_map.mpr ⟨hole.role position, ?_, backWire_role _ _⟩)
  rw [roles_eq_cons]
  simp

/-- A branch that is carried out is stored as it stands in the shape. -/
theorem branch_root {owner : NodeId} {split : Int} {left right : Shape}
    (h : layout.Wires ((Shape.branch owner split left right).roles position ++ rest)) :
    layout.branch owner = some ⟨position, left.link, right.link, split⟩ := by
  have hseat := h.seat_root
  replace h := h.perm (roles_branch_perm owner split left right)
  have hleft := h.slot_of_mem (left.role (.under owner .left)) (by simp)
  have hright := h.slot_of_mem (right.role (.under owner .right)) (by simp)
  rw [wire_role] at hleft hright
  exact branch_eq_some hseat hleft hright (h.fork.eq_some (by simp))

/-- A branch hangs neither from itself nor below itself. -/
theorem branch_apart {split : Int} {left right : Shape}
    (h : layout.Wires ((Shape.branch id split left right).roles position ++ rest)) :
    (∀ side, position ≠ .under id side) ∧ left.link ≠ .branch id ∧ right.link ≠ .branch id := by
  have hroot := h.slot_root
  replace h := h.perm (roles_branch_perm id split left right)
  have hlinks := h.links_nodup
  simp only [List.cons_append, List.nil_append, List.map_cons, wire_role, Role.wire_branch,
    List.nodup_cons, List.mem_cons, not_or] at hlinks
  refine ⟨fun side heq => ?_, Ne.symm hlinks.1.1, Ne.symm hlinks.1.2.1⟩
  have hslot : layout.slot? (.under id side) = some (.branch id) := heq ▸ hroot
  cases side with
  | left =>
      have hchild := h.slot_of_mem (left.role (.under id .left)) (by simp)
      rw [wire_role, hslot, Option.some.injEq] at hchild
      exact hlinks.1.1 hchild
  | right =>
      have hchild := h.slot_of_mem (right.role (.under id .right)) (by simp)
      rw [wire_role, hslot, Option.some.injEq] at hchild
      exact hlinks.1.2.1 hchild

/-- The split of a root that is carried out, wherever else it might hang. -/
theorem split_of_fork {roles : List Role} {second : Position} {shape : Shape} {owner : NodeId}
    {split : Int} (h : layout.Wires roles) (first : Position) (hmem : shape.role first ∈ roles)
    (hfork : (owner, split) ∈ (shape.role second).forks) :
    shape.link = .branch owner ∧ layout.split? owner = some split := by
  refine ⟨link_of_mem_forks hfork, h.fork.eq_some (List.mem_flatMap.mpr ⟨_, hmem, ?_⟩)⟩
  rwa [forks_role first second]

end Wires

/-! ## Putting a node above another -/

section Splice

variable {old : Link} {side : Side} {split : Int}

variable (id old side split) in
theorem slot?_splice (hslot : layout.HasSlot position) (other : Position) :
    (layout.splice id position old side split).slot? other =
      if other = position then some (.branch id) else if other = .under id side then some (.leaf id)
      else if other = .under id side.opposite then some old else layout.slot? other := by
  rw [splice, slot?_setPosition, slot?_setChild (hslot.mono fun owner howner => ?_)]
  · refine if_congr Iff.rfl rfl ?_
    rw [slot?_setRing, slot?_setBranch]
    cases other with
    | root => simp [slot?, setPlacement]
    | under owner side' =>
        by_cases howner : owner = id
        · subst howner
          cases side <;> cases side' <;> simp [Branch.setChild, Branch.child, Side.opposite]
        · simp [howner]
  · rw [split?_setRing, split?_setBranch]
    split
    · simp
    · simpa using howner

variable (id position side split) in
theorem seat?_splice (hold : layout.HasSeat old) (other : Link) :
    (layout.splice id position old side split).seat? other =
      if other = old then some (.under id side.opposite) else if other = .branch id
      then some position else if other = .leaf id then some (.under id side)
      else layout.seat? other := by
  rw [splice, seat?_setPosition (hold.mono fun owner howner => ?_)]
  · refine if_congr Iff.rfl rfl ?_
    rw [seat?_setChild, seat?_setRing, seat?_setBranch, seat?_setPlacement]
    simp [Placement.position?]
  · rw [split?_setChild, split?_setRing, split?_setBranch]
    split
    · simp
    · simpa using howner

variable (layout id position old side split) in
theorem split?_splice (owner : NodeId) :
    (layout.splice id position old side split).split? owner =
      if owner = id then some split else layout.split? owner := by
  rw [splice, split?_setPosition, split?_setChild, split?_setRing, split?_setBranch]
  simp

end Splice

namespace Wires

theorem splice {hole : Shape} (h : layout.Wires (hole.roles position ++ rest))
    (hbranch : layout.branch id = none) (hleaf : layout.seat? (.leaf id) = none) (side : Side)
    (split : Int) :
    (layout.splice id position hole.link side split).Wires
      (.branch position id split :: .leaf (.under id side) id [] ::
        (hole.roles (.under id side.opposite) ++ rest)) := by
  have hroot := h.slot_root
  have hlink_seat := h.seat_root
  have hid_slot : ∀ side, layout.slot? (.under id side) = none := by simp [slot?, hbranch]
  have hid_seat : layout.seat? (.branch id) = none := by simp [seat?, hbranch]
  have hid_split : layout.split? id = none := by simp [split?, hbranch]
  have hslot := slot?_splice id hole.link side split
    (hasSlot_of_slot? (by rw [hroot]; simp))
  have hseat := seat?_splice id position side split
    (hasSeat_of_seat? (by rw [hlink_seat]; simp))
  have hfork := split?_splice layout id position hole.link side split
  rw [roles_eq_cons, List.cons_append] at h ⊢
  have hbranch_not := h.link_not_mem hid_seat
  have hleaf_not := h.link_not_mem hleaf
  have hkept : ∀ owner split, (owner, split) ∈ (hole.role (.under id side.opposite)).forks →
      layout.split? owner = some split :=
    fun owner split hfork => (h.split_of_fork position List.mem_cons_self hfork).2
  -- what is beneath the root of the hole keeps its roles, so only the root is edited
  refine Wires.edit [hole.role position] [.branch position id split,
    .leaf (.under id side) id [], hole.role (.under id side.opposite)] h ?_ ?_ ?_ ?_
  · have hnodup := h.links_nodup
    simp only [List.cons_append, List.nil_append, List.map_cons, wire_role, Role.wire_branch,
      Role.wire_leaf, List.nodup_cons, List.mem_cons, not_or] at hnodup hbranch_not hleaf_not ⊢
    exact ⟨⟨by simp, hbranch_not⟩, hleaf_not, hnodup⟩
  · constructor
    · simp [hid_slot]
    · simp [hslot]
      grind
    · simp
    · simp [hslot]
      grind
  · constructor
    · simp [hid_seat, hleaf]
    · simp [hseat]
      grind
    · simp
    · simp [hseat]
      grind
  · rw [List.flatMap_singleton, forks_role position (.under id side.opposite)]
    constructor
    · simp [hid_split]
      grind
    · simp [hfork]
      grind
    · simp
      grind
    · simp [hfork]
      grind

end Wires

/-! ## Moving a subtree up -/

section Lift

variable {owner : NodeId} {branch : Branch} {side : Side}

variable (side) in
theorem slot?_lift (hslot : layout.HasSlot branch.position)
    (hposition : ∀ side, branch.position ≠ .under owner side) (other : Position) :
    (layout.lift owner branch side).slot? other =
      if other = branch.position then some (branch.child side.opposite)
      else if other = .under owner side ∨ other = .under owner side.opposite then none
      else layout.slot? other := by
  rw [lift, slot?_setBranch]
  have hkept : (layout.setPosition (branch.child side.opposite) branch.position).HasSlot
      branch.position := hslot.mono (by simp)
  have hbefore := slot?_setChild hkept (branch.child side.opposite)
  cases other with
  | root =>
      have := hbefore .root
      rw [slot?_setPosition] at this
      simpa [slot?] using this
  | under owner' side' =>
      by_cases howner : owner' = owner
      · subst howner
        rw [if_neg (Ne.symm (hposition side'))]
        rcases Side.eq_or_eq_opposite side' side with rfl | rfl <;> simp
      · simp [howner, hbefore]

variable (owner) in
theorem seat?_lift (hseat : layout.HasSeat (branch.child side.opposite)) (other : Link) :
    (layout.lift owner branch side).seat? other =
      if other = .branch owner then none else if other = branch.child side.opposite
      then some branch.position else layout.seat? other := by
  rw [lift, seat?_setBranch, seat?_setChild, seat?_setPosition hseat]
  rfl

variable (layout owner branch side) in
theorem split?_lift (other : NodeId) :
    (layout.lift owner branch side).split? other =
      if other = owner then none else layout.split? other := by
  rw [lift, split?_setBranch, split?_setChild, split?_setPosition]
  rfl

end Lift

namespace Wires

/-- The branch of a frame is stored as it stands there. -/
theorem branch_close {frame : Frame} {hole : Shape}
    (h : layout.Wires ((frame.close hole).roles position ++ rest)) :
    ∃ branch, layout.branch frame.owner = some branch ∧ branch.position = position ∧
      branch.child frame.side = hole.link ∧
      branch.child frame.side.opposite = frame.sibling.link ∧ branch.split = frame.split := by
  obtain ⟨owner, split, side, sibling⟩ := frame
  cases side <;> exact ⟨_, h.branch_root, rfl, rfl, rfl, rfl⟩

theorem seat_sibling {frame : Frame} {hole : Shape}
    (h : layout.Wires ((frame.close hole).roles position ++ rest)) :
    layout.seat? frame.sibling.link = some (.under frame.owner frame.side.opposite) := by
  have hmem := (h.perm ((roles_close frame _ _).append_right rest)).seat_of_mem
    (frame.sibling.role (.under frame.owner frame.side.opposite))
    (by simp [roles_eq_cons _ frame.sibling])
  rwa [wire_role] at hmem

/-- A frame stands neither in a slot of its own nor around itself. -/
private theorem close_apart {frame : Frame} {hole : Shape}
    (h : layout.Wires ((frame.close hole).roles position ++ rest)) (side : Side) :
    position ≠ .under frame.owner side := by
  obtain ⟨owner, split, side', sibling⟩ := frame
  cases side' <;> exact h.branch_apart.1 side

theorem lift {frame : Frame} {branch : Branch}
    (h : layout.Wires ((frame.close (.leaf id [])).roles position ++ rest))
    (hbranch : layout.branch frame.owner = some branch) :
    ((layout.lift frame.owner branch frame.side).setPlacement id .detached).Wires
      (frame.sibling.roles position ++ rest) := by
  obtain ⟨found, hfound, rfl, -, hsibling, -⟩ := h.branch_close
  rw [hbranch, Option.some.injEq] at hfound
  subst hfound
  have hslot := slot?_lift frame.side (hasSlot_of_slot? (by rw [h.slot_root]; simp)) h.close_apart
  have hsibling_seat : layout.HasSeat (branch.child frame.side.opposite) :=
    hasSeat_of_seat? (by rw [hsibling, h.seat_sibling]; simp)
  have hseat := seat?_lift frame.owner hsibling_seat
  have hfork := split?_lift layout frame.owner branch frame.side
  have hseat_owner := h.seat_root
  have hapart := h.close_apart
  rw [Frame.link_close] at hseat_owner
  rw [hsibling] at hslot hseat
  replace h := h.perm ((roles_close frame _ _).append_right rest)
  have hkept : ∀ other split, (other, split) ∈ (frame.sibling.role branch.position).forks →
      frame.sibling.link = .branch other ∧ layout.split? other = some split :=
    fun other split => h.split_of_fork (.under frame.owner frame.side.opposite)
      (by simp [roles_eq_cons _ frame.sibling])
  have hlinks := h.links_nodup
  rw [roles_eq_cons _ frame.sibling] at h hlinks ⊢
  simp only [Shape.roles, List.cons_append, List.nil_append, List.map_cons, Role.wire_leaf,
    Role.wire_branch, wire_role, List.nodup_cons, List.mem_cons, not_or] at h hlinks ⊢
  obtain ⟨⟨-, hid_sibling, hid_rest⟩, ⟨howner_sibling, howner_rest⟩, hsibling_rest, hrest⟩ := hlinks
  -- what hangs beside the leaf is not the branch that goes, and keeps its split when it
  -- moves up
  refine Wires.edit [.leaf (.under frame.owner frame.side) id [],
    .branch branch.position frame.owner frame.split,
    frame.sibling.role (.under frame.owner frame.side.opposite)]
    [frame.sibling.role branch.position] h ?_ ?_ ?_ ?_
  · simpa only [List.cons_append, List.nil_append, List.map_cons, wire_role, List.nodup_cons]
      using ⟨hsibling_rest, hrest⟩
  · constructor
    · simp
    · simp [hslot]
    · simp [hslot]
    · simp [hslot]
      grind
  · constructor
    · simp
    · simp [seat?_setPlacement, hseat]
      grind
    · simp [seat?_setPlacement, hseat]
    · simp [seat?_setPlacement, hseat]
      grind
  · rw [List.flatMap_singleton]
    constructor
    · simp [forks_role (.under frame.owner frame.side.opposite) branch.position]
      grind
    · simp [hfork]
      grind
    · simp [hfork, forks_role (.under frame.owner frame.side.opposite) branch.position]
      grind
    · simp [hfork, forks_role (.under frame.owner frame.side.opposite) branch.position]
      grind

/-! ## Handing over a leaf -/

/-- The next member of a ring takes the place of the leaf before it. -/
theorem promote {heir : NodeId} {behind : List NodeId}
    (h : layout.Wires (.leaf position id (heir :: behind) :: rest))
    (hheir : layout.seat? (.leaf heir) = none) :
    ((layout.promote id heir position).setPlacement id .detached).Wires
      (.leaf position heir behind :: rest) := by
  have hroot : layout.slot? position = some (.leaf id) := h.slot.eq_some (by simp)
  have hid : layout.seat? (.leaf id) = some position := h.seat.eq_some (by simp)
  have hne : heir ≠ id := by
    rintro rfl
    simp [hheir] at hid
  have hheir_not := h.link_not_mem hheir
  have hnodup := h.links_nodup
  simp only [List.map_cons, Role.wire_leaf, List.nodup_cons, List.mem_cons,
    not_or] at hnodup hheir_not
  have hslot : ∀ other, (layout.promote id heir position).slot? other =
      if other = position then some (.leaf heir) else layout.slot? other := by
    intro other
    rw [Layout.promote, slot?_setChild ((hasSlot_of_slot? (by rw [hroot]; simp)).mono
      (by simp))]
    simp
  have hseat : ∀ other, (layout.promote id heir position).seat? other =
      if other = .leaf heir then some position else layout.seat? other := by
    intro other
    simp [Layout.promote, seat?_setPlacement]
  refine Wires.edit [.leaf position id (heir :: behind)] [.leaf position heir behind] h ?_ ?_ ?_ ?_
  · simpa only [List.cons_append, List.nil_append, List.map_cons, Role.wire_leaf, List.nodup_cons]
      using ⟨hheir_not.2, hnodup.2⟩
  · constructor
    · simp
    · simp [hslot]
    · simp
    · simp [hslot]
      grind
  · constructor
    · simp [hheir]
    · simp [seat?_setPlacement, hseat, hne]
    · simp [seat?_setPlacement]
    · simp [seat?_setPlacement, hseat]
      grind
  · constructor <;> simp [Layout.promote]

end Wires

/-! ## Handing over a branch -/

section Relocate

variable {branch : Branch}

variable (id branch) in
theorem slot?_relocate (hslot : layout.HasSlot branch.position) (other : Position) :
    (layout.relocate branch id).slot? other =
      if other = branch.position then some (.branch id)
      else if other = .under id .left then some branch.left
      else if other = .under id .right then some branch.right else layout.slot? other := by
  rw [relocate, slot?_setPosition, slot?_setPosition, slot?_setChild (hslot.mono ?_),
    slot?_setBranch]
  · refine if_congr Iff.rfl rfl ?_
    cases other with
    | root => simp [slot?]
    | under owner side =>
        by_cases howner : owner = id
        · subst howner
          cases side <;> simp [Branch.child]
        · simp [howner]
  · intro owner howner
    rw [split?_setBranch]
    split
    · simp
    · exact howner

variable (id branch) in
theorem seat?_relocate (hleft : layout.HasSeat branch.left) (hright : layout.HasSeat branch.right)
    (other : Link) :
    (layout.relocate branch id).seat? other =
      if other = branch.right then some (.under id .right)
      else if other = branch.left then some (.under id .left)
      else if other = .branch id then some branch.position else layout.seat? other := by
  have hmono : ∀ owner, layout.split? owner ≠ none →
      ((layout.setBranch id (some branch)).setChild branch.position (.branch id)).split? owner ≠
        none := by
    intro owner howner
    rw [split?_setChild, split?_setBranch]
    split
    · simp
    · exact howner
  rw [relocate, seat?_setPosition ((hright.mono hmono).mono (by simp)),
    seat?_setPosition (hleft.mono hmono), seat?_setChild, seat?_setBranch]
  rfl

variable (layout id branch) in
theorem split?_relocate (owner : NodeId) :
    (layout.relocate branch id).split? owner =
      if owner = id then some branch.split else layout.split? owner := by
  rw [relocate, split?_setPosition, split?_setPosition, split?_setChild, split?_setBranch]
  rfl

end Relocate

namespace Wires

section Released

variable {split : Int} {left right : Shape}

/-- When a branch has gone out of use, the slot above it and the seats below it
are still there. -/
theorem released (h : layout.Wires ((Shape.branch id split left right).roles position ++ rest)) :
    (layout.setBranch id none).HasSlot position ∧
      (layout.setBranch id none).seat? left.link ≠ none ∧
        (layout.setBranch id none).seat? right.link ≠ none := by
  obtain ⟨hposition, hleft, hright⟩ := h.branch_apart
  have hroot := h.slot_root
  replace h := h.perm (roles_branch_perm id split left right)
  have hseat_left := h.seat_of_mem (left.role (.under id .left)) (by simp)
  have hseat_right := h.seat_of_mem (right.role (.under id .right)) (by simp)
  rw [wire_role] at hseat_left hseat_right
  refine ⟨hasSlot_of_slot? ?_, ?_, ?_⟩
  · rw [slot?_setBranch_none, hroot]
    simp [hposition]
  · rw [seat?_setBranch, if_neg hleft, hseat_left]
    simp
  · rw [seat?_setBranch, if_neg hright, hseat_right]
    simp

end Released

theorem relocate {spare : NodeId} {split : Int} {left right : Shape}
    (h : layout.Wires ((Shape.branch id split left right).roles position ++ rest))
    (hspare : layout.branch spare = none) :
    ((layout.setBranch id none).relocate ⟨position, left.link, right.link, split⟩ spare).Wires
      ((Shape.branch spare split left right).roles position ++ rest) := by
  have hslot := slot?_relocate spare ⟨position, left.link, right.link, split⟩ h.released.1
  have hseat := seat?_relocate spare ⟨position, left.link, right.link, split⟩
    (hasSeat_of_seat? h.released.2.1) (hasSeat_of_seat? h.released.2.2)
  have hfork := split?_relocate (layout.setBranch id none) spare
    ⟨position, left.link, right.link, split⟩
  have hapart := h.branch_apart.1
  have hroot := h.slot_root
  have hbranch := h.branch_root
  have hne : spare ≠ id := by
    rintro rfl
    simp [hspare] at hbranch
  have hspare_slot : ∀ side, layout.slot? (.under spare side) = none := by simp [slot?, hspare]
  have hspare_seat : layout.seat? (.branch spare) = none := by simp [seat?, hspare]
  have hspare_split : layout.split? spare = none := by simp [split?, hspare]
  refine Wires.perm ?_ (roles_branch_perm spare split left right).symm
  replace h := h.perm (roles_branch_perm id split left right)
  have hspare_not := h.link_not_mem hspare_seat
  have hlinks := h.links_nodup
  have hkept : ∀ other split', (other, split') ∈ (left.role (.under id .left)).forks ∨
      (other, split') ∈ (right.role (.under id .right)).forks →
      (left.link = .branch other ∨ right.link = .branch other) ∧
        layout.split? other = some split' := by
    rintro other split' (hfork | hfork)
    · have hfound := h.split_of_fork (.under id .left) (by simp) hfork
      exact ⟨.inl hfound.1, hfound.2⟩
    · have hfound := h.split_of_fork (.under id .right) (by simp) hfork
      exact ⟨.inr hfound.1, hfound.2⟩
  simp only [List.cons_append, List.nil_append, List.map_cons, wire_role, Role.wire_branch,
    List.nodup_cons, List.mem_cons, not_or] at hlinks hspare_not
  simp only [slot?_setBranch_none] at hslot
  simp only [seat?_setBranch] at hseat
  simp only [split?_setBranch] at hfork
  -- three roles are edited: the branch, which changes its owner, and the two below it,
  -- which hang from other slots then
  refine Wires.edit _ _ h ?_ ?_ ?_ ?_
  · simp only [List.cons_append, List.nil_append, List.map_cons, wire_role, Role.wire_branch,
      List.nodup_cons, List.mem_cons, not_or]
    exact ⟨hspare_not.2, hlinks.2⟩
  · constructor
    · simp [hspare_slot]
    · simp [hslot]
      grind
    · simp [hslot]
      grind
    · simp [hslot]
      grind
  · constructor
    · simp [hspare_seat]
    · simp [hseat]
      grind
    · simp [hseat]
      grind
    · simp [hseat]
      grind
  · simp only [List.flatMap_cons, List.flatMap_nil, List.append_nil, Role.forks_branch,
      forks_role (.under spare .left) (.under id .left),
      forks_role (.under spare .right) (.under id .right)]
    constructor
    · simp [hspare_split]
      grind
    · simp [hfork]
      grind
    · simp [hfork]
      grind
    · simp [hfork]
      grind

end Wires

end Layout

end ElasticTree
