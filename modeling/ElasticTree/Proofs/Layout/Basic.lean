import ElasticTree.Node
import ElasticTree.Proofs.Ring.Circle

/-!
# The layout of a tree

A `Layout` holds the links of a tree and nothing else: the root slot, and for
every name the placement, the branch and the ring links.  It is total; a name
without a record counts as detached and alone.

The edges of a layout are written down twice, as the link found in a slot
(`slot?`) and as the slot recorded at the role which that link addresses
(`seat?`).  `setChild` and `setPosition` each write one of the two copies.
-/

namespace ElasticTree

/-- The slot of a leaf, if it hangs from one. -/
def Placement.position? : Placement → Option Position
  | .placed position => some position
  | _ => none

@[simp] theorem Placement.position?_detached : detached.position? = none := rfl

@[simp] theorem Placement.position?_chained : chained.position? = none := rfl

@[simp] theorem Placement.position?_placed (position : Position) :
    (placed position).position? = some position := rfl

@[simp] theorem Placement.position?_eq_some_iff {placement : Placement} {position : Position} :
    placement.position? = some position ↔ placement = .placed position := by
  cases placement <;> simp [position?]

namespace Branch

@[simp] theorem child_setChild_self (branch : Branch) (side : Side) (link : Link) :
    (branch.setChild side link).child side = link := by
  cases side <;> rfl

theorem child_setChild_of_ne (branch : Branch) {side other : Side} (link : Link)
    (h : other ≠ side) : (branch.setChild side link).child other = branch.child other := by
  cases side <;> cases other <;> first | rfl | exact absurd rfl h

@[simp] theorem position_setChild (branch : Branch) (side : Side) (link : Link) :
    (branch.setChild side link).position = branch.position := by
  cases side <;> rfl

@[simp] theorem split_setChild (branch : Branch) (side : Side) (link : Link) :
    (branch.setChild side link).split = branch.split := by
  cases side <;> rfl

end Branch

/-- The links of a tree. -/
structure Layout where
  root : Option Link
  placement : NodeId → Placement
  branch : NodeId → Option Branch
  ring : Ring.Table

namespace Layout

/-- Nothing is linked. -/
def empty : Layout := ⟨none, fun _ => .detached, fun _ => none, .alone⟩

/-- The link found in a slot. -/
def slot? (layout : Layout) : Position → Option Link
  | .root => layout.root
  | .under owner side => (layout.branch owner).map (·.child side)

/-- The slot recorded at the role that a link addresses. -/
def seat? (layout : Layout) : Link → Option Position
  | .leaf id => (layout.placement id).position?
  | .branch id => (layout.branch id).map (·.position)

/-- The split of a branch in use. -/
def split? (layout : Layout) (owner : NodeId) : Option Int := (layout.branch owner).map (·.split)

/-- There is a slot at the position, whatever is found in it. -/
def HasSlot (layout : Layout) : Position → Prop
  | .root => True
  | .under owner _ => layout.branch owner ≠ none

/-- The role that a link addresses can record a slot. -/
def HasSeat (layout : Layout) : Link → Prop
  | .leaf _ => True
  | .branch id => layout.branch id ≠ none

/-! ## Writing -/

/-- Records what has become of a leaf. -/
def setPlacement (layout : Layout) (id : NodeId) (placement : Placement) : Layout :=
  { layout with placement := Function.update layout.placement id placement }

/-- Puts a branch into use or out of use. -/
def setBranch (layout : Layout) (id : NodeId) (branch : Option Branch) : Layout :=
  { layout with branch := Function.update layout.branch id branch }

/-- Replaces the ring links. -/
def setRing (layout : Layout) (ring : Ring.Table) : Layout := { layout with ring := ring }

/-- Makes the slot at the position refer to the link. -/
def setChild (layout : Layout) (position : Position) (link : Link) : Layout :=
  match position with
  | .root => { layout with root := some link }
  | .under owner side =>
      layout.setBranch owner ((layout.branch owner).map (·.setChild side link))

/-- Records the position at the role that the link addresses. -/
def setPosition (layout : Layout) (link : Link) (position : Position) : Layout :=
  match link with
  | .leaf id => layout.setPlacement id (.placed position)
  | .branch id =>
      layout.setBranch id ((layout.branch id).map ({ · with position := position }))

variable {layout : Layout}

/-! ### What is found in the slots -/

@[simp] theorem slot?_setPlacement (id : NodeId) (placement : Placement) (position : Position) :
    (layout.setPlacement id placement).slot? position = layout.slot? position := by
  cases position <;> rfl

@[simp] theorem slot?_setRing (ring : Ring.Table) (position : Position) :
    (layout.setRing ring).slot? position = layout.slot? position := by
  cases position <;> rfl

theorem slot?_setBranch (id : NodeId) (branch : Option Branch) (position : Position) :
    (layout.setBranch id branch).slot? position = match position with
      | .root => layout.root
      | .under owner side =>
          if owner = id then branch.map (·.child side) else layout.slot? (.under owner side) := by
  cases position with
  | root => rfl
  | under owner side =>
      by_cases h : owner = id
      · subst h
        simp [slot?, setBranch]
      · simp [slot?, setBranch, h]

theorem slot?_setBranch_none (id : NodeId) (position : Position) :
    (layout.setBranch id none).slot? position =
      if position = .under id .left ∨ position = .under id .right then none
      else layout.slot? position := by
  rw [slot?_setBranch]
  cases position with
  | root => simp [slot?]
  | under owner side => cases side <;> simp

theorem slot?_setChild {position : Position} (h : layout.HasSlot position) (link : Link)
    (other : Position) :
    (layout.setChild position link).slot? other =
      if other = position then some link else layout.slot? other := by
  cases position with
  | root => cases other <;> simp [setChild, slot?]
  | under owner side =>
      obtain ⟨branch, hbranch⟩ := Option.ne_none_iff_exists'.mp h
      cases other with
      | root => simp [setChild, slot?, setBranch]
      | under owner' side' =>
          by_cases howner : owner' = owner
          · subst howner
            by_cases hside : side' = side
            · simp [setChild, slot?, setBranch, hbranch, hside]
            · simp [setChild, slot?, setBranch, hbranch, hside,
                Branch.child_setChild_of_ne branch link hside]
          · simp [setChild, slot?, setBranch, howner]

@[simp] theorem slot?_setPosition (link : Link) (position other : Position) :
    (layout.setPosition link position).slot? other = layout.slot? other := by
  cases link with
  | leaf id => simp [setPosition]
  | branch id =>
      cases other with
      | root => rfl
      | under owner side =>
          by_cases howner : owner = id
          · subst howner
            cases hbranch : layout.branch owner with
            | none => simp [setPosition, setBranch, slot?, hbranch]
            | some branch =>
                cases side <;> simp [setPosition, setBranch, slot?, hbranch, Branch.child]
          · simp [setPosition, setBranch, slot?, howner]

/-! ### What the roles record -/

theorem seat?_setPlacement (id : NodeId) (placement : Placement) (link : Link) :
    (layout.setPlacement id placement).seat? link =
      if link = .leaf id then placement.position? else layout.seat? link := by
  cases link with
  | leaf other =>
      by_cases h : other = id
      · subst h
        simp [seat?, setPlacement]
      · simp [seat?, setPlacement, h]
  | branch other => simp [seat?, setPlacement]

@[simp] theorem seat?_setRing (ring : Ring.Table) (link : Link) :
    (layout.setRing ring).seat? link = layout.seat? link := by
  cases link <;> rfl

theorem seat?_setBranch (id : NodeId) (branch : Option Branch) (link : Link) :
    (layout.setBranch id branch).seat? link =
      if link = .branch id then branch.map (·.position) else layout.seat? link := by
  cases link with
  | leaf other => simp [seat?, setBranch]
  | branch other =>
      by_cases h : other = id
      · subst h
        simp [seat?, setBranch]
      · simp [seat?, setBranch, h]

@[simp] theorem seat?_setChild (position : Position) (link other : Link) :
    (layout.setChild position link).seat? other = layout.seat? other := by
  cases position with
  | root => cases other <;> rfl
  | under owner side =>
      cases other with
      | leaf id => rfl
      | branch id =>
          by_cases h : id = owner
          · subst h
            cases hbranch : layout.branch id <;> simp [setChild, setBranch, seat?, hbranch]
          · simp [setChild, setBranch, seat?, h]

theorem seat?_setPosition {link : Link} (h : layout.HasSeat link) (position : Position)
    (other : Link) :
    (layout.setPosition link position).seat? other =
      if other = link then some position else layout.seat? other := by
  cases link with
  | leaf id =>
      rw [setPosition, seat?_setPlacement]
      rfl
  | branch id =>
      obtain ⟨branch, hbranch⟩ := Option.ne_none_iff_exists'.mp h
      rw [setPosition, seat?_setBranch, hbranch]
      rfl

/-! ### Splits -/

@[simp] theorem split?_setPlacement (id : NodeId) (placement : Placement) (owner : NodeId) :
    (layout.setPlacement id placement).split? owner = layout.split? owner := rfl

@[simp] theorem split?_setRing (ring : Ring.Table) (owner : NodeId) :
    (layout.setRing ring).split? owner = layout.split? owner := rfl

theorem split?_setBranch (id : NodeId) (branch : Option Branch) (owner : NodeId) :
    (layout.setBranch id branch).split? owner =
      if owner = id then branch.map (·.split) else layout.split? owner := by
  by_cases h : owner = id
  · subst h
    simp [split?, setBranch]
  · simp [split?, setBranch, h]

@[simp] theorem split?_setChild (position : Position) (link : Link) (owner : NodeId) :
    (layout.setChild position link).split? owner = layout.split? owner := by
  cases position with
  | root => rfl
  | under owner' side =>
      rw [setChild, split?_setBranch]
      split
      · rename_i h
        subst h
        cases hbranch : layout.branch owner <;> simp [split?, hbranch]
      · rfl

@[simp] theorem split?_setPosition (link : Link) (position : Position) (owner : NodeId) :
    (layout.setPosition link position).split? owner = layout.split? owner := by
  cases link with
  | leaf id => rfl
  | branch id =>
      rw [setPosition, split?_setBranch]
      split
      · rename_i h
        subst h
        cases hbranch : layout.branch owner <;> simp [split?, hbranch]
      · rfl

/-! ### Branches in use

A branch is in use if and only if it has a split, and then it has both slots and
a seat. -/

theorem branch_ne_none_iff {owner : NodeId} :
    layout.branch owner ≠ none ↔ layout.split? owner ≠ none := by
  simp [split?]

theorem slot?_under_ne_none_iff {owner : NodeId} {side : Side} :
    layout.slot? (.under owner side) ≠ none ↔ layout.branch owner ≠ none := by
  simp [slot?]

theorem seat?_branch_ne_none_iff {owner : NodeId} :
    layout.seat? (.branch owner) ≠ none ↔ layout.branch owner ≠ none := by
  simp [seat?]

theorem hasSlot_of_slot? {position : Position} (h : layout.slot? position ≠ none) :
    layout.HasSlot position := by
  cases position with
  | root => trivial
  | under owner side => exact slot?_under_ne_none_iff.mp h

theorem hasSeat_of_seat? {link : Link} (h : layout.seat? link ≠ none) : layout.HasSeat link := by
  cases link with
  | leaf id => trivial
  | branch id => exact seat?_branch_ne_none_iff.mp h

/-- Slots last as long as no branch goes out of use. -/
theorem HasSlot.mono {after : Layout} {position : Position} (h : layout.HasSlot position)
    (hsplit : ∀ owner, layout.split? owner ≠ none → after.split? owner ≠ none) :
    after.HasSlot position := by
  cases position with
  | root => trivial
  | under owner side => exact branch_ne_none_iff.mpr (hsplit owner (branch_ne_none_iff.mp h))

theorem HasSeat.mono {after : Layout} {link : Link} (h : layout.HasSeat link)
    (hsplit : ∀ owner, layout.split? owner ≠ none → after.split? owner ≠ none) :
    after.HasSeat link := by
  cases link with
  | leaf id => trivial
  | branch id => exact branch_ne_none_iff.mpr (hsplit id (branch_ne_none_iff.mp h))

/-- A branch is put together from what its seat, its slots and its split say. -/
theorem branch_eq_some {owner : NodeId} {position : Position} {left right : Link} {split : Int}
    (hseat : layout.seat? (.branch owner) = some position)
    (hleft : layout.slot? (.under owner .left) = some left)
    (hright : layout.slot? (.under owner .right) = some right)
    (hsplit : layout.split? owner = some split) :
    layout.branch owner = some ⟨position, left, right, split⟩ := by
  simp only [seat?, slot?, split?, Option.map_eq_some_iff] at hseat hleft hright hsplit
  obtain ⟨branch, hbranch, hposition⟩ := hseat
  simp only [hbranch, Option.some.injEq, exists_eq_left'] at hleft hright hsplit
  rw [hbranch]
  congr 1
  cases branch
  simp_all [Branch.child]

end Layout

end ElasticTree
