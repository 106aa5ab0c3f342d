import ElasticTree.Proofs.Layout.Carrying
import ElasticTree.Proofs.Shape.Change

/-!
# Layouts that draw a shape

`Draws` is the relation between what is stored of a tree and the shape it has:
the layout carries out the roles of the shape, and every branch lies above the
leaf of its owner.

Each way of linking or unlinking a node is one assignment of layouts, and each
has a lemma here that takes a drawing of the old shape to one of the new.  When
a node that goes has lent its branch to the tree, the drawing of the shape is
not complete before the branch is handed over, so `withdraw` is treated on the
roles alone.
-/

namespace ElasticTree

open Shape

namespace Layout

variable {layout : Layout} {id head : NodeId} {context : Context} {behind : List NodeId}

/-! ## Assignments -/

/-- Links `id` as the only node. -/
def plant (layout : Layout) (id : NodeId) : Layout :=
  let layout := (layout.setPlacement id (.placed .root)).setBranch id none
  (layout.setRing (Function.update layout.ring id (.alone id))).setChild .root (.leaf id)

/-- Links `id` at the end of the ring of `head`. -/
def chain (layout : Layout) (head id : NodeId) : Layout :=
  let layout := (layout.setPlacement id .chained).setBranch id none
  layout.setRing (layout.ring.append head id)

/-- Takes `id` out of its ring and detaches it. -/
def unchain (layout : Layout) (id : NodeId) : Layout :=
  (layout.setRing (layout.ring.remove id)).setPlacement id .detached

/-- Detaches the only node. -/
def uproot (layout : Layout) (id : NodeId) : Layout :=
  { layout with root := none }.setPlacement id .detached

/-- Detaches `id` and hands its branch over to `spare`. -/
def withdraw (layout : Layout) (id spare : NodeId) : Layout :=
  match layout.branch id with
  | none => layout.setPlacement id .detached
  | some branch => ((layout.setPlacement id .detached).setBranch id none).relocate branch spare

theorem setBranch_of_eq (layout : Layout) {branch : Option Branch} (h : layout.branch id = branch) :
    layout.setBranch id branch = layout := by
  subst h
  simp [setBranch]

/-! ## Drawings -/

/-- The layout shows the shape and nothing besides. -/
structure Draws (layout : Layout) (shape : Option Shape) : Prop where
  carries : layout.Carries (shape.elim [] (·.roles .root))
  covered : ∀ found ∈ shape, found.Covered

/-- The node has no place in the layout. -/
structure IsFree (layout : Layout) (id : NodeId) : Prop where
  seat : layout.seat? (.leaf id) = none
  branch : layout.branch id = none
  ring : layout.ring id = .alone id
  chained : ¬ layout.IsChained id

/-- A branch in use can be taken out of the layout and put into use elsewhere. -/
theorem Carries.released {shape : Shape} {branch : Branch} (h : layout.Carries (shape.roles .root))
    (hbranch : layout.branch id = some branch) :
    (layout.setBranch id none).HasSlot branch.position ∧
      (layout.setBranch id none).seat? branch.left ≠ none ∧
        (layout.setBranch id none).seat? branch.right ≠ none := by
  have hmem : id ∈ shape.owners := by
    have howner := h.wires.branch_eq_none_iff id
    rw [flatMap_owners_roles, hbranch] at howner
    by_contra hnot
    simp [hnot] at howner
  obtain ⟨context, split, left, right, rfl⟩ := exists_plug_of_mem_owners hmem
  replace h := h.wires.perm (roles_plug context _)
  have hstored := h.branch_root
  rw [hbranch, Option.some.injEq] at hstored
  subst hstored
  exact h.released

/-- What a node owned when it went is handed over to a node without a branch. -/
theorem Carries.withdraw {spare : NodeId} {shape : Shape}
    (h : (layout.setPlacement id .detached).Carries (shape.roles .root))
    (hspare : layout.branch id ≠ none → layout.branch spare = none) :
    (layout.withdraw id spare).Carries ((shape.reown id spare).roles .root) := by
  have howner : layout.branch id = none ↔ id ∉ shape.owners := by
    have := h.wires.branch_eq_none_iff id
    rwa [flatMap_owners_roles] at this
  cases hbranch : layout.branch id with
  | none =>
      rw [Layout.withdraw, hbranch, reown_of_not_mem (howner.mp hbranch)]
      exact h
  | some branch =>
      have hmem : id ∈ shape.owners := by
        by_contra hnot
        simp [howner.mpr hnot] at hbranch
      have hnodup := h.wires.owners_nodup
      obtain ⟨context, split, left, right, rfl⟩ := exists_plug_of_mem_owners hmem
      rw [flatMap_owners_roles, (owners_plug _ _).nodup_iff, owners, List.cons_append,
        List.nodup_cons, List.mem_append, List.mem_append, not_or, not_or] at hnodup
      -- the branch of `id` is brought to the front, and nothing else there is owned by `id`
      replace h := h.perm (roles_plug context _)
      have hstored : layout.branch id = some ⟨context.position, left.link, right.link, split⟩ :=
        h.wires.branch_root
      rw [hbranch, Option.some.injEq] at hstored
      subst hstored
      rw [Layout.withdraw, hbranch, reown_plug, Context.reown_of_not_mem hnodup.1.2, reown,
        if_pos rfl, Shape.reown_of_not_mem hnodup.1.1.1, Shape.reown_of_not_mem hnodup.1.1.2]
      exact (h.relocate (hspare (by simp [hbranch]))).perm (roles_plug context _).symm

namespace Draws

variable {shape : Option Shape}

theorem empty : Layout.empty.Draws none where
  carries := by
    refine ⟨⟨fun position link => ?_, fun link position => ?_, fun owner split => ?_, by simp⟩,
      by simp, fun id => ?_, fun id _ => rfl, by simp⟩
    · cases position <;> simp [slot?, Layout.empty]
    · cases link <;> simp [seat?, Layout.empty]
    · simp [split?, Layout.empty]
    · simp [IsChained, Layout.empty]
  covered := by simp

theorem wires {found : Shape} (h : layout.Draws (some found)) : layout.Wires (found.roles .root) :=
  h.carries.wires

theorem members_nodup (h : layout.Draws shape) : (shape.elim [] Shape.members).Nodup := by
  have hnodup := h.carries.nodup
  cases shape with
  | none => exact List.nodup_nil
  | some found => simpa using hnodup

theorem leaves_nodup {found : Shape} (h : layout.Draws (some found)) : found.leaves.Nodup :=
  (List.nodup_append.mp (found.members_perm.nodup_iff.mp h.members_nodup)).1

theorem owners_nodup {found : Shape} (h : layout.Draws (some found)) : found.owners.Nodup := by
  simpa using h.wires.owners_nodup

theorem branch_eq_none_iff (h : layout.Draws shape) :
    layout.branch id = none ↔ id ∉ shape.elim [] Shape.owners := by
  rw [h.carries.wires.branch_eq_none_iff]
  cases shape <;> simp

theorem owners_subset (h : layout.Draws shape) :
    ∀ owner ∈ shape.elim [] Shape.owners, owner ∈ shape.elim [] Shape.leaves := by
  cases shape with
  | none => simp
  | some found => exact (h.covered found rfl).owners_subset

/-- A detached node has no place, and it is found nowhere in the shape. -/
theorem isFree (h : layout.Draws shape) (hid : layout.placement id = .detached) :
    layout.IsFree id ∧ id ∉ shape.elim [] Shape.members := by
  have hseat : layout.seat? (.leaf id) = none := by simp [seat?, hid]
  have hchained : ¬ layout.IsChained id := by simp [IsChained, hid]
  have hroles := h.carries.not_mem_members hseat hchained
  have hmem : id ∉ shape.elim [] Shape.members := by
    cases shape with
    | none => simp
    | some found => simpa using hroles
  refine ⟨⟨hseat, ?_, h.carries.alone id hroles, hchained⟩, hmem⟩
  rw [h.branch_eq_none_iff]
  intro howner
  have hleaf := h.owners_subset id howner
  cases shape with
  | none => simp at hleaf
  | some found => exact hmem (mem_members_iff.mpr (.inl hleaf))

/-- A layout and a shape agree on which nodes are linked. -/
theorem placement_eq_detached_iff (h : layout.Draws shape) :
    layout.placement id = .detached ↔ id ∉ shape.elim [] Shape.members := by
  refine ⟨fun hid => (h.isFree hid).2, fun hmem => ?_⟩
  cases hplacement : layout.placement id with
  | detached => rfl
  | placed position =>
      -- a leaf has a seat, and every seat is one of a role
      have hseat : layout.seat? (.leaf id) = some position := by simp [seat?, hplacement]
      obtain ⟨role, hrole, hwire⟩ := List.mem_map.mp ((h.carries.wires.seat _ _).mp hseat)
      refine absurd ?_ hmem
      cases role with
      | branch slot owner split => simp at hwire
      | leaf slot head behind =>
          simp only [Role.backWire_leaf, Prod.mk.injEq, Link.leaf.injEq] at hwire
          cases shape with
          | none => simp at hrole
          | some found =>
              rw [Option.elim_some, ← flatMap_members_roles .root found]
              exact List.mem_flatMap.mpr ⟨_, hrole, by simp [hwire.1]⟩
  | chained =>
      have hflat := (h.carries.isChained_iff id).mp hplacement
      cases shape with
      | none => simp at hflat
      | some found =>
          rw [Option.elim_some, flatMap_chained_roles] at hflat
          exact absurd (mem_members_iff.mpr (.inr hflat)) hmem

/-- A leaf in the hole of a context brings its role to the front. -/
theorem carries_plug {hole : Shape} (h : layout.Draws (some (context.plug hole))) :
    layout.Carries (hole.roles context.position ++ context.roles) :=
  h.carries.perm (roles_plug context hole)

theorem leaf_ring (h : layout.Draws (some (context.plug (.leaf head behind)))) :
    Ring.Circle layout.ring head behind :=
  h.carries_plug.rings (head, behind) (by simp [Shape.roles])

/-! ## Linking -/

/-- The first node of an empty tree. -/
theorem plant (h : layout.Draws none) (hid : layout.placement id = .detached) :
    (layout.plant id).Draws (some (.leaf id [])) := by
  obtain ⟨hfree, -⟩ := h.isFree hid
  have hplant : layout.plant id =
      (layout.setPlacement id (.placed .root)).setChild .root (.leaf id) := by
    have hbranch := setBranch_of_eq (layout.setPlacement id (.placed .root)) hfree.branch
    rw [Layout.plant, hbranch, Function.update_eq_self_iff.mpr hfree.ring.symm]
    rfl
  have hcarries : layout.Carries [] := h.carries
  refine ⟨?_, fun found hfound => ?_⟩
  · rw [hplant]
    refine hcarries.plant hfree.seat hfree.chained hfree.ring
  · rw [Option.mem_some_iff] at hfound
    subst hfound
    trivial

/-- A node joins the ring of a leaf. -/
theorem chain (h : layout.Draws (some (context.plug (.leaf head behind))))
    (hid : layout.placement id = .detached) :
    (layout.chain head id).Draws (some (context.plug (.leaf head (behind ++ [id])))) := by
  obtain ⟨hfree, -⟩ := h.isFree hid
  have hbranch := setBranch_of_eq (layout.setPlacement id .chained) hfree.branch
  refine ⟨?_, fun found hfound => ?_⟩
  · rw [Layout.chain, hbranch]
    exact (h.carries_plug.chain hfree.seat hfree.chained).perm
      (roles_plug context (.leaf head (behind ++ [id]))).symm
  · rw [Option.mem_some_iff] at hfound
    subst hfound
    have hcovered := h.covered _ rfl
    rw [covered_plug_iff] at hcovered ⊢
    exact hcovered

/-- A node is put above what hangs from a slot. -/
theorem splice {hole : Shape} (h : layout.Draws (some (context.plug hole)))
    (hid : layout.placement id = .detached) (side : Side) (split : Int) :
    (layout.splice id context.position hole.link side split).Draws
      (some (context.plug (Frame.close ⟨id, split, side.opposite, .leaf id []⟩ hole))) := by
  obtain ⟨hfree, -⟩ := h.isFree hid
  refine ⟨?_, fun found hfound => ?_⟩
  · refine (h.carries_plug.splice hfree.branch hfree.seat hfree.chained side split).perm ?_
    refine List.Perm.trans ?_ (roles_plug context _).symm
    refine List.Perm.trans ?_ ((roles_close _ hole _).append_right _).symm
    simp only [Shape.roles, Side.opposite_opposite, List.append_assoc, List.cons_append,
      List.nil_append]
    exact (List.perm_middle.trans (List.perm_middle.cons _)).symm
  · rw [Option.mem_some_iff] at hfound
    subst hfound
    obtain ⟨hhole, hcovers⟩ := covered_plug_iff.mp (h.covered _ rfl)
    rw [covered_plug_iff]
    cases side with
    | left =>
        refine ⟨⟨by simp [Shape.leaves], trivial, hhole⟩, hcovers.mono fun other hother => ?_⟩
        exact List.mem_append_right _ hother
    | right =>
        refine ⟨⟨by simp [Shape.leaves], hhole, trivial⟩, hcovers.mono fun other hother => ?_⟩
        exact List.mem_append_left _ hother

/-! ## Unlinking -/

/-- A shape that is carried out after a node went is drawn, since the node went
from a shape that was. -/
private theorem ofRemoves {found : Shape} {after : Option Shape} {layout' : Layout}
    (h : layout.Draws (some found)) (hremoves : Removes id found after)
    (hcarries : layout'.Carries (after.elim [] (·.roles .root))) : layout'.Draws after :=
  ⟨hcarries, hremoves.covered (h.covered found rfl) h.leaves_nodup h.owners_nodup⟩

/-- The only node is detached. -/
theorem uproot (h : layout.Draws (some (.leaf id []))) : (layout.uproot id).Draws none :=
  h.ofRemoves .last h.carries.uproot

/-- A node leaves the ring behind its leaf. -/
theorem unchain {front back : List NodeId}
    (h : layout.Draws (some (context.plug (.leaf head (front ++ id :: back))))) :
    (layout.unchain id).Draws (some (context.plug (.leaf head (front ++ back)))) :=
  h.ofRemoves (.member context head front back)
    (h.carries_plug.unchain.perm (roles_plug context (.leaf head (front ++ back))).symm)

section Promote

variable {heir : NodeId}

theorem promote_carries (h : layout.Draws (some (context.plug (.leaf id (heir :: behind))))) :
    ((layout.promote id heir context.position).setPlacement id .detached).Carries
      ((context.plug (.leaf heir behind)).roles .root) :=
  h.carries_plug.promote.perm (roles_plug context (.leaf heir behind)).symm

/-- Nodes behind a leaf own no branches. -/
theorem promote_branch (h : layout.Draws (some (context.plug (.leaf id (heir :: behind))))) :
    (layout.promote id heir context.position).branch heir = none := by
  -- owners are leaves of the shape, and the heir was chained
  have hnot : layout.branch heir = none := by
    rw [h.branch_eq_none_iff]
    intro howner
    have hleaf := h.owners_subset heir howner
    have hnodup := h.members_nodup
    rw [Option.elim_some, (members_perm _).nodup_iff, List.nodup_append] at hnodup
    refine hnodup.2.2 heir hleaf heir ((chained_plug _ _).mem_iff.mpr ?_) rfl
    simp [Shape.chained]
  by_contra hsome
  rw [← ne_eq, branch_ne_none_iff] at hsome
  refine branch_ne_none_iff.mpr ?_ hnot
  simpa [Layout.promote] using hsome

/-- The next member of its ring takes over the leaf of a node, and its branch. -/
theorem promote (h : layout.Draws (some (context.plug (.leaf id (heir :: behind))))) :
    ((layout.promote id heir context.position).withdraw id heir).Draws
      (some ((context.plug (.leaf heir behind)).reown id heir)) :=
  h.ofRemoves (.head context heir behind) (h.promote_carries.withdraw fun _ => h.promote_branch)

end Promote

section Lift

variable {frame : Frame} {outer : Context} {branch : Branch}

theorem lift_carries (h : layout.Draws (some (outer.plug (frame.close (.leaf id [])))))
    (hbranch : layout.branch frame.owner = some branch) :
    ((layout.lift frame.owner branch frame.side).setPlacement id .detached).Carries
      ((outer.plug frame.sibling).roles .root) :=
  (h.carries_plug.lift hbranch).perm (roles_plug outer frame.sibling).symm

theorem lift_branch {owner : NodeId} {side : Side} :
    (layout.lift owner branch side).branch owner = none := by
  simp [Layout.lift, setBranch]

/-- A leaf goes, what hangs beside it moves up, and the owner of the branch above
takes over the branch of the leaf. -/
theorem lift (h : layout.Draws (some (outer.plug (frame.close (.leaf id [])))))
    (hbranch : layout.branch frame.owner = some branch) :
    ((layout.lift frame.owner branch frame.side).withdraw id frame.owner).Draws
      (some ((outer.plug frame.sibling).reown id frame.owner)) :=
  h.ofRemoves (.single frame outer) ((h.lift_carries hbranch).withdraw fun _ => lift_branch)

end Lift

end Draws

end Layout

end ElasticTree
