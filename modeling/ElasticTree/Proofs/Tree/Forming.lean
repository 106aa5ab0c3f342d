import ElasticTree.Proofs.Shape.Occurrence
import ElasticTree.Proofs.Tree.Unfolding

/-!
# What unfolds stands

Of a tree whose links unfold to a shape it is known that each role records the
slot it was reached from.  The way from a role up to the root can therefore be
read off the records, and it is the same wherever the role is met, so no role is
met twice (`Unfolds.meetsOnce`).  The same holds of rings: the way back from a
member leads to one head only (`members_nodup`).

A well-formed tree over a sound arena therefore stands as its shape
(`FormsWith.stands`), and all that is known of standing trees holds of it.
-/

namespace ElasticTree

open Shape

namespace Tree

variable {K V : Type} {tree : Tree K V} {position : Position} {link : Link} {shape hole : Shape}
  {context : Context} {id : NodeId}

namespace Unfolds

/-! ## What the roles record -/

theorem seat_eq (h : tree.Unfolds position link shape) :
    tree.layout.seat? link = some position := by
  cases h with
  | leaf live placed ring => simp [Layout.seat?, placement_layout live, placed]
  | branch live used position_eq unfolds_left unfolds_right =>
      simp [Layout.seat?, branch_layout live, used, position_eq]

theorem split_eq (h : tree.Unfolds position link shape) {fork : NodeId × Int} {slot : Position}
    (hfork : fork ∈ (shape.role slot).forks) : tree.layout.split? fork.1 = some fork.2 := by
  cases h with
  | leaf live placed ring => simp [role] at hfork
  | branch live used position_eq unfolds_left unfolds_right =>
      simp only [role, Role.forks_branch, List.mem_singleton] at hfork
      simp [hfork, Layout.split?, branch_layout live, used]

/-- A branch has stored what hangs on each of its sides. -/
theorem close {frame : Frame}
    (h : tree.Unfolds position (frame.close hole).link (frame.close hole)) :
    tree.Unfolds (.under frame.owner frame.side) hole.link hole ∧
      ∃ branch, tree.layout.branch frame.owner = some branch ∧
        branch.position = position ∧ branch.child frame.side = hole.link := by
  obtain ⟨owner, split, side, sibling⟩ := frame
  cases side with
  | left =>
      cases h with
      | branch live used position_eq unfolds_left unfolds_right =>
          exact ⟨unfolds_left.link_eq ▸ unfolds_left, _, (branch_layout live).trans used,
            position_eq, unfolds_left.link_eq⟩
  | right =>
      cases h with
      | branch live used position_eq unfolds_left unfolds_right =>
          exact ⟨unfolds_right.link_eq ▸ unfolds_right, _, (branch_layout live).trans used,
            position_eq, unfolds_right.link_eq⟩

/-- What hangs in the hole of a context unfolds from the slot there. -/
theorem plug (h : tree.Unfolds .root (context.plug hole).link (context.plug hole)) :
    tree.Unfolds context.position hole.link hole := by
  induction context generalizing hole with
  | nil => exact h
  | cons frame outer ih => exact (ih h).close.1

/-- Wherever a link is met, the records lead the same way up. -/
theorem meetsOnce (h : tree.Unfolds .root shape.link shape) : shape.MeetsOnce := by
  intro first
  induction first with
  | nil =>
      rintro second hole other rfl hsecond hlink
      cases second with
      | nil => rfl
      | cons frame outer =>
          have hroot : tree.layout.seat? hole.link = some .root := seat_eq h
          rw [← hsecond] at h
          rw [hlink, h.plug.seat_eq] at hroot
          simp [Context.position] at hroot
  | cons frame outer ih =>
      rintro second hole other hfirst hsecond hlink
      have hseat : tree.layout.seat? hole.link = some (.under frame.owner frame.side) := by
        rw [← hfirst] at h
        exact h.plug.seat_eq
      have hseat' : tree.layout.seat? hole.link = some second.position := by
        rw [← hsecond] at h
        rw [hlink]
        exact h.plug.seat_eq
      rw [hseat, Option.some.injEq] at hseat'
      cases second with
      | nil => simp [Context.position] at hseat'
      | cons frame' outer' =>
          obtain ⟨howner, hside⟩ : frame.owner = frame'.owner ∧ frame.side = frame'.side := by
            simpa [Context.position] using hseat'
          have houter := ih outer' (frame.close hole) (frame'.close other) hfirst hsecond
            (by rw [Frame.link_close, Frame.link_close, howner])
          simp only [Context.sides, List.map_cons, hside]
          exact congrArg _ houter

/-! ## Rings -/

theorem rings (h : tree.Unfolds position link shape) :
    ∀ ring ∈ shape.rings, Ring.Cycle tree.nodes ring.1 ring.2 := by
  induction h with
  | leaf live placed cycle =>
      intro ring hring
      rw [Shape.rings, List.mem_singleton] at hring
      rw [hring]
      exact cycle
  | branch live used position_eq unfolds_left unfolds_right hleft hright =>
      intro ring hring
      rw [Shape.rings, List.mem_append] at hring
      exact hring.elim (hleft ring) (hright ring)

theorem placed (h : tree.Unfolds position link shape) (hid : id ∈ shape.leaves) :
    ∃ slot, tree.layout.placement id = .placed slot := by
  induction h with
  | leaf live placed ring =>
      rw [leaves, List.mem_singleton] at hid
      exact ⟨_, hid ▸ (placement_layout live).trans placed⟩
  | branch live used position_eq unfolds_left unfolds_right hleft hright =>
      rw [leaves, List.mem_append] at hid
      exact hid.elim hleft hright

theorem used (h : tree.Unfolds position link shape) (hid : id ∈ shape.owners) :
    tree.layout.branch id ≠ none := by
  induction h with
  | leaf live placed ring => simp [owners] at hid
  | branch live used position_eq unfolds_left unfolds_right hleft hright =>
      rw [owners, List.mem_cons, List.mem_append] at hid
      rcases hid with rfl | hid | hid
      · simp [branch_layout live, used]
      · exact hleft hid
      · exact hright hid

theorem live (h : tree.Unfolds position link shape) (hid : id ∈ shape.members) :
    tree.nodes.Live id := by
  induction h with
  | leaf live placed ring => exact (Ring.cycle_iff.mp ring).2 id hid
  | branch live used position_eq unfolds_left unfolds_right hleft hright =>
      rw [members, List.mem_append] at hid
      exact hid.elim hleft hright

/-- What is chained behind one leaf is not chained behind another. -/
theorem members_nodup (h : tree.Unfolds .root shape.link shape)
    (hchained : ∀ id ∈ shape.chained, tree.layout.IsChained id) : shape.members.Nodup := by
  have happart : ∀ id ∈ shape.leaves, ∀ other ∈ shape.chained, id ≠ other := by
    rintro id hid other hother rfl
    obtain ⟨slot, hslot⟩ := h.placed hid
    have := hchained id hother
    rw [Layout.IsChained, hslot] at this
    cases this
  have hleaves := h.meetsOnce.leaves_nodup
  rw [(members_perm _).nodup_iff, List.nodup_append]
  refine ⟨hleaves, ?_, happart⟩
  have hheads : ∀ ring ∈ shape.rings, ∀ ring' ∈ shape.rings, ring.1 ∉ ring'.2 := by
    intro ring hring ring' hring' hmem
    refine happart ring.1 ?_ ring.1 ?_ rfl
    · rw [leaves_eq_map]
      exact List.mem_map.mpr ⟨ring, hring, rfl⟩
    · rw [chained_eq_flatMap]
      exact List.mem_flatMap.mpr ⟨ring', hring', hmem⟩
  -- the heads of the rings are distinct, and a shared member would lead back to both
  rw [chained_eq_flatMap, List.nodup_flatMap]
  refine ⟨fun ring hring => (List.nodup_cons.mp (h.rings ring hring).nodup).2, ?_⟩
  rw [leaves_eq_map, List.Nodup, List.pairwise_map] at hleaves
  refine hleaves.imp_of_mem fun {ring ring'} hring hring' hne id hid hid' => hne ?_
  exact (Ring.cycle_iff.mp (h.rings ring hring)).1.head_eq
    (Ring.cycle_iff.mp (h.rings ring' hring')).1 (hheads ring hring ring' hring')
    (hheads ring' hring' ring hring) hid hid'

/-! ## The layout -/

/-- Each role is found in the slot that it records. -/
theorem slot_eq (h : tree.Unfolds .root shape.link shape) (hroot : tree.root = some shape.link)
    (role : Role) (hrole : role ∈ shape.roles .root) :
    tree.layout.slot? role.wire.1 = some role.wire.2 := by
  obtain ⟨context, part, hplug, rfl⟩ := exists_plug_of_mem_roles [] hrole
  obtain rfl : context.plug part = shape := hplug
  rw [wire_role]
  cases context with
  | nil => exact hroot
  | cons frame outer =>
      have hclose :
          tree.Unfolds (Context.position outer) (frame.close part).link (frame.close part) :=
        plug h
      obtain ⟨-, branch, hbranch, -, hchild⟩ := hclose.close
      simp [Layout.slot?, Context.position, hbranch, hchild]

theorem wires (h : tree.Unfolds .root shape.link shape) (hroot : tree.root = some shape.link)
    (hleaves : ∀ id slot, tree.layout.placement id = .placed slot → id ∈ shape.leaves)
    (howners : ∀ id, tree.layout.branch id ≠ none → id ∈ shape.owners) :
    tree.layout.Wires (shape.roles .root) where
  slot := by
    apply IsGraph.of_domain
    · intro pair hpair
      obtain ⟨role, hrole, rfl⟩ := List.mem_map.mp hpair
      exact h.slot_eq hroot role hrole
    · intro slot hslot
      rw [List.map_map, List.mem_map]
      cases slot with
      | root => exact ⟨shape.role .root, roles_eq_cons _ shape ▸ List.mem_cons_self, by simp⟩
      | under owner side =>
          exact exists_role_under side .root (howners owner (Layout.hasSlot_of_slot? hslot))
  seat := by
    apply IsGraph.of_domain
    · intro pair hpair
      obtain ⟨role, hrole, rfl⟩ := List.mem_map.mp hpair
      obtain ⟨context, part, hplug, rfl⟩ := exists_plug_of_mem_roles [] hrole
      obtain rfl : context.plug part = shape := hplug
      rw [backWire_role]
      exact h.plug.seat_eq
    · intro link hlink
      rw [List.map_map]
      show link ∈ shape.links .root
      rw [(links_perm _ _).mem_iff, List.mem_append]
      cases link with
      | leaf id =>
          obtain ⟨slot, hslot⟩ := Option.ne_none_iff_exists'.mp hlink
          exact .inl (List.mem_map_of_mem (hleaves id slot (by simpa [Layout.seat?] using hslot)))
      | branch id =>
          exact .inr (List.mem_map_of_mem (howners id (Layout.seat?_branch_ne_none_iff.mp hlink)))
  fork := by
    apply IsGraph.of_domain
    · intro fork hmem
      obtain ⟨role, hrole, hfork⟩ := List.mem_flatMap.mp hmem
      obtain ⟨context, part, hplug, rfl⟩ := exists_plug_of_mem_roles [] hrole
      obtain rfl : context.plug part = shape := hplug
      exact h.plug.split_eq hfork
    · intro owner howner
      have hmem := howners owner (Layout.branch_ne_none_iff.mpr howner)
      obtain ⟨context, split, left, right, hplug⟩ := exists_plug_of_mem_owners hmem
      have hrole : Role.branch context.position owner split ∈ shape.roles .root := by
        rw [hplug, (roles_plug _ _).mem_iff]
        simp [roles]
      exact List.mem_map.mpr ⟨(owner, split), List.mem_flatMap.mpr ⟨_, hrole, by simp⟩, rfl⟩
  links_nodup := h.meetsOnce.links_nodup .root

end Unfolds

/-! ## Standing -/

namespace FormsWith

variable {shape : Option Shape}

private theorem mem_leaves (h : tree.FormsWith shape) {slot : Position}
    (hplaced : tree.layout.placement id = .placed slot) : ∃ found ∈ shape, id ∈ found.leaves := by
  have hlinked : tree.layout.placement id ≠ .detached := by simp [hplaced]
  obtain ⟨node, hnode⟩ := Option.isSome_iff_exists.mp (live_of_placement hlinked)
  exact h.placed_reached id node slot hnode ((placement_layout hnode).symm.trans hplaced)

private theorem mem_owners (h : tree.FormsWith shape) (hbranch : tree.layout.branch id ≠ none) :
    ∃ found ∈ shape, id ∈ found.owners := by
  obtain ⟨node, hnode⟩ := Option.isSome_iff_exists.mp (live_of_branch hbranch)
  exact h.branch_reached id node hnode (branch_layout hnode ▸ hbranch)

private theorem mem_chained (h : tree.FormsWith shape) (hchained : tree.layout.IsChained id) :
    ∃ found ∈ shape, id ∈ found.chained := by
  have hlinked : tree.layout.placement id ≠ .detached := by
    rw [hchained]
    simp
  obtain ⟨node, hnode⟩ := Option.isSome_iff_exists.mp (live_of_placement hlinked)
  exact (h.chained_iff id node hnode).mp ((placement_layout hnode).symm.trans hchained)

/-- A name without a role is alone. -/
private theorem alone (h : tree.FormsWith shape)
    (hid : ∀ found ∈ shape, id ∉ found.members) : tree.layout.ring id = .alone id := by
  cases hnode : tree.nodes.get? id with
  | none => simp [layout, Ring.table, hnode]
  | some node =>
      rw [ring_layout hnode]
      cases hplacement : node.placement with
      | detached => exact (h.detached_alone id node hnode hplacement).2
      | placed slot =>
          obtain ⟨found, hfound, hleaf⟩ := h.placed_reached id node slot hnode hplacement
          exact absurd (mem_members_iff.mpr (.inl hleaf)) (hid found hfound)
      | chained =>
          obtain ⟨found, hfound, hmem⟩ := (h.chained_iff id node hnode).mp hplacement
          exact absurd (mem_members_iff.mpr (.inr hmem)) (hid found hfound)

/-- Nothing hangs from the root, and no node records a role. -/
private theorem carries_nil (h : tree.FormsWith none) : tree.layout.Carries [] := by
  have hplacement : ∀ id slot, tree.layout.placement id ≠ .placed slot :=
    fun id slot hplaced => by simpa using h.mem_leaves hplaced
  have hbranch : ∀ id, tree.layout.branch id = none := by
    intro id
    by_contra hbranch
    simpa using h.mem_owners hbranch
  refine ⟨⟨fun slot link => ?_, fun link slot => ?_, fun owner split => ?_, by simp⟩, by simp,
    fun id => ?_, fun id _ => h.alone (by simp), by simp⟩
  · have hroot : tree.layout.root = none := h.unfolds
    cases slot <;> simp [Layout.slot?, hroot, hbranch]
  · cases link <;> simp [Layout.seat?, hplacement, hbranch]
  · simp [Layout.split?, hbranch]
  · exact iff_of_false (fun hchained => by simpa using h.mem_chained hchained) (by simp)

private theorem carries {found : Shape} (h : tree.FormsWith (some found)) :
    tree.layout.Carries (found.roles .root) := by
  obtain ⟨link, hroot, hunfolds⟩ := h.unfolds
  obtain rfl := hunfolds.link_eq
  have hchained : ∀ id ∈ found.chained, tree.layout.IsChained id := by
    intro id hid
    obtain ⟨node, hnode⟩ := Option.isSome_iff_exists.mp
      (hunfolds.live (mem_members_iff.mpr (.inr hid)))
    exact (placement_layout hnode).trans ((h.chained_iff id node hnode).mpr ⟨found, rfl, hid⟩)
  refine ⟨hunfolds.wires hroot (fun id slot hplaced => ?_) (fun id hbranch => ?_), ?_, fun id => ?_,
    fun id hid => ?_, ?_⟩
  · simpa using h.mem_leaves hplaced
  · simpa using h.mem_owners hbranch
  · rw [flatMap_rings_roles]
    exact fun ring hring => (Ring.cycle_iff.mp (hunfolds.rings ring hring)).1
  · rw [flatMap_chained_roles]
    exact ⟨fun hmem => by simpa using h.mem_chained hmem, hchained id⟩
  · rw [flatMap_members_roles] at hid
    exact h.alone (by simpa using hid)
  · rw [flatMap_members_roles]
    exact hunfolds.members_nodup hchained

/-- What a tree forms, it stands as. -/
theorem stands (h : tree.FormsWith shape) (hsound : tree.nodes.Sound) : tree.Stands shape where
  sound := hsound
  draws := by
    refine ⟨?_, h.covered⟩
    cases shape with
    | none => exact h.carries_nil
    | some found => exact h.carries
  linked_eq := by
    rw [h.linked_eq]
    cases shape <;> rfl

end FormsWith

end Tree

end ElasticTree
