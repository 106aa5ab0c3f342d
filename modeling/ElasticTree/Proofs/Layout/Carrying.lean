import ElasticTree.Proofs.Layout.Surgery

/-!
# Layouts that carry out roles

Besides its wiring, a layout says which nodes are chained and how the rings run.
`Carries` asks of all of it that it is as a list of roles says, and that no node
is met twice.  Roles may be listed in any order, so a change of a tree is a
change at the front of the list: each of the changes of `Layout` takes the roles
it finds there to those it leaves, and keeps whatever comes behind.
-/

namespace ElasticTree

open Shape

/-! ## Chained nodes -/

namespace Layout

variable {layout : Layout} {id other : NodeId} {position : Position} {link : Link}

/-- The placement says that the node is chained. -/
def IsChained (layout : Layout) (id : NodeId) : Prop := layout.placement id = .chained

theorem isChained_setPlacement {placement : Placement} :
    (layout.setPlacement id placement).IsChained other ↔
      if other = id then placement = .chained else layout.IsChained other := by
  unfold IsChained setPlacement
  by_cases h : other = id
  · subst h
    simp
  · simp [h]

@[simp] theorem isChained_setBranch {branch : Option Branch} :
    (layout.setBranch id branch).IsChained other ↔ layout.IsChained other := Iff.rfl

@[simp] theorem isChained_setRing {ring : Ring.Table} :
    (layout.setRing ring).IsChained other ↔ layout.IsChained other := Iff.rfl

@[simp] theorem isChained_setChild :
    (layout.setChild position link).IsChained other ↔ layout.IsChained other := by
  cases position <;> exact Iff.rfl

theorem isChained_setPosition :
    (layout.setPosition link position).IsChained other ↔
      link ≠ .leaf other ∧ layout.IsChained other := by
  cases link with
  | leaf head =>
      rw [setPosition, isChained_setPlacement]
      by_cases h : other = head
      · simp [h]
      · simp [h, Ne.symm h]
  | branch owner => simp [setPosition]

/-- What hangs from a slot is not chained. -/
theorem not_isChained_of_seat? (h : layout.seat? (.leaf id) ≠ none) : ¬ layout.IsChained id := by
  intro hchained
  rw [IsChained] at hchained
  simp [seat?, hchained] at h

@[simp] theorem ring_setPlacement {placement : Placement} :
    (layout.setPlacement id placement).ring = layout.ring := rfl

@[simp] theorem ring_setBranch {branch : Option Branch} :
    (layout.setBranch id branch).ring = layout.ring := rfl

@[simp] theorem ring_setRing {ring : Ring.Table} : (layout.setRing ring).ring = ring := rfl

@[simp] theorem ring_setChild : (layout.setChild position link).ring = layout.ring := by
  cases position <;> rfl

@[simp] theorem ring_setPosition : (layout.setPosition link position).ring = layout.ring := by
  cases link <;> rfl

/-! ## Carrying out roles -/

/-- The layout is as the roles say, and they meet no node twice. -/
structure Carries (layout : Layout) (roles : List Role) : Prop where
  wires : layout.Wires roles
  rings : ∀ ring ∈ roles.flatMap Role.rings, Ring.Circle layout.ring ring.1 ring.2
  isChained_iff : ∀ id, layout.IsChained id ↔ id ∈ roles.flatMap Role.chained
  alone : ∀ id, id ∉ roles.flatMap Role.members → layout.ring id = .alone id
  nodup : (roles.flatMap Role.members).Nodup

namespace Carries

variable {roles roles' rest : List Role} {head : NodeId} {behind : List NodeId}

theorem perm (h : layout.Carries roles) (hperm : roles.Perm roles') : layout.Carries roles' where
  wires := h.wires.perm hperm
  rings ring hring := h.rings ring ((hperm.flatMap_right _).mem_iff.mpr hring)
  isChained_iff id := (h.isChained_iff id).trans (hperm.flatMap_right _).mem_iff
  alone id hid := h.alone id fun hmem => hid ((hperm.flatMap_right _).mem_iff.mp hmem)
  nodup := (hperm.flatMap_right _).nodup_iff.mp h.nodup

/-- A leaf that is met is not chained. -/
private theorem not_isChained (h : layout.Carries roles) (role : Role) (hrole : role ∈ roles)
    (hlink : role.wire.2 = .leaf id) : ¬ layout.IsChained id := by
  refine not_isChained_of_seat? ?_
  rw [← hlink, h.wires.seat_of_mem _ hrole]
  simp

/-- A node that is neither placed nor chained is met nowhere. -/
theorem not_mem_members (h : layout.Carries roles) (hseat : layout.seat? (.leaf id) = none)
    (hchained : ¬ layout.IsChained id) : id ∉ roles.flatMap Role.members := by
  intro hmem
  obtain ⟨role, hrole, hid⟩ := List.mem_flatMap.mp hmem
  cases role with
  | branch position owner split => simp [Role.members] at hid
  | leaf position head behind =>
      rw [Role.members, List.mem_cons] at hid
      rcases hid with rfl | hid
      · have := h.wires.seat_of_mem _ hrole
        simp [hseat] at this
      · exact hchained ((h.isChained_iff id).mpr (List.mem_flatMap.mpr ⟨_, hrole, hid⟩))

private theorem chained_subset {roles : List Role} {id : NodeId}
    (h : id ∈ roles.flatMap Role.chained) : id ∈ roles.flatMap Role.members := by
  obtain ⟨role, hrole, hid⟩ := List.mem_flatMap.mp h
  refine List.mem_flatMap.mpr ⟨role, hrole, ?_⟩
  cases role with
  | leaf slot first others => exact List.mem_cons_of_mem _ hid
  | branch slot owner split => simp [Role.chained] at hid

private theorem ring_subset {roles : List Role} {ring : NodeId × List NodeId}
    (h : ring ∈ roles.flatMap Role.rings) :
    ∀ id ∈ ring.1 :: ring.2, id ∈ roles.flatMap Role.members := by
  intro id hid
  obtain ⟨role, hrole, hring⟩ := List.mem_flatMap.mp h
  refine List.mem_flatMap.mpr ⟨role, hrole, ?_⟩
  cases role with
  | leaf slot first others =>
      rw [Role.rings, List.mem_singleton] at hring
      subst hring
      exact hid
  | branch slot owner split => simp [Role.rings] at hring

/-- The members in front are not among the rest. -/
private theorem front_not_mem (h : layout.Carries (.leaf position head behind :: rest)) :
    ∀ id ∈ head :: behind, id ∉ rest.flatMap Role.members := by
  intro id hid hmem
  have hnodup := h.nodup
  rw [List.flatMap_cons] at hnodup
  exact (List.nodup_append.mp hnodup).2.2 _ hid _ hmem rfl

private theorem front_ring (h : layout.Carries (.leaf position head behind :: rest)) :
    Ring.Circle layout.ring head behind :=
  h.rings (head, behind) (List.mem_append_left _ (by simp [Role.rings]))

private theorem front_isChained (h : layout.Carries (.leaf position head behind :: rest)) :
    ∀ id ∈ head :: behind, (layout.IsChained id ↔ id ∈ behind) := by
  intro id hid
  rw [h.isChained_iff, List.flatMap_cons, Role.chained, List.mem_append]
  exact or_iff_left fun hmem => h.front_not_mem id hid (chained_subset hmem)

/-- A change to the leaf in front has to be looked at for the members that were
and are in its ring.  All others are left alone. -/
private theorem front {layout' : Layout} {position' : Position} {head' : NodeId}
    {behind' : List NodeId} (h : layout.Carries (.leaf position head behind :: rest))
    (hwires : layout'.Wires (.leaf position' head' behind' :: rest))
    (hring : Ring.Circle layout'.ring head' behind')
    (hnew : ∀ id ∈ head' :: behind', id ∉ rest.flatMap Role.members)
    (hin : ∀ id, id ∈ head :: behind ∨ id ∈ head' :: behind' →
      (layout'.IsChained id ↔ id ∈ behind'))
    (hleft : ∀ id ∈ head :: behind, id ∉ head' :: behind' → layout'.ring id = .alone id)
    (hout : ∀ id, id ∉ head :: behind → id ∉ head' :: behind' →
      (layout'.IsChained id ↔ layout.IsChained id) ∧ layout'.ring id = layout.ring id) :
    layout'.Carries (.leaf position' head' behind' :: rest) where
  wires := hwires
  rings ring hmem := by
    rw [List.flatMap_cons, Role.rings, List.singleton_append, List.mem_cons] at hmem
    rcases hmem with rfl | hmem
    · exact hring
    · refine (h.rings ring (List.mem_append_right _ hmem)).congr
        fun member hmember => (hout member ?_ ?_).2
      · exact fun hid => h.front_not_mem member hid (ring_subset hmem member hmember)
      · exact fun hid => hnew member hid (ring_subset hmem member hmember)
  isChained_iff id := by
    rw [List.flatMap_cons, Role.chained, List.mem_append]
    -- a node of either ring is met nowhere else, so it is chained by this ring or not at all
    by_cases hmem : id ∈ head :: behind ∨ id ∈ head' :: behind'
    · rw [hin id hmem]
      refine (or_iff_left fun hrest => ?_).symm
      rcases hmem with hmem | hmem
      · exact h.front_not_mem id hmem (chained_subset hrest)
      · exact hnew id hmem (chained_subset hrest)
    · rw [not_or] at hmem
      rw [(hout id hmem.1 hmem.2).1, h.isChained_iff, List.flatMap_cons, Role.chained,
        List.mem_append]
      have hbehind : id ∉ behind := fun hid => hmem.1 (List.mem_cons_of_mem _ hid)
      have hbehind' : id ∉ behind' := fun hid => hmem.2 (List.mem_cons_of_mem _ hid)
      simp [hbehind, hbehind']
  alone id hid := by
    rw [List.flatMap_cons, Role.members, List.mem_append, not_or] at hid
    by_cases hmem : id ∈ head :: behind
    · exact hleft id hmem hid.1
    · rw [(hout id hmem hid.1).2]
      refine h.alone id ?_
      rw [List.flatMap_cons, Role.members, List.mem_append, not_or]
      exact ⟨hmem, hid.2⟩
  nodup := by
    have hnodup := h.nodup
    rw [List.flatMap_cons] at hnodup ⊢
    refine List.nodup_append.mpr ⟨hring.nodup, (List.nodup_append.mp hnodup).2.1, ?_⟩
    rintro id hid other hother rfl
    exact hnew id hid hother

/-! ### Joining and leaving a ring -/

/-- A node joins the ring of the leaf in front at its end. -/
theorem chain (h : layout.Carries (.leaf position head behind :: rest))
    (hseat : layout.seat? (.leaf id) = none) (hchained : ¬ layout.IsChained id) :
    ((layout.setPlacement id .chained).setRing (layout.ring.append head id)).Carries
      (.leaf position head (behind ++ [id]) :: rest) := by
  have hid := h.not_mem_members hseat hchained
  rw [List.flatMap_cons, Role.members, List.mem_append, not_or] at hid
  have hring := h.front_ring
  refine h.front ?_ (hring.append hid.1) (fun other hother => ?_) (fun other hother => ?_)
    (fun other hmem hnot => ?_) (fun other hmem hnot => ?_)
  · exact (h.wires.congr (by simp) (by simp [seat?_setPlacement, hseat]) (by simp)).behind
  · rw [← List.cons_append, List.mem_append, List.mem_singleton] at hother
    rcases hother with hother | rfl
    · exact h.front_not_mem other hother
    · exact hid.2
  · rw [isChained_setRing, isChained_setPlacement]
    by_cases heq : other = id
    · simp [heq]
    · have hmem : other ∈ head :: behind := by simpa [heq] using hother
      simpa [heq] using h.front_isChained other hmem
  · exact absurd (List.mem_append_left [id] hmem) hnot
  · rw [← List.cons_append, List.mem_append, List.mem_singleton, not_or] at hnot
    refine ⟨by simp [isChained_setPlacement, hnot.2], ?_⟩
    refine Ring.Table.append_of_ne ?_ ?_ hnot.2
    · exact fun heq => hmem (heq ▸ List.mem_cons_self)
    · exact fun heq => hmem (heq ▸ hring.prev_head_mem)

/-- A node leaves the ring behind the leaf in front. -/
theorem unchain {before after : List NodeId}
    (h : layout.Carries (.leaf position head (before ++ id :: after) :: rest)) :
    ((layout.setRing (layout.ring.remove id)).setPlacement id .detached).Carries
      (.leaf position head (before ++ after) :: rest) := by
  have hring := h.front_ring
  have hlinks := hring.links_member
  have hsub : ∀ other ∈ head :: (before ++ after), other ∈ head :: (before ++ id :: after) := by
    intro other hother
    simp only [List.mem_cons, List.mem_append] at hother ⊢
    tauto
  have hid_not : id ∉ head :: (before ++ after) := by
    have := hring.nodup
    simp only [List.nodup_cons, List.nodup_append, List.mem_cons, List.mem_append, not_or] at this ⊢
    refine ⟨fun heq => this.1.2.1 heq.symm, fun hmem => ?_, this.2.2.1.1⟩
    exact this.2.2.2 id hmem id (.inl rfl) rfl
  have hid : layout.IsChained id := (h.front_isChained id (by simp)).mpr (by simp)
  refine h.front ?_ hring.remove_member (fun other hother => ?_) (fun other hother => ?_)
    (fun other hmem hnot => ?_) (fun other hmem hnot => ?_)
  · refine (h.wires.congr (by simp) (fun link => ?_) (by simp)).behind
    rw [seat?_setPlacement, seat?_setRing]
    split
    · rename_i heq
      rw [heq]
      simp [seat?, show layout.placement id = .chained from hid]
    · rfl
  · exact h.front_not_mem other (hsub other hother)
  · -- of those that were in the ring, only `id` changes its placement
    rw [isChained_setPlacement, isChained_setRing]
    by_cases heq : other = id
    · subst heq
      simpa using fun hmem => hid_not (List.mem_cons_of_mem _ (List.mem_append.mpr hmem))
    · have hmem : other ∈ head :: (before ++ id :: after) :=
        hother.elim (fun hmem => hmem) (hsub other)
      rw [if_neg heq, h.front_isChained other hmem]
      simp [heq]
  · have heq : other = id := by
      simp only [List.mem_cons, List.mem_append, not_or] at hmem hnot
      tauto
    rw [heq]
    exact Ring.Table.remove_self
  · -- the neighbours of `id` are members themselves, so no link of another node is written
    have heq : other ≠ id := fun heq => hmem (by simp [heq])
    refine ⟨by simp [isChained_setPlacement, heq], ?_⟩
    refine Ring.Table.remove_of_ne heq ?_ ?_
    · rw [hlinks.1]
      rintro rfl
      refine hnot ?_
      rw [← List.cons_append, List.mem_append]
      exact .inl (List.getLastD_mem_cons)
    · rw [hlinks.2]
      rintro rfl
      refine hnot ?_
      cases after <;> simp

/-- The head of a ring leaves it, and the next member takes the leaf over. -/
theorem promote {heir : NodeId} (h : layout.Carries (.leaf position id (heir :: behind) :: rest)) :
    ((layout.promote id heir position).setPlacement id .detached).Carries
      (.leaf position heir behind :: rest) := by
  have hring := h.front_ring
  have hnodup := hring.nodup
  rw [List.nodup_cons] at hnodup
  have hheir : layout.IsChained heir := (h.front_isChained heir (by simp)).mpr (by simp)
  have hseat : layout.seat? (.leaf heir) = none := by
    simp [seat?, show layout.placement heir = .chained from hheir]
  have hlinks := hring.rotate.links_member
  have hring_eq : ((layout.promote id heir position).setPlacement id .detached).ring =
      layout.ring.remove id := by
    simp [Layout.promote]
  refine h.front (h.wires.promote hseat) (hring_eq ▸ hring.remove_head) (fun other hother => ?_)
    (fun other hother => ?_) (fun other hmem hnot => ?_) (fun other hmem hnot => ?_)
  · exact h.front_not_mem other (List.mem_cons_of_mem _ hother)
  · simp only [Layout.promote, isChained_setPlacement, isChained_setChild, isChained_setRing,
      reduceCtorEq, if_false_left]
    have hmem : other ∈ id :: heir :: behind :=
      hother.elim (fun hmem => hmem) (List.mem_cons_of_mem _)
    have hheir_not := (List.nodup_cons.mp hnodup.2).1
    have := h.front_isChained other hmem
    grind
  · have heq : other = id := (List.mem_cons.mp hmem).resolve_right hnot
    rw [hring_eq, heq]
    exact Ring.Table.remove_self
  · have hid : other ≠ id := fun heq => hmem (by simp [heq])
    have hother : other ≠ heir := fun heq => hnot (by simp [heq])
    refine ⟨by simp [Layout.promote, isChained_setPlacement, hid, hother], ?_⟩
    rw [hring_eq]
    refine Ring.Table.remove_of_ne hid ?_ ?_
    · rw [hlinks.1]
      rintro rfl
      exact hnot List.getLastD_mem_cons
    · rw [hlinks.2]
      exact hother

/-! ### Growing and shrinking -/

/-- The wiring changes and the links of the rings do not.  A ring that comes has a
single member, and so has a ring that goes. -/
private theorem rewire {layout' : Layout} (h : layout.Carries roles) (hwires : layout'.Wires roles')
    (hring : layout'.ring = layout.ring)
    (hchained : ∀ id, layout'.IsChained id ↔ layout.IsChained id)
    (hrings : ∀ ring ∈ roles'.flatMap Role.rings, ring ∈ roles.flatMap Role.rings ∨
      ring.2 = [] ∧ layout.ring ring.1 = .alone ring.1)
    (hsame : roles'.flatMap Role.chained = roles.flatMap Role.chained)
    (hgone : ∀ id ∈ roles.flatMap Role.members, id ∉ roles'.flatMap Role.members →
      layout.ring id = .alone id)
    (hnodup : (roles'.flatMap Role.members).Nodup) : layout'.Carries roles' where
  wires := hwires
  rings ring hmem := by
    rw [hring]
    rcases hrings ring hmem with hmem | ⟨hbehind, halone⟩
    · exact h.rings ring hmem
    · exact hbehind ▸ Ring.Circle.nil_iff.mpr halone
  isChained_iff id := by rw [hchained, h.isChained_iff, hsame]
  alone id hid := by
    rw [hring]
    by_cases hmem : id ∈ roles.flatMap Role.members
    · exact hgone id hmem hid
    · exact h.alone id hmem
  nodup := hnodup

/-- A node is put above what hangs from a slot. -/
theorem splice {hole : Shape} (h : layout.Carries (hole.roles position ++ rest))
    (hbranch : layout.branch id = none) (hseat : layout.seat? (.leaf id) = none)
    (hchained : ¬ layout.IsChained id) (side : Side) (split : Int) :
    (layout.splice id position hole.link side split).Carries
      (.branch position id split :: .leaf (.under id side) id [] ::
        (hole.roles (.under id side.opposite) ++ rest)) := by
  have hid := h.not_mem_members hseat hchained
  have hlink : ∀ other, hole.link = .leaf other → ¬ layout.IsChained other :=
    fun other heq => h.not_isChained (hole.role position) (by simp [roles_eq_cons])
      (by rw [wire_role, heq])
  refine h.rewire (h.wires.splice hbranch hseat side split) ?_ (fun other => ?_) ?_ ?_ ?_ ?_
  · simp [Layout.splice, Function.update_eq_self_iff, h.alone id hid]
  · simp only [Layout.splice, isChained_setPosition, isChained_setChild, isChained_setRing,
      isChained_setBranch, isChained_setPlacement, reduceCtorEq, if_false_left]
    constructor
    · exact fun hother => hother.2.2
    · refine fun hother => ⟨fun heq => hlink other heq hother, ?_, hother⟩
      rintro rfl
      exact hchained hother
  · intro ring hmem
    simp only [List.flatMap_cons, List.flatMap_append, flatMap_rings_roles, Role.rings_branch,
      Role.rings_leaf, List.nil_append, List.singleton_append, List.mem_cons] at hmem ⊢
    rcases hmem with rfl | hmem
    · exact .inr ⟨rfl, h.alone id hid⟩
    · exact .inl hmem
  · simp
  · intro other hmem hnot
    simp only [List.flatMap_cons, List.flatMap_append, flatMap_members_roles, Role.members_branch,
      Role.members_leaf, List.nil_append, List.singleton_append, List.mem_cons, not_or] at hmem hnot
    exact absurd hmem hnot.2
  · have hnodup := h.nodup
    simp only [List.flatMap_cons, List.flatMap_append, flatMap_members_roles, Role.members_branch,
      Role.members_leaf, List.nil_append, List.singleton_append] at hnodup hid ⊢
    exact List.nodup_cons.mpr ⟨hid, hnodup⟩

/-- A leaf without a ring goes, and what hangs beside it moves up. -/
theorem lift {frame : Frame} {branch : Branch}
    (h : layout.Carries ((frame.close (.leaf id [])).roles position ++ rest))
    (hbranch : layout.branch frame.owner = some branch) :
    ((layout.lift frame.owner branch frame.side).setPlacement id .detached).Carries
      (frame.sibling.roles position ++ rest) := by
  obtain ⟨found, hfound, -, -, hsibling, -⟩ := h.wires.branch_close
  rw [hbranch, Option.some.injEq] at hfound
  subst hfound
  have hwires := h.wires.lift hbranch
  replace h := h.perm ((roles_close frame _ _).append_right rest)
  have hchained : ∀ other, ((layout.lift frame.owner branch frame.side).setPlacement id
      .detached).IsChained other ↔ layout.IsChained other := by
    have hid : ¬ layout.IsChained id :=
      h.not_isChained (.leaf (.under frame.owner frame.side) id []) (by simp [Shape.roles]) rfl
    have hlink : ∀ other, frame.sibling.link = .leaf other → ¬ layout.IsChained other :=
      fun other heq => h.not_isChained
        (frame.sibling.role (.under frame.owner frame.side.opposite))
        (by simp [roles_eq_cons _ frame.sibling]) (by rw [wire_role, heq])
    intro other
    rw [isChained_setPlacement, Layout.lift, isChained_setBranch, isChained_setChild,
      isChained_setPosition, hsibling]
    have := hlink other
    grind
  refine h.rewire hwires ?_ hchained ?_ ?_ ?_ ?_
  · simp [Layout.lift]
  · intro ring hmem
    simp only [List.flatMap_append, List.flatMap_cons, flatMap_rings_roles,
      List.mem_append] at hmem ⊢
    tauto
  · simp [Shape.chained]
  · intro other hmem hnot
    have heq : other = id := by
      simp only [List.flatMap_append, List.flatMap_cons, flatMap_members_roles, List.mem_append,
        Role.members_branch, List.nil_append, Shape.members, List.mem_singleton] at hmem hnot
      tauto
    rw [heq]
    exact Ring.Circle.nil_iff.mp (h.rings (id, []) (by simp [Shape.roles]))
  · have hnodup := h.nodup
    simp only [List.flatMap_append, List.flatMap_cons, flatMap_members_roles, Shape.members,
      Role.members_branch, List.nil_append, List.cons_append] at hnodup ⊢
    exact (List.nodup_cons.mp hnodup).2

/-- A branch is handed over to another node. -/
theorem relocate {spare : NodeId} {split : Int} {left right : Shape}
    (h : layout.Carries ((Shape.branch id split left right).roles position ++ rest))
    (hspare : layout.branch spare = none) :
    ((layout.setBranch id none).relocate ⟨position, left.link, right.link, split⟩ spare).Carries
      ((Shape.branch spare split left right).roles position ++ rest) := by
  have hleft : ∀ other, left.link = .leaf other → ¬ layout.IsChained other :=
    fun other heq => h.not_isChained (left.role (.under id .left))
      (by simp [Shape.roles, roles_eq_cons _ left]) (by rw [wire_role, heq])
  have hright : ∀ other, right.link = .leaf other → ¬ layout.IsChained other :=
    fun other heq => h.not_isChained (right.role (.under id .right))
      (by simp [Shape.roles, roles_eq_cons _ right]) (by rw [wire_role, heq])
  refine h.rewire (h.wires.relocate hspare) ?_ (fun other => ?_) ?_ ?_ ?_ ?_
  · simp [Layout.relocate]
  · rw [Layout.relocate, isChained_setPosition, isChained_setPosition, isChained_setChild,
      isChained_setBranch, isChained_setBranch]
    exact ⟨fun hother => hother.2.2,
      fun hother => ⟨fun heq => hright other heq hother, fun heq => hleft other heq hother, hother⟩⟩
  · exact fun ring hmem => .inl (by simpa [Shape.rings] using hmem)
  · simp [Shape.chained]
  · exact fun other hmem hnot => absurd (by simpa [Shape.members] using hmem) hnot
  · simpa [Shape.members] using h.nodup

/-! ### The only node -/

/-- The first node is linked. -/
theorem plant (h : layout.Carries []) (hseat : layout.seat? (.leaf id) = none)
    (hchained : ¬ layout.IsChained id) (hring : layout.ring id = .alone id) :
    ((layout.setPlacement id (.placed .root)).setChild .root (.leaf id)).Carries
      [.leaf .root id []] := by
  have hroot : layout.slot? .root = none := by simp [h.wires.slot.eq_none_iff]
  have hkept : (layout.setPlacement id (.placed .root)).HasSlot .root := trivial
  have hslot := slot?_setChild hkept (.leaf id)
  refine h.rewire ?_ (by simp) (fun other => ?_) (by simp [hring]) (by simp) (by simp) (by simp)
  · refine Wires.edit [] [.leaf .root id []] h.wires (by simp) ?_ ?_ ?_
    · constructor <;> simp [hslot, hroot]
      grind
    · constructor <;> simp [seat?_setPlacement, hseat]
      grind
    · constructor <;> simp
  · rw [isChained_setChild, isChained_setPlacement]
    by_cases heq : other = id
    · subst heq
      simpa using hchained
    · rw [if_neg heq]

/-- The only node is unlinked. -/
theorem uproot (h : layout.Carries [.leaf .root id []]) :
    ({ layout with root := none }.setPlacement id .detached).Carries [] := by
  have hslot : ∀ position, ({ layout with root := none } : Layout).slot? position =
      if position = .root then none else layout.slot? position := by
    intro position
    cases position <;> simp [slot?]
  have hseat : ∀ link, ({ layout with root := none } : Layout).seat? link = layout.seat? link := by
    intro link
    cases link <;> rfl
  have hsplit : ∀ owner, ({ layout with root := none } : Layout).split? owner =
      layout.split? owner :=
    fun owner => rfl
  have halone := Ring.Circle.nil_iff.mp h.front_ring
  refine h.rewire ?_ rfl (fun other => ?_) (by simp) (by simp) (by simp [halone]) (by simp)
  · refine Wires.edit [.leaf .root id []] [] h.wires (by simp) ?_ ?_ ?_
    · constructor <;> simp [hslot]
      grind
    · constructor <;> simp [seat?_setPlacement, hseat]
      grind
    · constructor <;> simp [hsplit]
  · have hid : ¬ layout.IsChained id := h.not_isChained _ List.mem_cons_self rfl
    rw [isChained_setPlacement]
    by_cases heq : other = id
    · subst heq
      simpa using hid
    · rw [if_neg heq]
      rfl

end Carries

end Layout

end ElasticTree
