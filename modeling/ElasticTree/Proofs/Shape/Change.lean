import ElasticTree.Proofs.Shape.Context
import Mathlib.Tactic.Tauto

/-!
# What linking and unlinking do to a shape

`Adds` and `Removes` relate the shape before a change to the one after it.  A
node that goes may have owned a branch elsewhere in the shape, so unlinking also
hands that branch over to another owner (`reown`).  Owners do not show in the
order of the nodes; what has to be seen of them is that every branch still lies
above the leaf of its owner (`Removes.covered`).
-/

namespace ElasticTree

namespace Shape

variable {id heir old new : NodeId} {shape : Shape} {context : Context}

/-! ## Handing branches over -/

/-- Every branch of `old` becomes one of `new`. -/
def reown (old new : NodeId) : Shape → Shape
  | leaf head behind => leaf head behind
  | branch owner split left right =>
      branch (if owner = old then new else owner) split (left.reown old new) (right.reown old new)

@[simp] theorem leaves_reown : (shape.reown old new).leaves = shape.leaves := by
  induction shape with
  | leaf head behind => rfl
  | branch owner split left right hleft hright => simp [reown, leaves, hleft, hright]

@[simp] theorem members_reown : (shape.reown old new).members = shape.members := by
  induction shape with
  | leaf head behind => rfl
  | branch owner split left right hleft hright => simp [reown, members, hleft, hright]

@[simp] theorem chained_reown : (shape.reown old new).chained = shape.chained := by
  induction shape with
  | leaf head behind => rfl
  | branch owner split left right hleft hright => simp [reown, chained, hleft, hright]

@[simp] theorem splits_reown : (shape.reown old new).splits = shape.splits := by
  induction shape with
  | leaf head behind => rfl
  | branch owner split left right hleft hright => simp [reown, splits, hleft, hright]

theorem reown_of_not_mem (h : old ∉ shape.owners) : shape.reown old new = shape := by
  induction shape with
  | leaf head behind => rfl
  | branch owner split left right hleft hright =>
      simp only [owners, List.mem_cons, List.mem_append, not_or] at h
      rw [reown, if_neg (Ne.symm h.1), hleft h.2.1, hright h.2.2]

@[simp] theorem reown_self : shape.reown old old = shape := by
  induction shape with
  | leaf head behind => rfl
  | branch owner split left right hleft hright =>
      simp only [reown, hleft, hright]
      split <;> simp_all

/-- The owner of a branch lies below it. -/
theorem Covered.owners_subset (h : shape.Covered) :
    ∀ owner ∈ shape.owners, owner ∈ shape.leaves := by
  induction shape with
  | leaf head behind => simp [owners]
  | branch owner split left right hleft hright =>
      obtain ⟨howner, hleft', hright'⟩ := h
      intro id hid
      rw [owners, List.mem_cons, List.mem_append] at hid
      rw [leaves, List.mem_append]
      rcases hid with rfl | hid | hid
      · exact List.mem_append.mp howner
      · exact .inl (hleft hleft' id hid)
      · exact .inr (hright hright' id hid)

/-- The node that a link addresses lies below it. -/
theorem Covered.link_mem (h : shape.Covered) : shape.link.node ∈ shape.members := by
  cases shape with
  | leaf head behind => exact List.mem_cons_self
  | branch owner split left right => exact mem_members_iff.mpr (.inl h.1)

namespace Context

/-- Every branch of `old` becomes one of `new`. -/
def reown (old new : NodeId) : Context → Context
  | [] => []
  | frame :: outer =>
      { frame with
        owner := if frame.owner = old then new else frame.owner
        sibling := frame.sibling.reown old new } :: reown old new outer

/-- Every branch outside the hole lies above the leaf of its owner, where the
hole holds `below`. -/
def Covers : Context → List NodeId → Prop
  | [], _ => True
  | frame :: outer, below =>
      frame.owner ∈ below ++ frame.sibling.leaves ∧ frame.sibling.Covered ∧
        Covers outer (below ++ frame.sibling.leaves)

@[simp] theorem owners_cons (frame : Frame) (outer : Context) :
    owners (frame :: outer) = frame.owner :: (frame.sibling.owners ++ outer.owners) := by
  simp [owners, roles]

@[simp] theorem leaves_cons (frame : Frame) (outer : Context) :
    leaves (frame :: outer) = frame.sibling.leaves ++ outer.leaves := by
  simp [leaves, roles]

theorem reown_of_not_mem (h : old ∉ context.owners) : context.reown old new = context := by
  induction context with
  | nil => rfl
  | cons frame outer ih =>
      rw [owners_cons, List.mem_cons, List.mem_append, not_or, not_or] at h
      rw [reown, ih h.2.2, if_neg (Ne.symm h.1), Shape.reown_of_not_mem h.2.1]

/-- The hole may hold other leaves than before, if those lost were no owners, and
if the owner that is replaced gives way to one among them. -/
theorem Covers.reown {below below' : List NodeId} (h : context.Covers below)
    (hkeep : ∀ id ∈ below, id ≠ old → id ∈ below') (hold : old ∉ context.leaves)
    (hnew : old ∈ context.owners → new ∈ below') : (context.reown old new).Covers below' := by
  induction context generalizing below below' with
  | nil => trivial
  | cons frame outer ih =>
      obtain ⟨howner, hsibling, houter⟩ := h
      rw [leaves_cons, List.mem_append, not_or] at hold
      rw [owners_cons, List.mem_cons, List.mem_append] at hnew
      have hsame : frame.sibling.reown old new = frame.sibling :=
        Shape.reown_of_not_mem fun hmem => hold.1 (hsibling.owners_subset old hmem)
      rw [Context.reown, hsame]
      refine ⟨?_, hsibling, ih houter (fun id hid hne => ?_) hold.2 fun hmem => ?_⟩
      · split
        · rename_i heq
          exact List.mem_append_left _ (hnew (.inl heq.symm))
        · rename_i hne
          exact (List.mem_append.mp howner).elim
            (fun hmem => List.mem_append_left _ (hkeep _ hmem hne))
            fun hmem => List.mem_append_right _ hmem
      · exact (List.mem_append.mp hid).elim (fun hmem => List.mem_append_left _ (hkeep _ hmem hne))
          fun hmem => List.mem_append_right _ hmem
      · exact List.mem_append_left _ (hnew (.inr (.inr hmem)))

theorem Covers.mono {below below' : List NodeId} (h : context.Covers below)
    (hsub : ∀ id ∈ below, id ∈ below') : context.Covers below' := by
  induction context generalizing below below' with
  | nil => trivial
  | cons frame outer ih =>
      have hsub' : ∀ id ∈ below ++ frame.sibling.leaves, id ∈ below' ++ frame.sibling.leaves :=
        fun id hid => (List.mem_append.mp hid).elim
          (fun hmem => List.mem_append_left _ (hsub id hmem)) (List.mem_append_right _)
      exact ⟨hsub' _ h.1, h.2.1, ih h.2.2 hsub'⟩

end Context

theorem reown_plug (context : Context) (hole : Shape) :
    (context.plug hole).reown old new = (context.reown old new).plug (hole.reown old new) := by
  induction context generalizing hole with
  | nil => rfl
  | cons frame outer ih =>
      obtain ⟨owner, split, side, sibling⟩ := frame
      cases side <;> exact ih _

theorem covered_plug_iff {hole : Shape} :
    (context.plug hole).Covered ↔ hole.Covered ∧ context.Covers hole.leaves := by
  induction context generalizing hole with
  | nil => exact (and_iff_left trivial).symm
  | cons frame outer ih =>
      rw [Context.plug, ih]
      obtain ⟨owner, split, side, sibling⟩ := frame
      cases side with
      | left =>
          simp only [Frame.close, Covered, Context.Covers, leaves]
          tauto
      | right =>
          have hswap : Context.Covers outer (sibling.leaves ++ hole.leaves) ↔
              Context.Covers outer (hole.leaves ++ sibling.leaves) :=
            ⟨fun h => h.mono fun id => by simp only [List.mem_append]; exact Or.symm,
              fun h => h.mono fun id => by simp only [List.mem_append]; exact Or.symm⟩
          simp only [Frame.close, Covered, Context.Covers, leaves, hswap, List.mem_append]
          tauto

/-! ## Unlinking -/

/-- A node goes: the only one there is, one that is chained, the head of a ring,
or a leaf alone under a branch. -/
inductive Removes (id : NodeId) : Shape → Option Shape → Prop where
  | last : Removes id (leaf id []) none
  | member (context : Context) (head : NodeId) (front back : List NodeId) :
      Removes id (context.plug (leaf head (front ++ id :: back)))
        (some (context.plug (leaf head (front ++ back))))
  | head (context : Context) (heir : NodeId) (behind : List NodeId) :
      Removes id (context.plug (leaf id (heir :: behind)))
        (some ((context.plug (leaf heir behind)).reown id heir))
  | single (frame : Frame) (outer : Context) :
      Removes id (outer.plug (frame.close (leaf id [])))
        (some ((outer.plug frame.sibling).reown id frame.owner))

/-- Every node of a shape can go from it. -/
theorem exists_removes (h : id ∈ shape.members) : ∃ after, Removes id shape after := by
  obtain ⟨context, head, behind, rfl, hmem⟩ := exists_plug_of_mem_members h
  -- a leaf with others behind it leaves its place to the next of them, and one without
  -- goes with the branch above it, if there is one
  rcases List.mem_cons.mp hmem with rfl | hmem
  · cases behind with
    | nil =>
        cases context with
        | nil => exact ⟨_, .last⟩
        | cons frame outer => exact ⟨_, .single frame outer⟩
    | cons heir behind => exact ⟨_, .head context heir behind⟩
  · obtain ⟨front, back, rfl⟩ := List.append_of_mem hmem
    exact ⟨_, .member context head front back⟩

/-- Of the order of the nodes, nothing changes but that the node is missing. -/
theorem Removes.members {after : Option Shape} (h : Removes id shape after) :
    ∃ front back, shape.members = front ++ id :: back ∧
      after.elim [] Shape.members = front ++ back := by
  cases h with
  | last => exact ⟨[], [], rfl, rfl⟩
  | member context head front back =>
      refine ⟨context.before ++ head :: front, back ++ context.after, ?_, ?_⟩
      · simp [members_plug, Shape.members]
      · simp [members_plug, Shape.members]
  | head context heir behind =>
      refine ⟨context.before, heir :: behind ++ context.after, ?_, ?_⟩
      · simp [members_plug, Shape.members]
      · simp [members_plug, Shape.members]
  | single frame outer =>
      refine ⟨outer.before ++ frame.before, frame.after ++ outer.after, ?_, ?_⟩
      · simp [members_plug, Frame.members_close, Shape.members]
      · simp only [Option.elim_some, members_reown, members_plug]
        obtain ⟨owner, split, side, sibling⟩ := frame
        cases side <;> simp [Frame.before, Frame.after]

theorem Removes.mem {after : Option Shape} (h : Removes id shape after) : id ∈ shape.members := by
  obtain ⟨front, back, hbefore, -⟩ := h.members
  simp [hbefore]

/-- No split comes with a node that goes. -/
theorem Removes.splits_subset {after : Option Shape} (h : Removes id shape after) :
    ∀ split ∈ after.elim [] Shape.splits, split ∈ shape.splits := by
  intro split hsplit
  cases h with
  | last => simp at hsplit
  | member context head front back =>
      rw [Option.elim_some, (splits_plug _ _).mem_iff] at hsplit
      rwa [(splits_plug _ _).mem_iff]
  | head context heir behind =>
      rw [Option.elim_some, splits_reown, (splits_plug _ _).mem_iff] at hsplit
      rwa [(splits_plug _ _).mem_iff]
  | single frame outer =>
      rw [Option.elim_some, splits_reown, (splits_plug _ _).mem_iff, List.mem_append] at hsplit
      rw [(splits_plug _ _).mem_iff, List.mem_append]
      refine hsplit.imp_left fun hsplit => ?_
      obtain ⟨owner, split', side, sibling⟩ := frame
      cases side <;> simp [Frame.close, Shape.splits, hsplit]

/-- Whoever owns a branch afterwards has its leaf below it. -/
theorem Removes.covered {after : Option Shape} (h : Removes id shape after)
    (hcovered : shape.Covered) (hleaves : shape.leaves.Nodup) (howners : shape.owners.Nodup) :
    ∀ found ∈ after, found.Covered := by
  intro found hfound
  cases h with
  | last => simp at hfound
  | member context head front back =>
      rw [Option.mem_some_iff] at hfound
      subst hfound
      rw [covered_plug_iff] at hcovered ⊢
      exact hcovered
  | head context heir behind =>
      rw [Option.mem_some_iff] at hfound
      subst hfound
      rw [(leaves_plug _ _).nodup_iff, leaves, List.singleton_append, List.nodup_cons] at hleaves
      rw [reown_plug, covered_plug_iff]
      -- the heir is the leaf in the hole now, in place of the only one that is missing there
      refine ⟨trivial, (covered_plug_iff.mp hcovered).2.reown (fun other hother hne => ?_) hleaves.1
        fun _ => by simp [reown, leaves]⟩
      exact absurd (List.mem_singleton.mp hother) hne
  | single frame outer =>
      rw [Option.mem_some_iff] at hfound
      subst hfound
      replace hcovered : (Context.plug (frame :: outer) (leaf id [])).Covered := hcovered
      replace hleaves := (leaves_plug (frame :: outer) (leaf id [])).nodup_iff.mp hleaves
      replace howners := (owners_plug (frame :: outer) (leaf id [])).nodup_iff.mp howners
      obtain ⟨howner, hsibling, houter⟩ := (covered_plug_iff.mp hcovered).2
      rw [leaves, Context.leaves_cons, List.singleton_append, List.nodup_cons, List.mem_append,
        not_or] at hleaves
      rw [owners, Context.owners_cons, List.nil_append, List.nodup_cons, List.mem_append,
        not_or] at howners
      have hsame : frame.sibling.reown id frame.owner = frame.sibling :=
        reown_of_not_mem fun hmem => hleaves.1.1 (hsibling.owners_subset id hmem)
      rw [reown_plug, hsame, covered_plug_iff]
      -- the owner of the branch that goes lies on the other side of it, unless it was `id`,
      -- and then `id` owned no branch further up
      refine ⟨hsibling, houter.reown (fun other hother hne => ?_) hleaves.1.2 fun hmem => ?_⟩
      · exact (List.mem_append.mp hother).resolve_left fun hmem => hne (List.mem_singleton.mp hmem)
      · refine (List.mem_append.mp howner).resolve_left fun heq => ?_
        rw [leaves, List.mem_singleton] at heq
        exact howners.1.2 (heq ▸ hmem)

/-! ## Linking -/

/-- A node comes: the first one, one behind the others of a ring, or a leaf beside
what hangs from a slot, under a branch of its own. -/
inductive Adds (id : NodeId) : Option Shape → Shape → Prop where
  | first : Adds id none (leaf id [])
  | last (context : Context) (head : NodeId) (behind : List NodeId) :
      Adds id (some (context.plug (leaf head behind))) (context.plug (leaf head (behind ++ [id])))
  | beside (context : Context) (hole : Shape) (side : Side) (split : Int) :
      Adds id (some (context.plug hole))
        (context.plug (Frame.close ⟨id, split, side.opposite, leaf id []⟩ hole))

/-- What came can go again, and leaves what there was.  The branch that came with
it is its own, so none has to be handed over. -/
theorem Adds.removes {before : Option Shape} (h : Adds id before shape) :
    Removes id shape before := by
  cases h with
  | first => exact .last
  | last context head behind =>
      have hremoves : Removes id _ _ := .member context head behind []
      rwa [List.append_nil] at hremoves
  | beside context hole side split =>
      have hremoves : Removes id _ _ := .single ⟨id, split, side, hole⟩ context
      rw [reown_self] at hremoves
      cases side <;> exact hremoves

/-- Of the order of the nodes, nothing changes but that the node is there. -/
theorem Adds.members {before : Option Shape} (h : Adds id before shape) :
    ∃ front back, before.elim [] Shape.members = front ++ back ∧
      shape.members = front ++ id :: back := by
  obtain ⟨front, back, hafter, hbefore⟩ := h.removes.members
  exact ⟨front, back, hbefore, hafter⟩

end Shape

end ElasticTree
