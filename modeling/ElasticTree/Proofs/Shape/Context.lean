import ElasticTree.Shape.Basic

/-!
# A shape around a hole

The way from the root of a shape down to some point of it is a `Context`: a
list of frames, the innermost first, each of them a branch that is passed with
the side taken and what hangs on the other side.  `plug` puts a shape into the
hole.

Everything a shape says about its nodes is listed by `roles`: a leaf with the
slot it hangs from and the ring behind it, or a branch with its slot and its
split.  The roles of a plugged shape are those of the context and those of the
shape in the hole, in some order (`roles_plug`), and what is read off the roles
follows.  The order of the nodes is kept by `members_plug`.
-/

namespace ElasticTree

open scoped List

namespace Shape

/-! ## Roles -/

/-- What one node does in a shape. -/
inductive Role where
  | leaf (position : Position) (head : NodeId) (behind : List NodeId)
  | branch (position : Position) (owner : NodeId) (split : Int)
  deriving DecidableEq

namespace Role

/-- The slot that the role hangs from, and the link that is found there. -/
def wire : Role → Position × Link
  | leaf position head _ => (position, .leaf head)
  | branch position owner _ => (position, .branch owner)

@[simp] theorem wire_leaf (position : Position) (head : NodeId) (behind : List NodeId) :
    (leaf position head behind).wire = (position, .leaf head) := rfl

@[simp] theorem wire_branch (position : Position) (owner : NodeId) (split : Int) :
    (branch position owner split).wire = (position, .branch owner) := rfl

/-- The node, if it is a leaf. -/
def leaves : Role → List NodeId
  | leaf _ head _ => [head]
  | branch _ _ _ => []

/-- The nodes chained behind it, if it is a leaf. -/
def chained : Role → List NodeId
  | leaf _ _ behind => behind
  | branch _ _ _ => []

/-- The node and those chained behind it, if it is a leaf. -/
def members : Role → List NodeId
  | leaf _ head behind => head :: behind
  | branch _ _ _ => []

/-- The ring, if a leaf is meant: the node and those chained behind it. -/
def rings : Role → List (NodeId × List NodeId)
  | leaf _ head behind => [(head, behind)]
  | branch _ _ _ => []

/-- The node, if its branch is meant. -/
def owners : Role → List NodeId
  | leaf _ _ _ => []
  | branch _ owner _ => [owner]

/-- The split, if a branch is meant. -/
def splits : Role → List Int
  | leaf _ _ _ => []
  | branch _ _ split => [split]

variable (position : Position) (head owner : NodeId) (behind : List NodeId) (split : Int)

@[simp] theorem leaves_leaf : (leaf position head behind).leaves = [head] := rfl

@[simp] theorem leaves_branch : (branch position owner split).leaves = [] := rfl

@[simp] theorem chained_leaf : (leaf position head behind).chained = behind := rfl

@[simp] theorem chained_branch : (branch position owner split).chained = [] := rfl

@[simp] theorem members_leaf : (leaf position head behind).members = head :: behind := rfl

@[simp] theorem members_branch : (branch position owner split).members = [] := rfl

@[simp] theorem rings_leaf : (leaf position head behind).rings = [(head, behind)] := rfl

@[simp] theorem rings_branch : (branch position owner split).rings = [] := rfl

@[simp] theorem owners_leaf : (leaf position head behind).owners = [] := rfl

@[simp] theorem owners_branch : (branch position owner split).owners = [owner] := rfl

@[simp] theorem splits_leaf : (leaf position head behind).splits = [] := rfl

@[simp] theorem splits_branch : (branch position owner split).splits = [split] := rfl

end Role

/-- The rings of a shape from left to right, each with its head in front. -/
def rings : Shape → List (NodeId × List NodeId)
  | leaf head behind => [(head, behind)]
  | branch _ _ left right => left.rings ++ right.rings

theorem leaves_eq_map (shape : Shape) : shape.leaves = shape.rings.map Prod.fst := by
  induction shape with
  | leaf head behind => rfl
  | branch owner split left right hleft hright => simp [leaves, rings, hleft, hright]

theorem chained_eq_flatMap (shape : Shape) : shape.chained = shape.rings.flatMap Prod.snd := by
  induction shape with
  | leaf head behind => simp [chained, rings]
  | branch owner split left right hleft hright => simp [chained, rings, hleft, hright]

/-- The roles played in a shape that hangs from a position. -/
def roles : Position → Shape → List Role
  | position, leaf head behind => [.leaf position head behind]
  | position, branch owner split left right =>
      .branch position owner split ::
        (left.roles (.under owner .left) ++ right.roles (.under owner .right))

section RolesOf

variable (position : Position) (shape : Shape)

@[simp] theorem flatMap_leaves_roles :
    (shape.roles position).flatMap Role.leaves = shape.leaves := by
  induction shape generalizing position with
  | leaf head behind => rfl
  | branch owner split left right hleft hright =>
      simp [roles, leaves, Role.leaves, hleft, hright]

@[simp] theorem flatMap_chained_roles :
    (shape.roles position).flatMap Role.chained = shape.chained := by
  induction shape generalizing position with
  | leaf head behind => simp [roles, chained, Role.chained]
  | branch owner split left right hleft hright =>
      simp [roles, chained, Role.chained, hleft, hright]

@[simp] theorem flatMap_members_roles :
    (shape.roles position).flatMap Role.members = shape.members := by
  induction shape generalizing position with
  | leaf head behind => simp [roles, members, Role.members]
  | branch owner split left right hleft hright =>
      simp [roles, members, Role.members, hleft, hright]

@[simp] theorem flatMap_rings_roles : (shape.roles position).flatMap Role.rings = shape.rings := by
  induction shape generalizing position with
  | leaf head behind => rfl
  | branch owner split left right hleft hright =>
      simp [roles, rings, Role.rings, hleft, hright]

@[simp] theorem flatMap_owners_roles :
    (shape.roles position).flatMap Role.owners = shape.owners := by
  induction shape generalizing position with
  | leaf head behind => rfl
  | branch owner split left right hleft hright =>
      simp [roles, owners, Role.owners, hleft, hright]

@[simp] theorem flatMap_splits_roles :
    (shape.roles position).flatMap Role.splits = shape.splits := by
  induction shape generalizing position with
  | leaf head behind => rfl
  | branch owner split left right hleft hright =>
      simp [roles, splits, Role.splits, hleft, hright]

end RolesOf

/-- What the root of a shape does. -/
def role (position : Position) : Shape → Role
  | leaf head behind => .leaf position head behind
  | branch owner split _ _ => .branch position owner split

/-- The roles played below the root of a shape.  They do not depend on where the
shape hangs. -/
def beneath : Shape → List Role
  | leaf _ _ => []
  | branch owner _ left right =>
      left.roles (.under owner .left) ++ right.roles (.under owner .right)

theorem roles_eq_cons (position : Position) (shape : Shape) :
    shape.roles position = shape.role position :: shape.beneath := by
  cases shape <;> rfl

@[simp] theorem wire_role (position : Position) (shape : Shape) :
    (shape.role position).wire = (position, shape.link) := by
  cases shape <;> rfl

/-! ## Contexts -/

/-- A branch that is passed on the way down. -/
structure Frame where
  owner : NodeId
  split : Int
  /-- The side on which the way goes on. -/
  side : Side
  /-- What hangs on the other side. -/
  sibling : Shape
  deriving DecidableEq

namespace Frame

/-- The branch with the side that was left open filled. -/
def close (frame : Frame) (hole : Shape) : Shape :=
  match frame.side with
  | .left => .branch frame.owner frame.split hole frame.sibling
  | .right => .branch frame.owner frame.split frame.sibling hole

@[simp] theorem link_close (frame : Frame) (hole : Shape) :
    (frame.close hole).link = .branch frame.owner := by
  unfold close
  cases frame.side <;> rfl

/-- The nodes that come before the hole. -/
def before (frame : Frame) : List NodeId :=
  match frame.side with
  | .left => []
  | .right => frame.sibling.members

/-- The nodes that come after the hole. -/
def after (frame : Frame) : List NodeId :=
  match frame.side with
  | .left => frame.sibling.members
  | .right => []

theorem members_close (frame : Frame) (hole : Shape) :
    (frame.close hole).members = frame.before ++ hole.members ++ frame.after := by
  unfold close before after
  cases frame.side <;> simp [members]

theorem mem_members_close {frame : Frame} {hole : Shape} {id : NodeId} :
    id ∈ (frame.close hole).members ↔ id ∈ hole.members ++ frame.sibling.members := by
  unfold close
  cases frame.side <;> simp [members, or_comm]

end Frame

/-- The branches passed on the way down to a hole, the innermost first. -/
abbrev Context := List Frame

namespace Context

/-- The shape with the hole filled. -/
def plug : Context → Shape → Shape
  | [], hole => hole
  | frame :: outer, hole => plug outer (frame.close hole)

/-- The slot that the hole hangs from. -/
def position : Context → Position
  | [] => .root
  | frame :: _ => .under frame.owner frame.side

/-- The nodes that come before the hole. -/
def before : Context → List NodeId
  | [] => []
  | frame :: outer => before outer ++ frame.before

/-- The nodes that come after the hole. -/
def after : Context → List NodeId
  | [] => []
  | frame :: outer => frame.after ++ after outer

/-- The roles played outside the hole. -/
def roles : Context → List Role
  | [] => []
  | frame :: outer =>
      .branch (position outer) frame.owner frame.split ::
        (frame.sibling.roles (.under frame.owner frame.side.opposite) ++ roles outer)

/-- The leaves outside the hole. -/
def leaves (context : Context) : List NodeId := context.roles.flatMap Role.leaves

/-- The chained nodes outside the hole. -/
def chained (context : Context) : List NodeId := context.roles.flatMap Role.chained

/-- The owners of the branches outside the hole. -/
def owners (context : Context) : List NodeId := context.roles.flatMap Role.owners

/-- The splits outside the hole. -/
def splits (context : Context) : List Int := context.roles.flatMap Role.splits

end Context

open Context

theorem members_plug (context : Context) (hole : Shape) :
    (context.plug hole).members = context.before ++ hole.members ++ context.after := by
  induction context generalizing hole with
  | nil => simp [plug, before, after]
  | cons frame outer ih => simp [plug, before, after, ih, Frame.members_close]

theorem roles_close (frame : Frame) (hole : Shape) (slot : Position) :
    ((frame.close hole).roles slot).Perm
      (hole.roles (.under frame.owner frame.side) ++ .branch slot frame.owner frame.split ::
        frame.sibling.roles (.under frame.owner frame.side.opposite)) := by
  obtain ⟨owner, split, side, sibling⟩ := frame
  cases side with
  | left =>
      show List.Perm (_ :: (_ ++ _)) _
      exact List.perm_middle.symm
  | right =>
      show List.Perm (_ :: (_ ++ _)) _
      exact (List.Perm.cons _ List.perm_append_comm).trans List.perm_middle.symm

/-- Filling the hole adds the roles of what is put there. -/
theorem roles_plug (context : Context) (hole : Shape) :
    ((context.plug hole).roles .root).Perm (hole.roles context.position ++ context.roles) := by
  induction context generalizing hole with
  | nil => simp [plug, Context.position, Context.roles]
  | cons frame outer ih =>
      calc (Context.plug outer (frame.close hole)).roles .root
          ~ (frame.close hole).roles (Context.position outer) ++ Context.roles outer := ih _
        _ ~ (hole.roles (.under frame.owner frame.side) ++
              .branch (Context.position outer) frame.owner frame.split ::
                frame.sibling.roles (.under frame.owner frame.side.opposite)) ++
            Context.roles outer := (roles_close frame hole _).append_right _
        _ ~ hole.roles (Context.position (frame :: outer)) ++ Context.roles (frame :: outer) := by
          simp [Context.position, Context.roles]

theorem leaves_plug (context : Context) (hole : Shape) :
    (context.plug hole).leaves.Perm (hole.leaves ++ context.leaves) := by
  have := (roles_plug context hole).flatMap_right Role.leaves
  simpa [Context.leaves] using this

theorem chained_plug (context : Context) (hole : Shape) :
    (context.plug hole).chained.Perm (hole.chained ++ context.chained) := by
  have := (roles_plug context hole).flatMap_right Role.chained
  simpa [Context.chained] using this

theorem owners_plug (context : Context) (hole : Shape) :
    (context.plug hole).owners.Perm (hole.owners ++ context.owners) := by
  have := (roles_plug context hole).flatMap_right Role.owners
  simpa [Context.owners] using this

theorem splits_plug (context : Context) (hole : Shape) :
    (context.plug hole).splits.Perm (hole.splits ++ context.splits) := by
  have := (roles_plug context hole).flatMap_right Role.splits
  simpa [Context.splits] using this

/-- What is in the hole is in the whole. -/
theorem mem_members_plug (context : Context) {hole : Shape} {id : NodeId} (h : id ∈ hole.members) :
    id ∈ (context.plug hole).members := by
  rw [members_plug]
  exact List.mem_append_left _ (List.mem_append_right _ h)

theorem mem_splits_plug (context : Context) {hole : Shape} {split : Int} (h : split ∈ hole.splits) :
    split ∈ (context.plug hole).splits :=
  (splits_plug context hole).mem_iff.mpr (List.mem_append_left _ h)

/-- Putting a leaf beside the hole adds the split that parts them. -/
theorem mem_splits_splice {context : Context} {hole : Shape} {id : NodeId} {split lower : Int}
    {side : Side} :
    lower ∈ (context.plug (Frame.close ⟨id, split, side, .leaf id []⟩ hole)).splits ↔
      lower = split ∨ lower ∈ (context.plug hole).splits := by
  rw [(splits_plug _ _).mem_iff, (splits_plug _ _).mem_iff]
  cases side <;> simp [Frame.close, splits]

/-! ## Finding the way to a role -/

theorem plug_append (inner outer : Context) (hole : Shape) :
    (inner ++ outer).plug hole = outer.plug (inner.plug hole) := by
  induction inner generalizing hole with
  | nil => rfl
  | cons frame inner ih => exact ih _

/-- Every leaf stands in the hole of some context. -/
theorem exists_plug_of_mem_members {shape : Shape} {id : NodeId} (h : id ∈ shape.members) :
    ∃ (context : Context) (head : NodeId) (behind : List NodeId),
      shape = context.plug (.leaf head behind) ∧ id ∈ head :: behind := by
  induction shape with
  | leaf head behind => exact ⟨[], head, behind, rfl, h⟩
  | branch owner split left right hleft hright =>
      rcases List.mem_append.mp h with h | h
      · obtain ⟨context, head, behind, hshape, hid⟩ := hleft h
        exact ⟨context ++ [⟨owner, split, .left, right⟩], head, behind,
          by rw [plug_append, ← hshape]; rfl, hid⟩
      · obtain ⟨context, head, behind, hshape, hid⟩ := hright h
        exact ⟨context ++ [⟨owner, split, .right, left⟩], head, behind,
          by rw [plug_append, ← hshape]; rfl, hid⟩

/-- Every branch stands in the hole of some context. -/
theorem exists_plug_of_mem_owners {shape : Shape} {id : NodeId} (h : id ∈ shape.owners) :
    ∃ (context : Context) (split : Int) (left right : Shape),
      shape = context.plug (.branch id split left right) := by
  induction shape with
  | leaf head behind => simp [owners] at h
  | branch owner split left right hleft hright =>
      rw [owners, List.mem_cons, List.mem_append] at h
      rcases h with rfl | h | h
      · exact ⟨[], split, left, right, rfl⟩
      · obtain ⟨context, split', left', right', hshape⟩ := hleft h
        exact ⟨context ++ [⟨owner, split, .left, right⟩], split', left', right',
          by rw [plug_append, ← hshape]; rfl⟩
      · obtain ⟨context, split', left', right', hshape⟩ := hright h
        exact ⟨context ++ [⟨owner, split, .right, left⟩], split', left', right',
          by rw [plug_append, ← hshape]; rfl⟩

end Shape

end ElasticTree
