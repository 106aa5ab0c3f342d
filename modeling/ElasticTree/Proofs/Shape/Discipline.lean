import ElasticTree.Proofs.Shape.Change
import Mathlib.Algebra.Group.Int.Defs

/-!
# Keys in their places

A `Discipline` says how the keys of one kind of tree are spread over a shape:
which splits there may be, what the keys below a split have in common, on which
side of it a key belongs, and which splits may follow one another on the way
down.  `Obeys` asks of a shape that it keeps to the discipline throughout.  The
owners of the branches have no part in this, so a branch may be handed over to
any node.

The laws of a discipline are what insertion and order rest on.  Keys that part
at a split are in order, the left ones first.  A split at which a new key parts
from one below it fits in between the splits above, with which the new key
agrees (`sinks`), and a split below, with which it does not (`rises`).

An obeying shape is taken apart around a hole (`obeys_plug_iff`).  Then what has
to be shown of a change at the hole is only what the frames around it see:
the keys and the splits in the hole.
-/

namespace ElasticTree

open Shape

/-- How keys are spread over a shape. -/
structure Discipline (C : Type) [LT C] where
  /-- The split may occur. -/
  admits : Int → Prop
  /-- Keys below a branch have in common what its split says. -/
  agrees : Int → C → C → Prop
  /-- The key belongs on the side of the split. -/
  onSide : Int → Side → C → Prop
  /-- The second split may occur below the first. -/
  deepens : Int → Int → Prop
  /-- Nodes of equal key may be chained. -/
  chains : Prop
  agrees_refl : ∀ split key, agrees split key key
  agrees_symm : ∀ {split first second}, agrees split first second → agrees split second first
  agrees_trans : ∀ {split first second third},
    agrees split first second → agrees split second third → agrees split first third
  deepens_trans : ∀ {upper middle lower},
    deepens upper middle → deepens middle lower → deepens upper lower
  lt_irrefl : ∀ key : C, ¬ key < key
  not_lt : ∀ {split first second}, agrees split first second → onSide split .left first →
    onSide split .right second → ¬ second < first
  lt : ∀ {split first second}, 0 ≤ split → agrees split first second → onSide split .left first →
    onSide split .right second → first < second
  /-- What holds of a key at a split above holds of all keys that agree further
  down. -/
  coarsen : ∀ {upper lower first second}, deepens upper lower → agrees lower first second →
    agrees upper first second ∧ ∀ side, onSide upper side first → onSide upper side second
  /-- Keys that go the same way at a split part below it. -/
  sinks : ∀ {upper lower first second side side'}, 0 ≤ lower → agrees upper first second →
    onSide upper side first → onSide upper side second → agrees lower first second →
      onSide lower side' first → onSide lower side'.opposite second → deepens upper lower
  /-- Keys that do not agree at a split part above it. -/
  rises : ∀ {upper lower first second}, 0 ≤ upper → ¬ agrees lower first second →
    agrees upper first second → deepens upper lower

namespace Discipline

variable {C : Type} [LT C] {discipline : Discipline C}

/-- Splits that are admitted and have been lowered fewer than `bound` times are in
the range of what a branch can hold, with room for one below. -/
def Lasts (discipline : Discipline C) (bound : Nat) : Prop :=
  ∀ split, discipline.admits split → -(bound : Int) < split → -2 ^ 31 < split

/-- What a branch asks of the keys on the one and on the other side of it, and of
the splits below. -/
structure Parts (discipline : Discipline C) (split : Int) (side : Side) (here there : List C)
    (below : List Int) : Prop where
  admits : discipline.admits split
  agrees : ∀ first ∈ here ++ there, ∀ second ∈ here ++ there,
    discipline.agrees split first second
  here : ∀ key ∈ here, discipline.onSide split side key
  there : ∀ key ∈ there, discipline.onSide split side.opposite key
  deepens : ∀ lower ∈ below, discipline.deepens split lower

namespace Parts

variable {split : Int} {side : Side} {here there here' there' : List C} {below below' : List Int}

theorem swap (h : discipline.Parts split side here there below) :
    discipline.Parts split side.opposite there here below where
  admits := h.admits
  agrees first hfirst second hsecond := h.agrees first (by simpa [or_comm] using hfirst) second
    (by simpa [or_comm] using hsecond)
  here := h.there
  there := by
    rw [Side.opposite_opposite]
    exact h.here
  deepens := h.deepens

theorem mono (h : discipline.Parts split side here there below) (hhere : ∀ key ∈ here', key ∈ here)
    (hthere : ∀ key ∈ there', key ∈ there) (hbelow : ∀ lower ∈ below', lower ∈ below) :
    discipline.Parts split side here' there' below' where
  admits := h.admits
  agrees first hfirst second hsecond := h.agrees
    first (List.mem_append.mpr ((List.mem_append.mp hfirst).imp (hhere first) (hthere first)))
    second (List.mem_append.mpr ((List.mem_append.mp hsecond).imp (hhere second) (hthere second)))
  here key hkey := h.here key (hhere key hkey)
  there key hkey := h.there key (hthere key hkey)
  deepens lower hlower := h.deepens lower (hbelow lower hlower)

/-- A key that belongs here may join those that are here. -/
theorem extend {key known : C} {lower : Int} (h : discipline.Parts split side here there below)
    (hknown : known ∈ here) (hagrees : discipline.agrees split key known)
    (hside : discipline.onSide split side key) (hlower : discipline.deepens split lower) :
    discipline.Parts split side (key :: here) there (lower :: below) where
  admits := h.admits
  agrees := by
    have hall : ∀ other ∈ here ++ there, discipline.agrees split key other := fun other hother =>
      discipline.agrees_trans hagrees (h.agrees known (List.mem_append_left _ hknown) other hother)
    intro first hfirst second hsecond
    rw [List.cons_append, List.mem_cons] at hfirst hsecond
    rcases hfirst with rfl | hfirst <;> rcases hsecond with rfl | hsecond
    · exact discipline.agrees_refl split _
    · exact hall second hsecond
    · exact discipline.agrees_symm (hall first hfirst)
    · exact h.agrees first hfirst second hsecond
  here := List.forall_mem_cons.mpr ⟨hside, h.here⟩
  there := h.there
  deepens := List.forall_mem_cons.mpr ⟨hlower, h.deepens⟩

end Parts

end Discipline

namespace Shape

variable {C : Type} [LT C] {discipline : Discipline C} {rank : NodeId → C} {shape hole : Shape}
  {context : Context} {id : NodeId}

/-- The keys in the order of the nodes. -/
def keys (rank : NodeId → C) (shape : Shape) : List C := shape.members.map rank

/-- The keys of the nodes are where the discipline wants them. -/
def Obeys (discipline : Discipline C) (rank : NodeId → C) : Shape → Prop
  | leaf head behind =>
      (∀ id ∈ behind, rank id = rank head) ∧ (behind = [] ∨ discipline.chains)
  | branch _ split left right =>
      discipline.Parts split .left (left.keys rank) (right.keys rank)
          (left.splits ++ right.splits) ∧
        left.Obeys discipline rank ∧ right.Obeys discipline rank

/-- The frames around a hole are where the discipline wants them, where the hole
holds the keys and the splits. -/
def Context.Obeys (discipline : Discipline C) (rank : NodeId → C) :
    Context → List C → List Int → Prop
  | [], _, _ => True
  | frame :: outer, held, splits =>
      discipline.Parts frame.split frame.side held (frame.sibling.keys rank)
          (splits ++ frame.sibling.splits) ∧
        frame.sibling.Obeys discipline rank ∧
          Context.Obeys discipline rank outer (held ++ frame.sibling.keys rank)
            (frame.split :: (splits ++ frame.sibling.splits))

@[simp] theorem obeys_reown_iff {old new : NodeId} :
    (shape.reown old new).Obeys discipline rank ↔ shape.Obeys discipline rank := by
  induction shape with
  | leaf head behind => exact Iff.rfl
  | branch owner split left right hleft hright => simp [reown, Obeys, keys, hleft, hright]

/-- Only the keys of the nodes in the shape matter. -/
theorem Obeys.congr {rank' : NodeId → C} (h : shape.Obeys discipline rank)
    (hsame : ∀ id ∈ shape.members, rank' id = rank id) : shape.Obeys discipline rank' := by
  have hkeys : ∀ part : Shape, (∀ id ∈ part.members, rank' id = rank id) →
      part.keys rank' = part.keys rank := fun part hpart => List.map_congr_left hpart
  induction shape with
  | leaf head behind =>
      refine ⟨fun id hid => ?_, h.2⟩
      rw [hsame id (List.mem_cons_of_mem _ hid), hsame head List.mem_cons_self, h.1 id hid]
  | branch owner split left right hleft hright =>
      have hsame_left : ∀ id ∈ left.members, rank' id = rank id :=
        fun id hid => hsame id (List.mem_append_left _ hid)
      have hsame_right : ∀ id ∈ right.members, rank' id = rank id :=
        fun id hid => hsame id (List.mem_append_right _ hid)
      refine ⟨?_, hleft h.2.1 hsame_left, hright h.2.2 hsame_right⟩
      rw [hkeys left hsame_left, hkeys right hsame_right]
      exact h.1

/-! ## Around a hole -/

namespace Context

theorem Obeys.mono {held held' : List C} {splits splits' : List Int}
    (h : context.Obeys discipline rank held splits) (hheld : ∀ key ∈ held', key ∈ held)
    (hsplits : ∀ split ∈ splits', split ∈ splits) :
    context.Obeys discipline rank held' splits' := by
  induction context generalizing held held' splits splits' with
  | nil => trivial
  | cons frame outer ih =>
      obtain ⟨hparts, hsibling, houter⟩ := h
      have hheld' : ∀ key ∈ held' ++ frame.sibling.keys rank,
          key ∈ held ++ frame.sibling.keys rank :=
        fun key hkey => List.mem_append.mpr ((List.mem_append.mp hkey).imp_left (hheld key))
      have hsplits' : ∀ split ∈ splits' ++ frame.sibling.splits,
          split ∈ splits ++ frame.sibling.splits :=
        fun split hsplit =>
          List.mem_append.mpr ((List.mem_append.mp hsplit).imp_left (hsplits split))
      refine ⟨hparts.mono hheld (fun key hkey => hkey) hsplits', hsibling, ih houter hheld' ?_⟩
      intro split hsplit
      exact List.mem_cons.mpr ((List.mem_cons.mp hsplit).imp_right (hsplits' split))

/-- A key that agrees with one in the hole at every frame, and goes the same way,
may join those in the hole. -/
theorem Obeys.extend {held : List C} {splits : List Int} {key known : C} {lower : Int}
    (h : context.Obeys discipline rank held splits) (hknown : known ∈ held)
    (hleads : ∀ frame ∈ context, discipline.agrees frame.split key known ∧
      discipline.onSide frame.split frame.side key)
    (hlower : ∀ frame ∈ context, discipline.deepens frame.split lower) :
    context.Obeys discipline rank (key :: held) (lower :: splits) := by
  induction context generalizing held splits with
  | nil => trivial
  | cons frame outer ih =>
      obtain ⟨hparts, hsibling, houter⟩ := h
      obtain ⟨hagrees, hside⟩ := hleads frame List.mem_cons_self
      refine ⟨hparts.extend hknown hagrees hside (hlower frame List.mem_cons_self), hsibling,
        (ih houter (List.mem_append_left _ hknown)
          (fun other hother => hleads other (List.mem_cons_of_mem _ hother))
          fun other hother => hlower other (List.mem_cons_of_mem _ hother)).mono ?_ ?_⟩
      · exact fun other hother => hother
      · intro split hsplit
        simp only [List.mem_cons, List.cons_append, List.mem_append] at hsplit ⊢
        tauto

end Context

theorem obeys_plug_iff : (context.plug hole).Obeys discipline rank ↔
    hole.Obeys discipline rank ∧ context.Obeys discipline rank (hole.keys rank) hole.splits := by
  induction context generalizing hole with
  | nil => exact (and_iff_left trivial).symm
  | cons frame outer ih =>
      rw [Context.plug, ih]
      obtain ⟨owner, split, side, sibling⟩ := frame
      cases side with
      | left =>
          simp only [Frame.close, Obeys, Context.Obeys, keys, members, splits, List.map_append]
          tauto
      | right =>
          have hparts : discipline.Parts split .left (sibling.keys rank) (hole.keys rank)
              (sibling.splits ++ hole.splits) ↔
              discipline.Parts split .right (hole.keys rank) (sibling.keys rank)
                (hole.splits ++ sibling.splits) :=
            ⟨fun h => h.swap.mono (fun _ h => h) (fun _ h => h) (by simp [or_comm]),
              fun h => h.swap.mono (fun _ h => h) (fun _ h => h) (by simp [or_comm])⟩
          have houter : Context.Obeys discipline rank outer (sibling.keys rank ++ hole.keys rank)
              (split :: (sibling.splits ++ hole.splits)) ↔
              Context.Obeys discipline rank outer (hole.keys rank ++ sibling.keys rank)
                (split :: (hole.splits ++ sibling.splits)) :=
            ⟨fun h => h.mono (by simp [or_comm]) (by simp [or_comm]),
              fun h => h.mono (by simp [or_comm]) (by simp [or_comm])⟩
          simp only [keys] at hparts houter
          simp only [Frame.close, Obeys, Context.Obeys, keys, members, splits, List.map_append,
            hparts, houter]
          tauto

end Shape

end ElasticTree
