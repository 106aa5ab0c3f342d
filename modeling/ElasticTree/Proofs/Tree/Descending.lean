import ElasticTree.Proofs.Tree.Insertion

/-!
# The way down for a key

Going down for a key, one compares it at every branch with the key of the owner.
That node lies somewhere below, on either side.  Since all keys below agree with
each other from the split on, what is found out about the owner holds of every
one of them (`agrees_below`), and the way down can be described by what the key
has to do with all that lies in the hole (`Descends`).
-/

namespace ElasticTree

open Shape

namespace Tree

variable {K V C : Type} [Inhabited C] [LT C] {discipline : Discipline C} {view : K → C}
  {tree : Tree K V} {key : C} {context : Context} {owner : NodeId} {split : Int}
  {hole left right : Shape}

/-- The key is on its way down, and what lies in the hole is what it has not yet
parted from. -/
structure Descends (discipline : Discipline C) (view : K → C) (tree : Tree K V) (key : C)
    (context : Context) (hole : Shape) : Prop where
  stands : tree.Stands (some (context.plug hole))
  obeys : (context.plug hole).Obeys discipline (tree.rank view)
  follows : ∀ known ∈ hole.members, Follows discipline context key (tree.rank view known)

namespace Descends

/-- The way down starts at the root. -/
theorem root (hstands : tree.Stands (some hole)) (hobeys : hole.Obeys discipline (tree.rank view))
    (key : C) : Descends discipline view tree key [] hole where
  stands := hstands
  obeys := hobeys
  follows known _ := ⟨by simp, by simp⟩

section Branch

variable (h : Descends discipline view tree key context (.branch owner split left right))
include h

theorem owner_mem : owner ∈ (Shape.branch owner split left right).members :=
  h.stands.covered.link_mem

theorem admits : discipline.admits split := (obeys_plug_iff.mp h.obeys).1.1.admits

/-- The owner speaks for all that lie below its branch. -/
theorem agrees_owner {known : NodeId}
    (hknown : known ∈ (Shape.branch owner split left right).members) :
    discipline.agrees split (tree.rank view owner) (tree.rank view known) :=
  (obeys_plug_iff.mp h.obeys).1.agrees_owner h.stands.covered hknown

theorem agrees_below (hagrees : discipline.agrees split key (tree.rank view owner)) {known : NodeId}
    (hknown : known ∈ (Shape.branch owner split left right).members) :
    discipline.agrees split key (tree.rank view known) :=
  discipline.agrees_trans hagrees (h.agrees_owner hknown)

theorem into_left (hagrees : discipline.agrees split key (tree.rank view owner))
    (hside : discipline.onSide split .left key) :
    Descends discipline view tree key (⟨owner, split, .left, right⟩ :: context) left where
  stands := h.stands
  obeys := h.obeys
  follows known hknown := by
    have hknown : known ∈ left.members ++ right.members := List.mem_append_left _ hknown
    exact (h.follows known hknown).cons (h.agrees_below hagrees hknown) hside

theorem into_right (hagrees : discipline.agrees split key (tree.rank view owner))
    (hside : discipline.onSide split .right key) :
    Descends discipline view tree key (⟨owner, split, .right, left⟩ :: context) right where
  stands := h.stands
  obeys := h.obeys
  follows known hknown := by
    have hknown : known ∈ left.members ++ right.members := List.mem_append_right _ hknown
    exact (h.follows known hknown).cons (h.agrees_below hagrees hknown) hside

end Branch

/-! ## Finding the key -/

section Find

variable (h : Descends discipline view tree key context hole) (hplain : context.Plain)
include h hplain

/-- All that comes before the hole is smaller than the key. -/
theorem lt_before : ∀ id ∈ context.before, tree.rank view id < key := by
  obtain ⟨known, hknown⟩ := List.exists_mem_of_ne_nil _ hole.members_ne_nil
  exact (obeys_plug_iff.mp h.obeys).2.lt_before (mem_keys_iff.mpr ⟨known, hknown, rfl⟩)
    (h.follows known hknown) hplain

/-- All that comes after the hole is larger than the key. -/
theorem lt_after : ∀ id ∈ context.after, key < tree.rank view id := by
  obtain ⟨known, hknown⟩ := List.exists_mem_of_ne_nil _ hole.members_ne_nil
  exact (obeys_plug_iff.mp h.obeys).2.lt_after (mem_keys_iff.mpr ⟨known, hknown, rfl⟩)
    (h.follows known hknown) fun frame hframe _ => hplain frame hframe

/-- The key is found in the hole, or not at all. -/
theorem find?_eq [DecidableEq C] :
    (context.plug hole).members.find? (fun id => tree.rank view id = key) =
      hole.members.find? fun id => tree.rank view id = key := by
  have hbefore : context.before.find? (fun id => tree.rank view id = key) = none := by
    refine List.find?_eq_none.mpr fun id hid heq => ?_
    exact discipline.lt_irrefl key (of_decide_eq_true heq ▸ h.lt_before hplain id hid)
  have hafter : context.after.find? (fun id => tree.rank view id = key) = none := by
    refine List.find?_eq_none.mpr fun id hid heq => ?_
    exact discipline.lt_irrefl key (of_decide_eq_true heq ▸ h.lt_after hplain id hid)
  rw [members_plug, List.find?_append, List.find?_append, hbefore, hafter, Option.none_or,
    Option.or_none]

/-- Where all keys in the hole are the same, the first node there has the key, or
no node has it. -/
theorem find?_of_same [DecidableEq C] {stored : C}
    (hsame : ∀ id ∈ hole.members, tree.rank view id = stored) :
    (context.plug hole).members.find? (fun id => tree.rank view id = key) =
      if stored = key then some (hole.endLeaf .left) else none := by
  rw [h.find?_eq hplain]
  by_cases heq : stored = key
  · obtain ⟨rest, hmembers⟩ := hole.exists_members_eq
    have hfirst : tree.rank view (hole.endLeaf .left) = key :=
      (hsame _ (by simp [hmembers])).trans heq
    rw [if_pos heq, hmembers, List.find?_cons, decide_eq_true hfirst]
  · rw [if_neg heq]
    exact List.find?_eq_none.mpr fun id hid hkey =>
      heq ((hsame id hid).symm.trans (of_decide_eq_true hkey))

end Find

end Descends

end Tree

end ElasticTree
