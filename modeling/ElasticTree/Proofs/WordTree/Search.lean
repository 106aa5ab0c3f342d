import ElasticTree.Proofs.Shape.Occurrence
import ElasticTree.Proofs.WordTree.Insertion
import ElasticTree.WordTree.Search

/-!
# Searching for words

The way down for a word is the one that insertion takes.  A word that diverges
from the owner of a branch is none of those below it.  One that is the word of
the owner has been found there: the leaf of the owner comes before all other
nodes of its key (`find?_eq`).

The nearest word is looked for among all nodes, arranged from the near end on.
Where the way down ends, all nodes on the near side are passed over and all on
the far side qualify, so the answer is the first node of the hole or the first
one beyond it, according to whether those in the hole qualify (`nearest_of_hole`).
-/

namespace ElasticTree

open Shape

namespace WordTree

variable {width : Nat} {V : Type} {tree : WordTree width V} {key : BitVec width} {id : NodeId}
  {context : Context} {hole : Shape} {shape : Option Shape}

/-! ## The key itself -/

/-- A word that has a key below a branch in the hole agrees with its owner. -/
private theorem find?_eq_none_of_diverge {owner : NodeId} {split : Int} {left right : Shape}
    (h : tree.Descends (Word.discipline width) (fun word => word) key context
      (.branch owner split left right)) (hnot : ¬ Word.AgreeFrom split key (wordOf tree owner)) :
    (Shape.branch owner split left right).members.find? (fun id => wordOf tree id = key) =
      none := by
  refine List.find?_eq_none.mpr fun id hid heq => ?_
  have hsame : wordOf tree id = key := of_decide_eq_true heq
  exact hnot (hsame ▸ (Word.discipline width).agrees_symm (h.agrees_owner hid))

/-- A branch whose owner has the word is as good as the leaf. -/
private theorem find?_owner {owner : NodeId} {split : Int} {left right : Shape}
    (h : tree.Descends (Word.discipline width) (fun word => word) key context
      (.branch owner split left right)) (hkey : wordOf tree owner = key) :
    (context.plug (.branch owner split left right)).members.find? (fun id => wordOf tree id = key) =
      some owner := by
  have hleaf : owner ∈ (context.plug (.branch owner split left right)).leaves :=
    h.stands.draws.owners_subset owner ((owners_plug _ _).mem_iff.mpr (by simp [Shape.owners]))
  obtain ⟨inner, behind, hplug⟩ := exists_plug_of_mem_leaves hleaf
  have hobeys := h.obeys
  rw [← hplug] at hobeys ⊢
  rw [← hkey]
  exact hobeys.find?_head (plain hobeys)

private theorem findWithin?_eq {limit : Nat}
    (h : tree.Descends (Word.discipline width) (fun word => word) key context hole)
    (hlimit : hole.height ≤ limit) :
    tree.findWithin? key limit hole.link =
      .ok ((context.plug hole).members.find? fun id => wordOf tree id = key) := by
  induction hole generalizing context limit with
  | leaf head behind =>
      obtain ⟨node, hnode, hkey⟩ := h.stands.exists_node_below (fun word => word) List.mem_cons_self
      rw [Shape.link, findWithin?, hnode, Fault.ok_bind, hkey]
      rw [h.find?_of_same (plain h.obeys) fun id hid =>
        (obeys_plug_iff.mp h.obeys).1.eq_of_leaf _ (mem_keys_iff.mpr ⟨id, hid, rfl⟩)]
      rfl
  | branch owner split left right hleft hright =>
      obtain ⟨node, hnode, hkey⟩ := h.stands.exists_node_below (fun word => word) h.owner_mem
      rw [Shape.height] at hlimit
      obtain ⟨limit, rfl⟩ : ∃ rest, limit = rest + 1 := ⟨limit - 1, by omega⟩
      rw [Shape.link, findWithin?, hnode, Fault.ok_bind, hkey]
      dsimp only
      by_cases heq : wordOf tree owner = key
      · rw [if_pos heq, find?_owner h heq]
        rfl
      · rw [if_neg heq, h.stands.branch_eq, Fault.ok_bind]
        cases forks h with
        | parts hdiverge hnot =>
            rw [hdiverge, Fault.ok_bind, h.find?_eq (plain h.obeys),
              find?_eq_none_of_diverge h hnot]
            rfl
        | left hdiverge hside hinto =>
            rw [hdiverge, Fault.ok_bind, if_neg Bool.false_ne_true, hside, Fault.ok_bind]
            exact hleft hinto (by omega)
        | right hdiverge hside hinto =>
            rw [hdiverge, Fault.ok_bind, if_neg Bool.false_ne_true, hside, Fault.ok_bind]
            exact hright hinto (by omega)

/-- The search finds the first node of a word. -/
theorem find?_eq (h : tree.Stands shape)
    (hobeys : ∀ found ∈ shape, found.Obeys (Word.discipline width) (wordOf tree))
    (key : BitVec width) :
    tree.find? key = .ok ((shape.elim [] Shape.members).find? fun id => wordOf tree id = key) := by
  rw [find?, h.root_eq]
  cases shape with
  | none => rfl
  | some found => exact findWithin?_eq (.root h (hobeys _ rfl) key) h.height_lt.le

/-! ## The nearest key -/

/-- The word qualifies: it is the one looked for or lies beyond it. -/
private def qualifies (direction : Side) (key stored : BitVec width) : Bool :=
  stored = key ∨ lies direction stored key

section Nearest

variable {direction : Side}

/-- Nodes ahead of the hole qualify, and those on the near side do not. -/
private theorem qualifies_outside (direction : Side)
    (h : tree.Descends (Word.discipline width) (fun word => word) key context hole) :
    (∀ id ∈ context.ahead direction, qualifies direction key (wordOf tree id) = true) ∧
      ∀ id ∈ context.ahead direction.opposite,
        qualifies direction key (wordOf tree id) = false := by
  have hbefore := h.lt_before (plain h.obeys)
  have hafter := h.lt_after (plain h.obeys)
  cases direction with
  | right =>
      refine ⟨fun id hid => decide_eq_true (.inr (decide_eq_true (hafter id hid))),
        fun id hid => ?_⟩
      have hlt : wordOf tree id < key := hbefore id hid
      simp [qualifies, lies, BitVec.ne_of_lt hlt, BitVec.not_lt.mpr (BitVec.le_of_lt hlt)]
  | left =>
      refine ⟨fun id hid => decide_eq_true (.inr (decide_eq_true (hbefore id hid))),
        fun id hid => ?_⟩
      have hlt : key < wordOf tree id := hafter id hid
      simp [qualifies, lies, (BitVec.ne_of_lt hlt).symm, BitVec.not_lt.mpr (BitVec.le_of_lt hlt)]

/-- Where all nodes in the hole qualify, or none does, the nearest one is the
first in the hole or the first beyond it. -/
private theorem nearest_of_hole
    (h : tree.Descends (Word.discipline width) (fun word => word) key context hole) {all : Bool}
    (hall : ∀ id ∈ hole.members, qualifies direction key (wordOf tree id) = all) :
    (arranged direction (context.plug hole).members).find?
        (fun id => qualifies direction key (wordOf tree id)) =
      if all then metFirst direction hole.members
      else metFirst direction (context.ahead direction) := by
  obtain ⟨hahead, hnear⟩ := qualifies_outside direction h
  rw [arranged_plug, List.find?_append, find?_arranged_eq_none hnear, Option.none_or,
    List.find?_append, find?_arranged_of_forall hahead]
  cases all with
  | true =>
      rw [find?_arranged_of_forall hall]
      obtain ⟨found, hfound⟩ : ∃ found, metFirst direction hole.members = some found := by
        obtain ⟨found, -, hfound⟩ := h.stands.enter_eq direction
        exact ⟨found, hfound⟩
      rw [hfound]
      rfl
  | false =>
      rw [find?_arranged_eq_none hall]
      rfl

/-- A word that does not agree with the key from a split up lies where all words do
that agree with it. -/
theorem liesAbove_eq {stored known : BitVec width} {split : Int} (hsplit : 0 ≤ split)
    (hagree : Word.AgreeFrom split stored known) (hnot : ¬ Word.AgreeFrom split key known) :
    liesAbove direction stored key split = .ok (lies direction known key) := by
  have hne : known >>> split.toNat ≠ key >>> split.toNat := fun heq =>
    hnot ((Word.shift_eq_iff hsplit).mp heq.symm)
  rw [liesAbove, Word.highBits_eq hsplit, Word.highBits_eq hsplit,
    (Word.shift_eq_iff hsplit).mpr hagree]
  cases direction with
  | right => exact congrArg Except.ok (decide_eq_decide.mpr (Word.shift_lt_shift_iff hne.symm))
  | left => exact congrArg Except.ok (decide_eq_decide.mpr (Word.shift_lt_shift_iff hne))

/-- Words below a branch from whose owner the key diverges all lie where the
owner does. -/
private theorem qualifies_of_diverge (direction : Side) {owner : NodeId} {split : Int}
    {left right : Shape}
    (h : tree.Descends (Word.discipline width) (fun word => word) key context
      (.branch owner split left right)) (hsplit : 0 ≤ split)
    (hnot : ¬ Word.AgreeFrom split key (wordOf tree owner)) :
    ∃ all, liesAbove direction (wordOf tree owner) key split = .ok all ∧
      ∀ id ∈ (Shape.branch owner split left right).members,
        qualifies direction key (wordOf tree id) = all := by
  have howner : liesAbove direction (wordOf tree owner) key split =
      .ok (lies direction (wordOf tree owner) key) := liesAbove_eq hsplit (fun _ _ => rfl) hnot
  refine ⟨_, howner, fun id hid => ?_⟩
  have hagree : Word.AgreeFrom split (wordOf tree owner) (wordOf tree id) := h.agrees_owner hid
  have hnot' : ¬ Word.AgreeFrom split key (wordOf tree id) := fun h' =>
    hnot fun i hi => (h' i hi).trans (hagree i hi).symm
  have hkey : wordOf tree id ≠ key := fun heq => hnot' fun i _ => by rw [heq]
  have hsame := Except.ok.inj (howner.symm.trans (liesAbove_eq hsplit hagree hnot'))
  rw [hsame, qualifies]
  simp [hkey]

private theorem nearestWithin?_eq {limit : Nat}
    (h : tree.Descends (Word.discipline width) (fun word => word) key context hole)
    (hlimit : hole.height ≤ limit) :
    tree.nearestWithin? direction key limit context.position hole.link =
      .ok ((arranged direction (context.plug hole).members).find?
        fun id => qualifies direction key (wordOf tree id)) := by
  induction hole generalizing context limit with
  | leaf head behind =>
      obtain ⟨node, hnode, hkey⟩ := h.stands.exists_node_below (fun word => word) List.mem_cons_self
      have hall : ∀ id ∈ (Shape.leaf head behind).members,
          qualifies direction key (wordOf tree id) =
            qualifies direction key (wordOf tree head) := by
        intro id hid
        have hsame : wordOf tree id = wordOf tree head :=
          (obeys_plug_iff.mp h.obeys).1.eq_of_leaf _ (mem_keys_iff.mpr ⟨id, hid, rfl⟩)
        rw [hsame]
      rw [Shape.link, nearestWithin?, hnode, Fault.ok_bind, hkey, nearest_of_hole h hall]
      dsimp only
      by_cases hqualifies : qualifies direction key (wordOf tree head) = true
      · obtain ⟨found, harrive, hmet⟩ := h.stands.arrive_eq direction
        rw [if_pos (of_decide_eq_true hqualifies), if_pos hqualifies, harrive, Shape.members, hmet]
        rfl
      · rw [if_neg fun hlies => hqualifies (decide_eq_true hlies), if_neg hqualifies,
          h.stands.beyond_eq]
  | branch owner split left right hleft hright =>
      have hadmits : 1 ≤ split ∧ split ≤ width := h.admits
      obtain ⟨node, hnode, hkey⟩ := h.stands.exists_node_below (fun word => word) h.owner_mem
      rw [Shape.height] at hlimit
      obtain ⟨limit, rfl⟩ : ∃ rest, limit = rest + 1 := ⟨limit - 1, by omega⟩
      rw [Shape.link, nearestWithin?, hnode, Fault.ok_bind, hkey, h.stands.branch_eq, Fault.ok_bind]
      dsimp only
      cases forks h with
      | parts hdiverge hnot =>
          obtain ⟨all, hlies, hall⟩ := qualifies_of_diverge direction h (by omega) hnot
          rw [hdiverge, Fault.ok_bind, if_pos rfl, hlies, Fault.ok_bind, nearest_of_hole h hall,
            h.stands.beyond_eq]
          obtain ⟨found, henter, hmet⟩ := h.stands.enter_eq direction
          rw [Shape.link] at henter
          rw [henter, hmet]
          split_ifs <;> rfl
      | left hdiverge hside hinto =>
          rw [hdiverge, Fault.ok_bind, if_neg Bool.false_ne_true, hside, Fault.ok_bind]
          exact hleft hinto (by omega)
      | right hdiverge hside hinto =>
          rw [hdiverge, Fault.ok_bind, if_neg Bool.false_ne_true, hside, Fault.ok_bind]
          exact hright hinto (by omega)

private theorem nearest?_eq (h : tree.Stands shape)
    (hobeys : ∀ found ∈ shape, found.Obeys (Word.discipline width) (wordOf tree))
    (direction : Side) (key : BitVec width) :
    tree.nearest? direction key = .ok ((arranged direction (shape.elim [] Shape.members)).find?
      fun id => qualifies direction key (wordOf tree id)) := by
  rw [nearest?, h.root_eq]
  cases shape with
  | none => cases direction <;> rfl
  | some found => exact nearestWithin?_eq (.root h (hobeys _ rfl) key) h.height_lt.le

end Nearest

variable (h : tree.Stands shape)
  (hobeys : ∀ found ∈ shape, found.Obeys (Word.discipline width) (wordOf tree))
include h hobeys

/-- The search upwards finds the first node of the word or a larger one. -/
theorem findGE?_eq (key : BitVec width) : tree.findGE? key =
    .ok ((shape.elim [] Shape.members).find? fun id => key ≤ wordOf tree id) := by
  have hqualifies : (fun id => qualifies .right key (wordOf tree id)) =
      fun id => decide (key ≤ wordOf tree id) := by
    funext id
    refine decide_eq_decide.mpr ?_
    rw [lies, decide_eq_true_iff, BitVec.le_def, BitVec.lt_def, ← BitVec.toNat_inj]
    omega
  calc tree.findGE? key
      = .ok ((shape.elim [] Shape.members).find? fun id => qualifies .right key (wordOf tree id)) :=
        nearest?_eq h hobeys .right key
    _ = .ok ((shape.elim [] Shape.members).find? fun id => key ≤ wordOf tree id) := by
        rw [hqualifies]

/-- The search downwards finds the last node of the word or a smaller one. -/
theorem findLE?_eq (key : BitVec width) : tree.findLE? key =
    .ok ((shape.elim [] Shape.members).reverse.find? fun id => wordOf tree id ≤ key) := by
  have hqualifies : (fun id => qualifies .left key (wordOf tree id)) =
      fun id => decide (wordOf tree id ≤ key) := by
    funext id
    refine decide_eq_decide.mpr ?_
    rw [lies, decide_eq_true_iff, BitVec.le_def, BitVec.lt_def, ← BitVec.toNat_inj]
    omega
  calc tree.findLE? key
      = .ok ((shape.elim [] Shape.members).reverse.find?
          fun id => qualifies .left key (wordOf tree id)) :=
        nearest?_eq h hobeys .left key
    _ = .ok ((shape.elim [] Shape.members).reverse.find? fun id => wordOf tree id ≤ key) := by
        rw [hqualifies]

end WordTree

end ElasticTree
