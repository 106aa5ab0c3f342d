import ElasticTree.ByteTree.Inspection
import ElasticTree.ByteTree.Search
import ElasticTree.Proofs.ByteTree.Keys
import ElasticTree.Proofs.Tree.Answering

/-!
# Trees of byte strings always answer

Nothing is known of the keys here, and the lengths that are compared over need
have nothing to do with those that were told to the insertions.  A search may miss
what is there, and an inspection may find the keys out of order, but both come to
an end.  What a search finds at a leaf is what was looked for, since the key of a
leaf is compared in full.
-/

namespace ElasticTree

open Shape Inspection ByteString

namespace ByteTree

variable {K V : Type} [ByteKey K] {tree : ByteTree K V} {shape : Option Shape} {context : Context}
  {hole : Shape} {key : ByteArray} {length limit shared : Nat} {id : NodeId} {node : Node K V}

private theorem keyOf_ok (h : tree.nodes.Live id) : ∃ node, tree.nodes.get? id = some node ∧
    tree.keyOf id = .ok (ByteKey.bytes node.key) := by
  obtain ⟨node, hnode⟩ := Option.isSome_iff_exists.mp h
  refine ⟨node, hnode, ?_⟩
  rw [keyOf, Tree.node_eq hnode]
  rfl

/-! ## Searching -/

/-- The node is a member of the shape, and its key was compared in full and found to
be the one that was looked for. -/
private def Matches (tree : ByteTree K V) (key : ByteArray) (length : Nat) (hole : Shape)
    (id : NodeId) : Prop :=
  id ∈ hole.members ∧ ∃ node, tree.nodes.get? id = some node ∧
    ByteString.commonBits key (ByteKey.bytes node.key) 0 length = length

private theorem Matches.mono {inner : Shape} (h : Matches tree key length inner id)
    (hsubset : inner.members ⊆ hole.members) : Matches tree key length hole id :=
  ⟨hsubset h.1, h.2⟩

/-- A search comes to an end.  In a group it is the owner of the branch that is
compared, so it is only outside of groups that the answer has the key. -/
private theorem findWithin?_ok (h : tree.Stands (some (context.plug hole)))
    (hlimit : hole.height ≤ limit) :
    ∃ answer, tree.findWithin? key length limit shared hole.link = .ok answer ∧
      ((∀ split ∈ hole.splits, 0 ≤ split) → ∀ id ∈ answer, Matches tree key length hole id) := by
  induction hole generalizing context limit shared with
  | leaf head behind =>
      obtain ⟨node, hnode, hkey⟩ := keyOf_ok (h.live (Tree.Stands.mem_of_leaf List.mem_cons_self))
      rw [Shape.link, findWithin?, hkey]
      refine ⟨_, rfl, fun _ id hid => ?_⟩
      obtain ⟨hcommon, heq⟩ := Option.ite_none_right_eq_some.mp hid
      obtain rfl := Option.some.inj heq
      exact ⟨List.mem_cons_self, node, hnode, hcommon⟩
  | branch owner split left right hleft hright =>
      obtain ⟨owned, howned, -⟩ := h.exists_owner
      obtain ⟨node, -, hkey⟩ := keyOf_ok (Option.isSome_iff_exists.mpr ⟨owned, howned⟩)
      rw [Shape.height] at hlimit
      obtain ⟨limit, rfl⟩ : ∃ rest, limit = rest + 1 := ⟨limit - 1, by omega⟩
      rw [Shape.link, findWithin?, hkey, Fault.ok_bind, h.branch_eq, Fault.ok_bind]
      have hdescend := h.descend_eq .left
      rw [Shape.link] at hdescend
      simp only [Branch.isGroup, decide_eq_true_eq]
      by_cases hgroup : split < 0
      · rw [if_pos hgroup, hdescend]
        have hvoid : ¬ ∀ lower ∈ (Shape.branch owner split left right).splits, 0 ≤ lower :=
          fun hplain => absurd (hplain split (by simp [Shape.splits])) (Int.not_le.mpr hgroup)
        split <;> exact ⟨_, rfl, fun hplain => absurd hplain hvoid⟩
      · rw [if_neg hgroup]
        generalize ByteString.commonBits key (ByteKey.bytes node.key) shared split.toNat = place
        split
        · exact ⟨none, rfl, fun _ id hid => by simp at hid⟩
        · cases Side.ofBit (bitAt key split.toNat) with
          | left =>
              obtain ⟨answer, hanswer, hmatches⟩ : ∃ answer,
                  tree.findWithin? key length limit place left.link = .ok answer ∧ _ :=
                hleft h.into_left (by omega)
              refine ⟨answer, hanswer, fun hplain id hid => ?_⟩
              exact (hmatches (fun lower hlower => hplain lower (by simp [Shape.splits, hlower]))
                id hid).mono fun _ hmem => by simp [Shape.members, hmem]
          | right =>
              obtain ⟨answer, hanswer, hmatches⟩ : ∃ answer,
                  tree.findWithin? key length limit place right.link = .ok answer ∧ _ :=
                hright h.into_right (by omega)
              refine ⟨answer, hanswer, fun hplain id hid => ?_⟩
              exact (hmatches (fun lower hlower => hplain lower (by simp [Shape.splits, hlower]))
                id hid).mono fun _ hmem => by simp [Shape.members, hmem]

/-- Every search has an answer, whatever it looks for and over which length. -/
theorem find?_ok (h : tree.Stands shape) (key : ByteArray) (length : Nat) :
    ∃ answer, tree.find? key length = .ok answer := by
  rw [find?, h.root_eq]
  cases shape with
  | none => exact ⟨none, rfl⟩
  | some found =>
      have hplug : tree.Stands (some (Context.plug [] found)) := h
      obtain ⟨answer, hanswer, -⟩ := findWithin?_ok hplug h.height_lt.le
      exact ⟨answer, hanswer⟩

/-- Where there are no groups, a node that is found has the key that was looked for,
over the length whose bits fit into a word. -/
theorem padded_eq_of_find? (h : tree.Stands shape)
    (hplain : ∀ split ∈ shape.elim [] Shape.splits, 0 ≤ split)
    (hfind : tree.find? key length = .ok (some id)) :
    id ∈ shape.elim [] Shape.members ∧ ∃ node, tree.nodes.get? id = some node ∧
      padded (length % 2 ^ 61) (ByteKey.bytes node.key) = padded (length % 2 ^ 61) key := by
  rw [find?, h.root_eq, bitLengthWrapped_eq_mod] at hfind
  cases shape with
  | none => cases hfind
  | some found =>
      have hplug : tree.Stands (some (Context.plug [] found)) := h
      obtain ⟨answer, hanswer, hmatches⟩ := findWithin?_ok hplug h.height_lt.le
      obtain rfl : answer = some id := Except.ok.inj (hanswer.symm.trans hfind)
      obtain ⟨hmem, node, hnode, hcommon⟩ := hmatches hplain id rfl
      exact ⟨hmem, node, hnode, commonBits_eq_length_iff.mp hcommon⟩

/-! ## Inspection -/

private theorem misplacement?_ok {owner : NodeId} (howner : tree.nodes.Live owner) (side : Side)
    (branch : Branch) :
    ∃ finding, tree.misplacement? length id key owner side branch = .ok finding := by
  obtain ⟨node, -, hkey⟩ := keyOf_ok howner
  rw [misplacement?, hkey]
  exact ⟨_, rfl⟩

private theorem inspectKey_completes (h : tree.Stands shape)
    (hnode : tree.nodes.get? id = some node) : (tree.inspectKey length (id, node)).Completes := by
  rw [inspectKey]
  cases h.stance hnode with
  | detached _ hplacement =>
      simp only [hplacement]
      exact pure_completes ()
  | chained context head behind hshape hmem hplacement =>
      simp only [hplacement]
      exact ⟨_, rfl⟩
  | placed context behind hshape hplacement =>
      subst hshape
      simp only [hplacement]
      exact h.inspectPlaced_completes hnode
        (fun owner side branch howner => misplacement?_ok howner side branch) deepens

/-- Every inspection has a verdict, whatever length it compares over. -/
theorem inspect_completes (h : tree.Stands shape) (length : Nat) :
    (ByteTree.inspect tree length).Completes := by
  rw [ByteTree.inspect, h.inspectStructure_eq, pure_bind]
  refine bind_completes_iff.mpr ⟨forM_completes fun entry hentry => ?_, fun _ _ => ?_⟩
  · exact inspectKey_completes h ((Arena.mem_entries_iff h.sound).mp hentry)
  · exact h.inspectOrder_completes _

end ByteTree

end ElasticTree
