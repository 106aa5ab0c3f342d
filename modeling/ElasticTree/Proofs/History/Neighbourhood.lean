import ElasticTree.Proofs.History.Joining
import ElasticTree.Proofs.Layout.Touching
import ElasticTree.Proofs.Tree.Determined

/-!
# Changes stay in the neighbourhood

However large a tree is, linking a node alters the records of two others at most, and
unlinking a node those of six others at most.  All other records are the same in every
field, and even in those that are altered only the links are.
-/

namespace ElasticTree

open Shape

namespace Tree

variable {K V L : Type}

/-- Keys and values are the same under the same names, and of the records besides that
of `id` no more than `limit` are altered. -/
structure Alters (limit : Nat) (id : NodeId) (before after : Tree K V) : Prop where
  key?_eq : ∀ other, after.key? other = before.key? other
  value?_eq : ∀ other, after.value? other = before.value? other
  live_iff : ∀ other, after.nodes.Live other ↔ before.nodes.Live other
  others : ∃ others : List NodeId, others.length ≤ limit ∧
    ∀ other, other ≠ id → other ∉ others → after.nodes.get? other = before.nodes.get? other

/-- Linking and unlinking single nodes only alters records nearby.  An insertion may
only fail if the splits do not last for it. -/
structure Local (insertion : Insertion K V L) (lasts : Prop) (tree : Tree K V) : Prop where
  unlinks : ∀ id, tree.isLinked id = true →
    ∃ more after, tree.unlink id = .ok (.ok more, after) ∧ Alters 6 id tree after
  inserts : ∀ id how,
    (∃ answer after, insertion tree id how = .ok (answer, after) ∧ Alters 2 id tree after) ∨
      insertion tree id how = .error .splitOverflow ∧ ¬ lasts

variable {insertion : Insertion K V L} {tree after : Tree K V} {shape : Option Shape} {id : NodeId}
  {limit : Nat}

theorem Alters.refl (tree : Tree K V) (limit : Nat) (id : NodeId) : Alters limit id tree tree :=
  ⟨fun _ => rfl, fun _ => rfl, fun _ => Iff.rfl, [], by simp, fun _ _ _ => rfl⟩

/-- Records are altered where the links are. -/
theorem Keeps.alters (h : Keeps tree after) {others : List NodeId} (hlength : others.length ≤ limit)
    (htouches : tree.layout.Touches after.layout (id :: others)) : Alters limit id tree after where
  key?_eq := h.key?_eq
  value?_eq := h.value?_eq
  live_iff _ := h.live_iff
  others := by
    refine ⟨others, hlength, fun other hne hnot => ?_⟩
    have hother : other ∉ id :: others := by simp [hne, hnot]
    exact get?_eq_of_links h (htouches.placement_eq other hother) (htouches.branch_eq other hother)
      (htouches.ring_eq other hother)

namespace Stands

/-- Unlinking alters what is around the node and what is around a branch that the node
has lent elsewhere. -/
theorem unlink_alters (h : tree.Stands shape) (hid : id ∈ shape.elim [] Shape.members) :
    ∃ more after, tree.unlink id = .ok (.ok more, after) ∧ Alters 6 id tree after := by
  obtain ⟨after, shape', hunlink, ⟨found, hfound, hremoves⟩, hstands, hkeeps⟩ := h.unlink_of_mem hid
  rw [Option.mem_def] at hfound
  subst hfound
  obtain ⟨others, hlength, htouches⟩ := h.draws.removes_touches hremoves hstands.draws
  exact ⟨_, after, hunlink, hkeeps.alters hlength htouches⟩

/-- Joining alters what the node is linked to. -/
theorem joined_alters {accepted : Prop} {answer : Except Refusal NodeId} {shape' : Option Shape}
    (h : tree.Stands shape) (hjoined : tree.Joined accepted shape id answer after shape') :
    Alters 2 id tree after := by
  cases hjoined with
  | refused => exact .refl tree 2 id
  | held => exact .refl tree 2 id
  | linked _ found hadds hstands hkeeps =>
      obtain ⟨front, back, hbefore, hafter⟩ := hadds.members
      have hdetached : tree.layout.placement id = .detached := by
        rw [h.placement_eq_detached_iff, hbefore]
        have hnodup := hstands.draws.members_nodup
        rw [Option.elim_some, hafter, List.nodup_middle, List.nodup_cons] at hnodup
        exact hnodup.1
      obtain ⟨others, hlength, htouches⟩ := h.draws.adds_touches hdetached hadds hstands.draws
      exact hkeeps.alters hlength htouches

end Stands

theorem Insertion.Joins.local {accepts : L → Prop} {lasts : Nat → Prop}
    {holds : Nat → Tree K V → Option Shape → Prop} {floor : Nat}
    (hjoins : insertion.Joins accepts lasts holds) (h : holds floor tree shape) :
    tree.Local insertion (lasts (floor + 1)) where
  unlinks id hid := (hjoins.stands h).unlink_alters ((hjoins.stands h).isLinked_iff.mp hid)
  inserts id how := by
    rcases hjoins.inserts h id how with ⟨answer, after, shape', hinsert, hjoined, -⟩ | hover
    · exact .inl ⟨answer, after, hinsert, (hjoins.stands h).joined_alters hjoined⟩
    · exact .inr hover

end Tree

/-! ## Histories -/

/-- After any history, linking a node alters the links of two other nodes at most, and
unlinking a node those of six others at most, and nothing else: in a tree of words of
any width, and in a tree of byte strings that are compared over any lengths. -/
theorem mutation_local {K V : Type} [ByteKey K] (unique : Bool) :
    (∀ (width : Nat) (requests : List (Request (BitVec width) V Unit)), width < 2 ^ 31 →
      (Tree.empty unique).Fits WordTree.insertion requests →
        ∃ tree, (Tree.empty unique).run WordTree.insertion requests = .ok tree ∧
          tree.Local WordTree.insertion True) ∧
    ∀ requests : List (Request K V Nat), (Tree.empty unique).Fits ByteTree.insert requests →
      (requests.countP Request.isInsert < 2 ^ 31 →
        ∃ tree, (Tree.empty unique).run ByteTree.insert requests = .ok tree) ∧
      ∀ tree, (Tree.empty unique).run ByteTree.insert requests = .ok tree →
        tree.Local ByteTree.insert (requests.countP Request.isInsert < 2 ^ 31) := by
  refine ⟨fun width requests hwidth hfits => ?_,
    fun requests hfits => ⟨fun hinserts => ByteTree.run_ok hinserts hfits, fun tree hrun => ?_⟩⟩
  · obtain ⟨tree, shape, hrun, horder⟩ := WordTree.run_inOrder hwidth hfits
    exact ⟨tree, hrun, (WordTree.joins hwidth).local horder⟩
  · obtain ⟨shape, hrange⟩ := ByteTree.inRange_of_run hfits hrun
    exact ByteTree.joins.local hrange

/-- Three nodes of the word five between two other words, of which the first lends its
branch to the tree. -/
private def crowded : List (Request (BitVec 8) String Unit) :=
  [.alloc 5 "first", .alloc 1 "second", .alloc 5 "third", .alloc 7 "fourth", .alloc 5 "fifth",
    .insert ⟨1, 0⟩ (), .insert ⟨0, 0⟩ (), .insert ⟨2, 0⟩ (), .insert ⟨3, 0⟩ (), .insert ⟨4, 0⟩ ()]

/-- Strings that are compared over two lengths, three of them as equals. -/
private def mingled : List (Request String String Nat) :=
  [.alloc "a" "first", .alloc "ab" "second", .alloc "ac" "third", .alloc "b" "fourth",
    .insert ⟨0, 0⟩ 1, .insert ⟨1, 0⟩ 1, .insert ⟨2, 0⟩ 1, .insert ⟨3, 0⟩ 2, .unlink ⟨1, 0⟩]

theorem mutation_local_crowded :
    8 < 2 ^ 31 ∧ (Tree.empty false).Fits WordTree.insertion crowded ∧
      (Tree.empty false).Fits ByteTree.insert mingled ∧
      (∃ tree, (Tree.empty false).run WordTree.insertion crowded = .ok tree ∧
        tree.Local WordTree.insertion True) ∧
      ∃ tree, (Tree.empty false).run ByteTree.insert mingled = .ok tree ∧
        tree.Local ByteTree.insert (mingled.countP Request.isInsert < 2 ^ 31) := by
  have hwidth : 8 < 2 ^ 31 := by decide
  have hcrowded : (Tree.empty false).Fits WordTree.insertion crowded := by decide +kernel
  have hmingled : (Tree.empty false).Fits ByteTree.insert mingled := by decide +kernel
  have hlocality := mutation_local (K := String) (V := String) false
  obtain ⟨hruns, hlocal⟩ := hlocality.2 mingled hmingled
  obtain ⟨tree, hrun⟩ := hruns (by decide)
  exact ⟨hwidth, hcrowded, hmingled, hlocality.1 8 crowded hwidth hcrowded, tree, hrun,
    hlocal tree hrun⟩

end ElasticTree
